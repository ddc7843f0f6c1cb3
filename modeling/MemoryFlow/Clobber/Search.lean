import MemoryFlow.Clobber.Query
import MemoryFlow.Graph.Order

/-! # The search for a clobber

From an access the search goes up the chain of defining accesses to the first that clobbers the
query, or to a phi. A phi is looked through if every path above it comes to a clobber that dominates
the next definition above the phi's block, its target, or comes to the target itself; then the
search goes on from there. If some path meets another clobber first, the phi is the answer.

Rounds of this kind share one record of what has been visited: nothing is learnt from going up from
an access twice. Each path keeps the legs it has gone, so that a path that is blocked can be
followed back to the phi at which its round began.
-/

namespace MemoryFlow

/-- Where a walk up a chain ends. -/
inductive Stop where
  /-- At a definition that clobbers the query. -/
  | clobber (a : Access)
  /-- At a phi. -/
  | phi (a : Access)
  /-- At the access it was told to stop at. -/
  | target
  deriving DecidableEq, Repr

namespace Stop

def clobber? : Stop → Option Access
  | .clobber a => some a
  | _ => none

def phi? : Stop → Option Access
  | .phi a => some a
  | _ => none

end Stop

/-- A part of a path that was gone up in one walk: the round it belongs to, and where it ended. -/
structure Leg where
  round : Nat
  last : Access
  deriving DecidableEq, Repr

/-- An access to go up from, and the legs of the path that led there, the newest first. -/
structure Branch where
  start : Access
  legs : List Leg
  deriving DecidableEq, Repr

/-- What a search through phis has found. -/
structure Exploration where
  /-- The accesses that were gone up from. -/
  visited : List Access := []
  /-- The clobbers at which paths ended, in the order they were found. -/
  ended : List Access := []
  /-- The paths that came to the target in this round: of each the legs before that one. -/
  paused : List (List Leg) := []
  deriving DecidableEq, Repr

/-- How a round of a search ends. -/
inductive RoundEnd where
  /-- A path with these legs came to a clobber that does not dominate the target. -/
  | blocked (legs : List Leg)
  /-- Every path has come to an end. -/
  | over (x : Exploration)
  deriving DecidableEq, Repr

/-- The phi at which a round began, found by following a path back to an earlier round. -/
def outset (round : Nat) (phi : Access) (legs : List Leg) : Except Fault Access :=
  match legs.find? (·.round < round) with
  | none => throw .pathWithoutBeginning
  | some leg => if leg.last = phi then return leg.last else throw (.pathFromElsewhere leg.last phi)

namespace Graph

variable (g : Graph) (p : Procedure) (o : Oracle) (q : Query)

/-- A bound on the number of accesses a walk can pass without passing one twice. -/
def walkBound : Nat :=
  g.nodes.size + 1

/-- Go up from an access to a clobber, a phi or the target. The fuel bounds the number of steps. -/
def walkUp (target : Option Access) : Nat → Access → Except Fault Stop
  | 0, _ => throw .diverges
  | fuel + 1, a =>
      if target = some a then return .target
      else do
        match (← g.node a).role with
        | .phi _ => return .phi a
        | .use .. => throw .useOnChain
        | .definition _ link =>
            if a = .liveOnEntry then return .clobber a
            else if ← g.clobbers p o a q then return .clobber a
            else
              match link.defining with
              | some above => walkUp target fuel above
              | none => throw .chainEndsEarly

/-- The phi or state on entry at the end of the chain from an access. The fuel bounds the number of
steps. -/
def chainEnd : Nat → Access → Except Fault Access
  | 0, _ => throw .diverges
  | fuel + 1, a => do
      match (← g.node a).defining? with
      | some above => chainEnd fuel above
      | none => return a

/-- The last definition of the nearest block that properly dominates the block of `phi` and has
one. -/
def targetOf (phi : Access) : Except Fault Access := do
  let block := (← g.node phi).block
  return ((g.tree.dominators block).findSome? fun above => (g.definitions above).getLast?).getD
    .liveOnEntry

/-- The one of several clobbers that the others dominate. -/
def lowest (first : Access) (rest : List Access) : Ordered Access :=
  rest.foldlM (fun best a => do return if ← g.dominates a best then best else a) first

/-- Go up from each pending access, and from what flows into the phis met on the way, the last value
first, until a path is blocked or every path has come to an end. The fuel bounds the number of
accesses to go up from. -/
def explore (target : Access) (round : Nat) : Nat → List Branch → Exploration → Ordered RoundEnd
  | 0, _, _ => throw .diverges
  | fuel + 1, pending, x =>
      match pending.dropWhile fun branch => x.visited.contains branch.start with
      | [] => return .over x
      | ⟨a, legs⟩ :: rest => do
          let x := { x with visited := a :: x.visited }
          match ← g.walkUp p o q (some target) g.walkBound a with
          | .clobber c =>
              if ← g.dominates c target then
                explore target round fuel rest { x with ended := x.ended ++ [c] }
              else return .blocked (⟨round, c⟩ :: legs)
          | .target => explore target round fuel rest { x with paused := x.paused ++ [legs] }
          | .phi phi =>
              let branches := (← g.reachableIncoming phi).map (Branch.mk · (⟨round, phi⟩ :: legs))
              explore target round fuel (branches.reverse ++ rest) x

/-- The clobbers among `ended` whose block the block of `top` dominates. -/
def endedBelow (top : Access) (ended : List Access) : Except Fault (List Access) := do
  let block := (← g.node top).block
  ended.filterM fun c => do return g.tree.dominates block (← g.node c).block

/-- The clobbers that count when paths have come to the target, and the end of the chain above it if
that is known. A clobber at which a path ended before counts if the block of the chain's end
dominates its own. -/
def gather (target : Access) (x : Exploration) : Except Fault (List Access × Option Access) := do
  let stops ← x.paused.mapM fun _ => g.walkUp p o q none g.walkBound target
  let clobbers := stops.filterMap Stop.clobber?
  let top := (stops.filterMap Stop.phi?).getLast?
  if x.ended.isEmpty then return (clobbers, top)
  let top ← top.elim (g.chainEnd g.walkBound target) pure
  return (clobbers ++ (← g.endedBelow top x.ended), some top)

/-- Look for a clobber above a phi to which the paused paths have come, round by round. The fuel
bounds the number of rounds. -/
def lookThrough : Nat → Nat → Access → Exploration → Ordered Access
  | 0, _, _, _ => throw .diverges
  | fuel + 1, round, phi, x => do
      let values ← g.reachableIncoming phi
      let pending := x.paused.flatMap fun legs => values.map (Branch.mk · (⟨round, phi⟩ :: legs))
      let target ← g.targetOf phi
      match ← g.explore p o q target (round + 1) g.walkBound pending.reverse
        { x with paused := [] } with
      | .blocked legs => outset (round + 1) phi legs
      | .over x =>
          if x.paused.isEmpty then
            match x.ended with
            | [] => throw .outOfBounds
            | c :: rest => g.lowest c rest
          else
            match ← g.gather p o q target x with
            | (c :: rest, _) => g.lowest c rest
            | ([], none) => throw .chainUnfinished
            | ([], some next) =>
                if (← g.node next).isPhi then lookThrough fuel (round + 1) next x
                else throw (.chainEndNotPhi next)

end Graph

end MemoryFlow
