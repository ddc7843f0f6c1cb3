import MemoryFlow.Clobber.Search

/-! # Checking a clobber

A second, exhaustive search checks an answer: it must dominate the start, every path up must come to
it without meeting a clobber on the way, and on some path it must itself clobber the query, unless
it is a phi.
-/

namespace MemoryFlow.Graph

variable (g : Graph) (p : Procedure) (o : Oracle) (q : Query) (start clobber : Access)

/-- Follow a chain up to the clobber or to a phi. The answer is the values that flow into the phi,
and whether the clobber has acted as one by now. The fuel bounds the number of steps. -/
def auditChain : Nat → Access → Bool → Except Fault (List Access × Bool)
  | 0, _, _ => throw .diverges
  | fuel + 1, a, acted => do
      if a = clobber then
        let n ← g.node a
        if n.isDefinition ∧ !acted then
          return ([], a = .liveOnEntry ∨ (← g.clobbers p o a q))
        else return ([], acted)
      else if a = .liveOnEntry then throw (.clobberMissed clobber)
      else
        match (← g.node a).role with
        | .phi _ => return (← g.reachableIncoming a, acted)
        | .definition _ link =>
            if a ≠ start then
              if ← g.clobbers p o a q then throw (.earlierClobber a clobber)
            match link.defining with
            | some above => auditChain fuel above acted
            | none => return ([], acted)
        | .use _ link =>
            if a ≠ start then throw (.useInsideWalk a start)
            match link.defining with
            | some above => auditChain fuel above acted
            | none => return ([], acted)

/-- Follow every path from the pending accesses, and answer whether the clobber acted as one. The
fuel bounds the number of accesses to go up from. -/
def auditPaths : Nat → List Access → List Access → Bool → Except Fault Bool
  | 0, _, _, _ => throw .diverges
  | fuel + 1, pending, visited, acted =>
      match pending.dropWhile visited.contains with
      | [] => return acted
      | a :: rest => do
          let (more, acted) ← g.auditChain p o q start clobber g.walkBound a acted
          auditPaths fuel (more.reverse ++ rest) (a :: visited) acted

/-- Fault if `clobber` is not an answer for a search from `start`. -/
def audit : Ordered Unit := do
  if !(← g.dominates clobber start) then throw (.clobberNotDominating clobber start)
  if start = .liveOnEntry then
    if clobber ≠ .liveOnEntry then throw .liveOnEntryClobbered
  else
    let acted ← g.auditPaths p o q start clobber g.walkBound [start] [] false
    if !(← g.node clobber).isPhi && !acted then throw (.neverClobbers clobber)

end MemoryFlow.Graph
