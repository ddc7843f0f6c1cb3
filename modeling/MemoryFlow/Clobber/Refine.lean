import MemoryFlow.Clobber.Walker

/-! # Finding the clobbers of all uses

One walk over the dominator tree finds the clobber of every use that can be reached. It keeps the
definitions and phis that hold at the current place, the newest first. For each use the newest are
looked at, down to where an earlier use of the same memory has looked already; a phi is left to a
search. A use for which too many would have to be looked at is passed over.
-/

namespace MemoryFlow

inductive CallTarget where
  | declared (callee : Callee)
  | intrinsic (id : Intrinsic)
  deriving DecidableEq, Repr

/-- The memory that a use accesses: uses with the same footprint have the same clobbers. -/
inductive Footprint where
  | location (loc : Location)
  | call (target : CallTarget) (args : List Value)
  deriving DecidableEq, Repr

namespace Footprint

/-- The footprint of an operation that accesses memory. -/
def ofOp? : Op → Option Footprint
  | .call callee args => some (.call (.declared callee) args)
  | .intrinsic id args => some (.call (.intrinsic id) args)
  | op => (Location.ofOp? op).map .location

def query (inst : Inst) : Footprint → Query
  | .location loc => .access inst (some loc)
  | .call .. => .call inst

end Footprint

/-- What earlier uses of one footprint have found out. Definitions that hold are named by their
height: the state on entry has height zero. -/
structure Knowledge where
  /-- How often definitions had ceased to hold at the time. -/
  epoch : Nat := 0
  /-- Nothing clobbers the footprint from this height down to the height of the last clobber. -/
  bound : Nat := 0
  /-- The block in which that was found out. -/
  boundBlock : Option Block := none
  /-- The height of the last clobber found. -/
  kill : Option Nat := none
  deriving DecidableEq, Repr

/-- The walk over the dominator tree. -/
structure Refinement where
  graph : Graph
  /-- The definitions and phis that hold, newest first. -/
  holding : List Access := [.liveOnEntry]
  /-- How often definitions have ceased to hold. -/
  epoch : Nat := 1
  known : Footprint → Knowledge := fun _ => {}

namespace Refinement

def learn (r : Refinement) (f : Footprint) (k : Knowledge) : Refinement :=
  { r with known := fun f' => if f' = f then k else r.known f' }

/-- Give up the definitions that do not dominate `block`. -/
def dropStale (g : Graph) (block : Block) : List Access → Except Fault (List Access)
  | [] => throw .nothingHolds
  | a :: rest => do
      if g.tree.dominates (← g.node a).block block then return a :: rest
      else dropStale g block rest

/-- Whether `inst` ends the lifetime of what is at `loc`. -/
def endsLifetime (p : Procedure) (o : Oracle) (inst : Option Inst) (loc : Option Location) :
    Except Fault Bool := do
  match inst, loc with
  | some inst, some loc =>
      match ← p.op inst with
      | .intrinsic .lifetimeEnd (ptr :: _) => o.areSame p (.behind ptr) loc
      | _ => return false
  | _, _ => return false

/-- Look at the newest `count` definitions for one that clobbers the use `a`, and answer its height.
At a phi the search says where to go on; above the end of its lifetime memory is as on entry. -/
def scan (p : Procedure) (o : Oracle) (a : Access) (q : Query) :
    Nat → List Access → Graph → Except Fault (Option Nat × Graph)
  | 0, _, g | _, [], g => return (none, g)
  | count + 1, candidate :: older, g => do
      let n ← g.node candidate
      if n.isPhi then
        let (clobber, _, g) ← g.clobberOf p o a
        match (candidate :: older).idxOf? clobber with
        | none => throw (.clobberOffStack clobber)
        | some depth => return (some (older.length - depth), g)
      else if n.isUse then throw .useHolds
      else if ← endsLifetime p o n.inst? q.loc? then return (some 0, g)
      else if ← g.clobbers p o candidate q then return (some older.length, g)
      else scan p o a q count older g

/-- What is known of a footprint on coming to `block`: if definitions have ceased to hold and the
block is not below where it was found out, nothing. -/
def current (r : Refinement) (f : Footprint) (block : Block) : Except Fault Knowledge := do
  let k := r.known f
  if k.epoch = r.epoch then return k
  let k := { k with epoch := r.epoch }
  match k.boundBlock with
  | none => return k
  | some above =>
      if r.graph.tree.dominates above block then return k
      match r.holding.getLast? with
      | none => throw .outOfBounds
      | some oldest =>
          return { k with
            bound := 0, boundBlock := some (← r.graph.node oldest).block, kill := none }

/-- Find and keep the clobber of the use `a`, at `inst`, with this footprint. -/
def refineUse (p : Procedure) (o : Oracle) (r : Refinement) (block : Block) (a : Access)
    (inst : Inst) (f : Footprint) : Except Fault Refinement := do
  let k ← r.current f block
  let top := r.holding.length - 1
  let kill := k.kill.getD top
  if top < k.bound then throw .boundOffStack
  if top < kill then throw .killOffStack
  let checked := { k with bound := top, boundBlock := some block }
  if r.graph.config.checkLimit < top - k.bound then
    return r.learn f { checked with kill := none }
  let (found, g) ← scan p o a (f.query inst) (top - k.bound) r.holding r.graph
  let kill := found.getD (min k.bound kill)
  match r.holding[top - kill]? with
  | none => throw .outOfBounds
  | some clobber =>
      return { r with graph := ← g.cache a clobber }.learn f { checked with kill := some kill }

/-- Come to an access: a definition or phi holds from here on, a use is refined. -/
def visit (p : Procedure) (o : Oracle) (block : Block) (r : Refinement) (a : Access) :
    Except Fault Refinement := do
  match (← r.graph.node a).role with
  | .use inst link =>
      if link.cached.isSome then return r
      if ← Graph.readsConstant p o inst then
        return { r with graph := ← r.graph.cache a .liveOnEntry }
      match Footprint.ofOp? (← p.op inst) with
      | none => return r
      | some f => refineUse p o r block a inst f
  | _ => return { r with holding := a :: r.holding }

def visitBlock (p : Procedure) (o : Oracle) (r : Refinement) (block : Block) :
    Except Fault Refinement := do
  match r.graph.accesses block with
  | [] => return r
  | accesses =>
      let holding ← dropStale r.graph block r.holding
      let epoch := if holding.length = r.holding.length then r.epoch else r.epoch + 1
      accesses.foldlM (visit p o block) { r with holding, epoch }

end Refinement

/-- Find the clobber of every use in blocks that can be reached, and keep it in the graph. -/
def Graph.refineUses (g : Graph) (p : Procedure) (o : Oracle) : Except Fault Graph := do
  let blocks := g.tree.preorder.filterMap g.tree.blockOf?
  let r ← blocks.foldlM (Refinement.visitBlock p o) { graph := g }
  return r.graph

end MemoryFlow
