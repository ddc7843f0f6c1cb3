import MemoryFlow.Graph.Basic

/-! # Dominance between accesses

An access dominates another if its block dominates the other's, or if both are in one block and it
comes first there. The place of an access in its block is looked up in the graph's `LocalOrder`,
which is filled in for a block when the block is first asked about and again after its list has
changed.
-/

namespace MemoryFlow

/-- Computations that may settle the places of a block's accesses on the way. -/
abbrev Ordered := StateT LocalOrder (Except Fault)

namespace LocalOrder

/-- Record the places of the accesses of `block`. -/
def settle (o : LocalOrder) (block : Block) (accesses : List Access) : LocalOrder where
  places := accesses.zipIdx.foldl (fun places (a, i) => places.insert a (i + 1)) o.places
  settled := o.settled.insert block

/-- The places in `block` are no longer up to date. -/
def unsettle (o : LocalOrder) (block : Block) : LocalOrder :=
  { o with settled := o.settled.erase block }

def drop (o : LocalOrder) (a : Access) : LocalOrder :=
  { o with places := o.places.erase a }

end LocalOrder

namespace Graph

/-- Answer a question about the graph, keeping the places that were settled. -/
def ask {α : Type} (g : Graph) (question : Ordered α) : Except Fault (α × Graph) := do
  let (answer, order) ← question.run g.order
  return (answer, { g with order })

def unsettle (g : Graph) (block : Block) : Graph :=
  { g with order := g.order.unsettle block }

/-- Make sure that the places of the accesses of `block` are up to date. -/
def settle (g : Graph) (block : Block) : Ordered Unit :=
  modify fun order =>
    if order.settled.contains block then order else order.settle block (g.accesses block)

/-- Whether `a` is `b` or comes before it in their block. -/
def locallyDominates (g : Graph) (a b : Access) : Ordered Bool := do
  let block := (← g.node a).block
  let other := (← g.node b).block
  if block ≠ other then throw (.differentBlocks block other)
  else if a = b then return true
  else if b = .liveOnEntry then return false
  else if a = .liveOnEntry then return true
  else
    g.settle block
    let order ← get
    match order.places[a]?, order.places[b]? with
    | some i, some j => return i < j
    | _, _ => throw (.notNumbered block)

def dominates (g : Graph) (a b : Access) : Ordered Bool := do
  if a = b then return true
  else if b = .liveOnEntry then return false
  else
    let block := (← g.node a).block
    let other := (← g.node b).block
    if block = other then g.locallyDominates a b
    else return g.tree.dominates block other

/-- Whether `a` dominates every place where `user` refers to it. A phi refers to a value at the end
of the block that the value flows in from. -/
def dominatesUse (g : Graph) (a user : Access) : Ordered Bool := do
  let n ← g.node user
  if n.isPhi then
    let block := (← g.node a).block
    match n.incoming.filter (·.2 == a) with
    | [] => g.dominates a user
    | edges => return a = .liveOnEntry ∨ edges.all fun (pred, _) => g.tree.dominates block pred
  else g.dominates a user

end Graph

end MemoryFlow
