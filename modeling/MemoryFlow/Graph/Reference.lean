import MemoryFlow.Graph.Cache

/-! # References between accesses

An access refers to its defining access, a phi to the values that flow into it. Every reference is
known at both ends: the access referred to lists its user, once for each reference. Changing a
reference changes both ends, and forgets the cached clobbers that may depend on it.
-/

namespace MemoryFlow.Graph

def addUser (g : Graph) (a user : Access) : Except Fault Graph := do
  let _ ← g.node a
  return g.modifyNode a fun n => { n with users := n.users ++ [user] }

/-- Note that `user` refers to `a` once less. -/
def removeUser (g : Graph) (a user : Access) : Except Fault Graph := do
  let _ ← g.node a
  return g.modifyNode a fun n => { n with users := n.users.erase user }

/-- Make `definition` the defining access of the use or definition `a`. Below a definition
everything may now see other memory, below a use nothing. -/
def setDefining (g : Graph) (a definition : Access) : Except Fault Graph := do
  if (← g.node definition).isUse then throw .useAsDefining
  let n ← g.node a
  match n.link? with
  | none => throw (.phiHasNoDefining a)
  | some link =>
      let g := g.modifyNode a (·.mapLink ({ · with defining := some definition }))
      let g ← match link.defining with
        | some old => g.removeUser old a
        | none => pure g
      let g ← g.addUser definition a
      if n.isUse then g.forget a else return g.forgetAll

/-- The contents of `phi`, which must be one, if `value` may flow into it. -/
def phiFor (g : Graph) (phi value : Access) : Except Fault Node := do
  if (← g.node value).isUse then throw .useAsIncoming
  let n ← g.node phi
  if n.isPhi then return n else throw (.notPhi phi)

/-- Let `value` flow into `phi` from `pred`. -/
def addIncoming (g : Graph) (phi : Access) (pred : Block) (value : Access) :
    Except Fault Graph := do
  let _ ← g.phiFor phi value
  let g := g.modifyNode phi (·.mapIncoming (· ++ [(pred, value)]))
  return (← g.addUser value phi).forgetAll

/-- Replace the value on an edge of `phi` by `value`. -/
def setIncoming (g : Graph) (phi : Access) (edge : Nat) (value : Access) : Except Fault Graph := do
  let n ← g.phiFor phi value
  match n.incoming[edge]? with
  | none => throw .outOfBounds
  | some (pred, old) =>
      let g := g.modifyNode phi (·.mapIncoming (·.set edge (pred, value)))
      let g ← g.removeUser old phi
      return (← g.addUser value phi).forgetAll

/-- The edges of a phi that satisfy a condition. -/
def edgesWhere (n : Node) (condition : Block × Access → Bool) : List Nat :=
  (n.incoming.zipIdx.filter (condition ·.1)).map (·.2)

/-- Replace the value on every edge of `phi` from `pred`, and say whether there was one. -/
def setIncomingFrom (g : Graph) (phi : Access) (pred : Block) (value : Access) :
    Except Fault (Bool × Graph) := do
  let edges := edgesWhere (← g.node phi) (·.1 == pred)
  let g ← edges.foldlM (·.setIncoming phi · value) g
  return (!edges.isEmpty, g)

/-- Make `user` refer to `new` where it refers to `old`. -/
def redirect (old new : Access) (g : Graph) (user : Access) : Except Fault Graph := do
  let n ← g.node user
  if n.isPhi then (edgesWhere n (·.2 == old)).foldlM (·.setIncoming user · new) g
  else g.setDefining user new

/-- Make every user of `old` refer to `new`. -/
def replaceAll (g : Graph) (old new : Access) : Except Fault Graph := do
  if (← g.node new).isUse then throw .useAsDefining
  if old = new then return g
  let users := ((← g.node old).users.mergeSort (·.index ≤ ·.index)).eraseDups
  users.foldlM (redirect old new) g

end MemoryFlow.Graph
