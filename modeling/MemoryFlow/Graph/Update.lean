import MemoryFlow.Alias.Oracle
import MemoryFlow.Graph.Listing
import MemoryFlow.Graph.Reference

/-! # Creation and removal of accesses -/

namespace MemoryFlow.Graph

/-- Create the access of an instruction, if it touches memory; it is put into no list. What may
write memory and every ordered load or store is a definition, what only reads is a use. An
assumption has no access: it only looks like touching memory so as to stay in place. -/
def newAccess? (g : Graph) (p : Procedure) (o : Oracle) (inst : Inst) (block : Block) :
    Except Fault (Option (Graph × Access)) := do
  let op ← p.op inst
  if op.intrinsic? = some .assume then return none
  let e ← o.effect p inst
  if e.writes || op.isOrderedAccess then
    let (g, a) := g.addNode { number := g.nextNumber, block, role := .definition (some inst) {} }
    return some ({ g with
      nextNumber := g.nextNumber + 1
      instAccess := g.instAccess.insert inst a }, a)
  else if e.reads then
    let (g, a) := g.addNode { number := 0, block, role := .use inst {} }
    return some ({ g with instAccess := g.instAccess.insert inst a }, a)
  else return none

/-- Create the access of a placed instruction, defined by `definition`. It is put into no list. -/
def createAccess (g : Graph) (p : Procedure) (o : Oracle) (inst : Inst) (definition : Access) :
    Except Fault (Graph × Access) := do
  if (← g.node definition).isUse then throw .useAsDefining
  match p.layout.blockOf inst with
  | none => throw (.instNotPlaced inst)
  | some block =>
      match ← g.newAccess? p o inst block with
      | none => throw (.memoryUntouched inst)
      | some (g, a) => return (← g.setDefining a definition, a)

/-- Create a phi without incoming values at the head of `block`. -/
def createPhi (g : Graph) (block : Block) : Except Fault (Graph × Access) := do
  if g.blockPhi.contains block then throw (.phiExists block)
  let (g, a) := g.addNode { number := g.nextNumber, block, role := .phi [] }
  let g ← { g with nextNumber := g.nextNumber + 1 }.insert a block .beginning
  return ({ g with blockPhi := g.blockPhi.insert block a }, a)

/-- Remove the contents of `a` and the entry by which it is found. -/
def clear (g : Graph) (a : Access) (n : Node) : Graph :=
  let g := { g with nodes := g.nodes.setIfInBounds a.index none }
  match n.inst? with
  | some inst =>
      if g.access? inst = some a then { g with instAccess := g.instAccess.erase inst } else g
  | none =>
      if g.phi? n.block = some a then { g with blockPhi := g.blockPhi.erase n.block } else g

/-- Remove an access that has no users, with its references and with every cached clobber that names
it. -/
def discard (g : Graph) (a : Access) : Except Fault Graph := do
  if a = .liveOnEntry then throw .liveOnEntryRemoved
  let n ← g.node a
  if !n.users.isEmpty then throw (.stillUsed a)
  let g ← g.unlist a
  let g ← n.operands.foldlM (·.removeUser · a) g
  let g ← g.forget a
  return (g.forgetNaming a).clear a n

/-- Remove an access and let its users refer to what it was defined by. A phi with users must merge
one value only. -/
def remove (g : Graph) (a : Access) : Except Fault Graph := do
  if a = .liveOnEntry then throw .liveOnEntryRemoved
  let n ← g.node a
  let replacement := if n.isPhi then n.uniqueIncoming? else n.defining?
  if n.users.isEmpty then g.discard a
  else
    match replacement with
    | none => throw (.noReplacement a)
    | some replacement => (← g.replaceAll a replacement).discard a

end MemoryFlow.Graph
