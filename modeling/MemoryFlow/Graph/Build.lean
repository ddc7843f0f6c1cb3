import MemoryFlow.Clobber.Refine
import MemoryFlow.Dominance.Frontier
import MemoryFlow.Graph.Rename
import MemoryFlow.Graph.Update

/-! # Building a memory graph

The accesses of a procedure are created in program order, phis are put where definitions may flow
together, and every access is linked to the definition that holds before it. What cannot be reached
sees memory as on entry.
-/

namespace MemoryFlow

inductive BuildError where
  /-- The procedure has no dominator tree. -/
  | tree (error : Tree.Error)
  /-- An oracle or operation faulted. -/
  | fault (fault : Fault)
  deriving DecidableEq, Repr

namespace Graph

/-- Create the accesses of the instructions of a block and list them. -/
def addRow (p : Procedure) (o : Oracle) (g : Graph) (row : Layout.Row) : Except Fault Graph := do
  let (g, list) ← row.insts.foldlM
    (fun (g, list) inst => do
      match ← g.newAccess? p o inst row.block with
      | none => return (g, list)
      | some (g, a) => return (g, list ++ [a]))
    (g, [])
  let defList := list.filter fun a => (g.node? a).any (·.isDefinition)
  let g := if list.isEmpty then g else { g with lists := g.lists.insert row.block list }
  return if defList.isEmpty then g else { g with defLists := g.defLists.insert row.block defList }

/-- The key by which phis are put in program order; blocks that are not placed come first. -/
def blockRank (p : Procedure) (block : Block) : Nat :=
  match p.layout.blockPosition block with
  | some position => position + 1
  | none => 0

/-- Put a phi at the head of every block in the iterated frontier of those with definitions. -/
def addPhis (p : Procedure) (g : Graph) : Except Fault Graph :=
  let defining := g.flow.blocks.filter fun block => !(g.definitions block).isEmpty
  let blocks := (g.tree.frontier g.flow defining none).mergeSort (blockRank p · ≤ blockRank p ·)
  blocks.foldlM (fun g block => do return (← g.createPhi block).1) g

/-- Let memory on entry flow into the phi of a block that can be reached, from one that cannot. -/
def addEntryEdge (block : Block) (g : Graph) (succ : Block) : Except Fault Graph := do
  if !g.tree.contains succ then return g
  match g.phi? succ with
  | none => return g
  | some phi =>
      if ((← g.node phi).incomingFrom? block).isSome then return g
      else g.addIncoming phi block .liveOnEntry

/-- Link an access that cannot be reached to memory on entry. A phi is replaced by it. -/
def linkToEntry (g : Graph) (a : Access) : Except Fault Graph := do
  if (← g.node a).isPhi then (← g.replaceAll a .liveOnEntry).discard a
  else g.setDefining a .liveOnEntry

/-- Make everything in a block that cannot be reached see memory as on entry. -/
def linkUnreachable (g : Graph) (block : Block) : Except Fault Graph := do
  if g.tree.contains block then throw (.blockReachable block)
  let g ← (g.flow.succs block).foldlM (addEntryEdge block) g
  (g.accesses block).foldlM linkToEntry g

/-- Link every access to the definition that holds before it. -/
def linkAll (g : Graph) : Except Fault Graph := do
  let renamed ← match g.tree.blockOf? Tree.root with
    | none => pure ⟨g, {}⟩
    | some entry => Renaming.run ⟨g, {}⟩ .first entry .liveOnEntry
  let unvisited := g.flow.blocks.filter (!renamed.visited.contains ·)
  unvisited.foldlM linkUnreachable renamed.graph

/-- The linked accesses of a procedure with this flow and dominator tree. How graphs are searched
does not matter yet. -/
def construct (p : Procedure) (o : Oracle) (flow : FlowGraph) (tree : Tree) (entry : Block) :
    Except Fault Graph := do
  let g ← p.layout.rows.foldlM (addRow p o) (start {} flow tree entry)
  let g ← addPhis p g
  g.linkAll

/-- The graph of a procedure with this flow and dominator tree. -/
def buildOn (p : Procedure) (o : Oracle) (config : Config) (flow : FlowGraph) (tree : Tree)
    (entry : Block) : Except Fault Graph := do
  let g := { ← construct p o flow tree entry with config }
  if config.refineUses then g.refineUses p o else return g

def build (p : Procedure) (o : Oracle) (config : Config) : Except BuildError Graph :=
  let flow := FlowGraph.ofProcedure p
  match Tree.ofFlow flow .forward, flow.entry with
  | .error error, _ => .error (.tree error)
  | .ok _, none => .error (.tree .noBlocks)
  | .ok tree, some entry =>
      match buildOn p o config flow tree entry with
      | .ok g => .ok g
      | .error fault => .error (.fault fault)

end Graph

end MemoryFlow
