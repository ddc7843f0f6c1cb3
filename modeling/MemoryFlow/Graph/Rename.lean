import MemoryFlow.Graph.Reference

/-! # Renaming

Renaming walks down the dominator tree with the definition that holds at each point, and links every
use, definition and phi edge to it. The first renaming of a graph adds the edges of phis. A later
one, of part of a graph, replaces them, and goes through the blocks visited before without touching
what is in them.
-/

namespace MemoryFlow

/-- Whether a graph is renamed for the first time. -/
inductive Pass where
  | first
  | again
  deriving DecidableEq, Repr

/-- A graph being renamed, with the blocks visited. -/
structure Renaming where
  graph : Graph
  visited : Std.TreeSet Block := {}

/-- A tree node that the renaming is inside. -/
structure Renaming.Frame where
  node : TreeNode
  /-- The number of its children gone to. -/
  next : Nat
  /-- What holds at the end of its block. -/
  holding : Access

namespace Graph

/-- Link `a` to the definition that holds, and answer what holds after it. Links that exist are kept
in the first pass. -/
def renameAccess (pass : Pass) (state : Graph × Access) (a : Access) :
    Except Fault (Graph × Access) := do
  let (g, holding) := state
  let n ← g.node a
  if n.isPhi then return (g, a)
  let g ← if pass = .again ∨ n.defining?.isNone then g.setDefining a holding else pure g
  return (g, if n.isUse then holding else a)

/-- Link the accesses of `block`, and answer what holds at its end. -/
def renameBlock (g : Graph) (pass : Pass) (block : Block) (holding : Access) :
    Except Fault (Graph × Access) :=
  (g.accesses block).foldlM (renameAccess pass) (g, holding)

/-- Let what holds at the end of `block` flow into the phi of `succ`. -/
def renameEdge (pass : Pass) (block : Block) (holding : Access) (g : Graph) (succ : Block) :
    Except Fault Graph :=
  match g.phi? succ with
  | none => return g
  | some phi =>
      match pass with
      | .first => g.addIncoming phi block holding
      | .again => do
          let (replaced, g) ← g.setIncomingFrom phi block holding
          if replaced then return g else throw (.incompletePhi phi)

end Graph

namespace Renaming

/-- Rename one block, and answer what holds at its end. A block visited before is only passed
through. -/
def enter (r : Renaming) (pass : Pass) (block : Block) (holding : Access) :
    Except Fault (Renaming × Access) := do
  let (g, holding) ←
    if pass = .again ∧ r.visited.contains block then
      pure (r.graph, (r.graph.definitions block).getLast?.getD holding)
    else r.graph.renameBlock pass block holding
  let g ← (g.flow.succs block).foldlM (Graph.renameEdge pass block holding) g
  return (⟨g, r.visited.insert block⟩, holding)

/-- Rename the blocks below the nodes on a stack, the last one gone to on top. The fuel bounds the
number of steps. -/
def descend (pass : Pass) (t : Tree) : Nat → List Frame → Renaming → Except Fault Renaming
  | 0, _, r => return r
  | _ + 1, [], r => return r
  | fuel + 1, top :: stack, r =>
      match (t.childrenOf top.node)[top.next]? with
      | none => descend pass t fuel stack r
      | some child =>
          let stack := { top with next := top.next + 1 } :: stack
          match t.blockOf? child with
          | none => descend pass t fuel stack r
          | some block => do
              let (r, holding) ← r.enter pass block top.holding
              descend pass t fuel (⟨child, 0, holding⟩ :: stack) r

/-- Rename `root` and what it dominates. Nothing is done if it cannot be reached, or in a later pass
if it was visited before. -/
def run (r : Renaming) (pass : Pass) (root : Block) (holding : Access) : Except Fault Renaming := do
  match r.graph.tree.nodeId? root with
  | none => return r
  | some id =>
      if pass = .again ∧ r.visited.contains root then return r
      let (r, holding) ← r.enter pass root holding
      descend pass r.graph.tree (2 * r.graph.tree.size) [⟨id, 0, holding⟩] r

end Renaming

/-- Rename part of a graph, from `root` down, at the start of which `holding` holds. -/
def Graph.renameFrom (g : Graph) (root : Block) (holding : Access) (visited : Std.TreeSet Block) :
    Except Fault Renaming :=
  Renaming.run ⟨g, visited⟩ .again root holding

end MemoryFlow
