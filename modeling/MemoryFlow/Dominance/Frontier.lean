import MemoryFlow.Dominance.Tree

/-! # Iterated dominance frontiers

The frontier of a set of blocks is where their dominance ends: the targets of edges that leave what
they dominate. Iterating adds the frontier of the frontier, and so on. Here a defining block is
never an answer, and the answers can be limited to blocks in which a value is live.

The search takes nodes from the bottom of the tree upwards and walks the part of their subtree that
no earlier walk has covered.
-/

namespace MemoryFlow

structure FrontierSearch where
  /-- Nodes whose subtree is still to be walked. -/
  queue : List TreeNode
  /-- Nodes that have been put in the queue, or passed over for not being live. -/
  seen : List TreeNode
  /-- Nodes that have been walked. -/
  walked : List TreeNode := []
  /-- The answers, in the order they were found. -/
  found : List Block := []
  deriving DecidableEq, Repr

namespace FrontierSearch

/-- The lowest node of the queue; of several the one with the greatest number. -/
def lowest? (t : Tree) (queue : List TreeNode) : Option TreeNode :=
  queue.foldl
    (fun best id =>
      match best with
      | none => some id
      | some b =>
          if t.levelOf b < t.levelOf id ∨
            (t.levelOf b = t.levelOf id ∧ b.index < id.index) then some id
          else some b)
    none

/-- Look at the edge from node `source` to `target`, on a walk below a root at this level. An edge
of the tree, or one to a lower node, does not leave what the root dominates. -/
def edge (t : Tree) (live : Option (List Block)) (level : Nat) (source : TreeNode)
    (s : FrontierSearch) (target : Block) : FrontierSearch :=
  match t.nodeId? target with
  | none => s
  | some id =>
      if t.idomOf? id = some source ∨ level < t.levelOf id ∨ s.seen.contains id then s
      else
        let s := { s with seen := id :: s.seen }
        if live.any (!·.contains target) then s
        else { s with found := s.found ++ [target], queue := id :: s.queue }

/-- Walk the subtree of a node, leaving out what has been walked already. The fuel bounds the depth
of the tree. -/
def walk (g : FlowGraph) (t : Tree) (live : Option (List Block)) (level : Nat) :
    Nat → FrontierSearch → TreeNode → FrontierSearch
  | 0, s, _ => s
  | fuel + 1, s, id =>
      if s.walked.contains id then s
      else
        let targets := ((t.blockOf? id).map (g.next t.direction)).getD []
        let s := targets.foldl (edge t live level id) { s with walked := id :: s.walked }
        (t.childrenOf id).reverse.foldl (walk g t live level fuel) s

/-- Walk below the nodes of the queue until it is empty. The fuel bounds the number of nodes. -/
def run (g : FlowGraph) (t : Tree) (live : Option (List Block)) :
    Nat → FrontierSearch → FrontierSearch
  | 0, s => s
  | fuel + 1, s =>
      match lowest? t s.queue with
      | none => s
      | some id =>
          run g t live fuel
            (walk g t live (t.levelOf id) t.size { s with queue := s.queue.erase id } id)

end FrontierSearch

/-- The iterated frontier of the defining blocks, without those blocks. If live blocks are given,
only they are answers. -/
def Tree.frontier (t : Tree) (g : FlowGraph) (defining : List Block) (live : Option (List Block)) :
    List Block :=
  let start := (defining.filterMap t.nodeId?).eraseDups
  (FrontierSearch.run g t live t.size { queue := start, seen := start }).found

end MemoryFlow
