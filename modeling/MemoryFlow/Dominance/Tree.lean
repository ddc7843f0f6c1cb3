import MemoryFlow.Dominance.Semidominator

/-! # Dominator trees

A block dominates another when every way from the entry to the other leads through it. The tree of
immediate dominators answers this by comparing intervals: a node dominates the nodes whose interval
lies in its own. Post-dominance is the same for ways to an exit; its tree has a virtual root.

A block that is not in the tree is dominated by every block, and dominates none of the tree.
-/

namespace MemoryFlow

structure Tree.Node where
  /-- The block, or nothing for the virtual root. -/
  block : Option Block
  /-- The immediate dominator; the root has none. -/
  idom : Option TreeNode
  /-- The nodes immediately dominated, in numbering order. -/
  children : List TreeNode
  /-- The distance from the root. -/
  level : Nat
  /-- The moment a walk around the tree comes to this node. -/
  first : Nat
  /-- The moment a walk around the tree leaves this node. -/
  last : Nat
  deriving DecidableEq, Repr

/-- A dominator or post-dominator tree. Node 0 is the root. -/
structure Tree where
  direction : Direction
  /-- The blocks from which dominance is traced. -/
  roots : List Block
  nodes : Array Tree.Node
  deriving DecidableEq, Repr

/-- Why a procedure has no dominator tree. -/
inductive Tree.Error where
  /-- There are no blocks. -/
  | noBlocks
  deriving DecidableEq, Repr

def Tree.Error.message : Tree.Error → String
  | .noBlocks => "unable to create dominance tree for a function without blocks"

/-- Whether `n` is `m` or below it. -/
def Tree.Node.isWithin (n m : Tree.Node) : Bool :=
  m.first ≤ n.first && n.last ≤ m.last

def Tree.Node.isLeaf (n : Tree.Node) : Bool :=
  n.children.isEmpty

namespace Tree

/-- The distance of every vertex from the root, from the immediate dominators. -/
def levels (idoms : Array Nat) : Array Nat :=
  (List.range idoms.size).foldl
    (fun levels v => levels.push (if v = 0 then 0 else levels.getD (idoms.getD v 0) 0 + 1)) #[]

/-- The vertices immediately dominated by each vertex, in numbering order. -/
def childLists (idoms : Array Nat) : Array (List Nat) :=
  (Array.range idoms.size).map fun v =>
    (List.range idoms.size).filter fun w => w != 0 && idoms.getD w 0 == v

/-- A walk around a tree: the time of day, and when each vertex was come to and left. -/
structure Walk where
  time : Nat
  spans : Array (Nat × Nat)
  deriving DecidableEq, Repr

def Walk.enter (w : Walk) (v : Nat) : Walk where
  time := w.time + 1
  spans := w.spans.setIfInBounds v (w.time, (w.spans.getD v (0, 0)).2)

def Walk.leave (w : Walk) (v : Nat) : Walk where
  time := w.time + 1
  spans := w.spans.setIfInBounds v ((w.spans.getD v (0, 0)).1, w.time)

/-- Go on with a walk. On the stack are the vertices that have not been left, the last one come to
on top, each with the number of its children gone to. The fuel bounds the number of steps. -/
def walkOn (children : Array (List Nat)) : Nat → List (Nat × Nat) → Walk → Walk
  | 0, _, w => w
  | _ + 1, [], w => w
  | fuel + 1, (v, next) :: stack, w =>
      match (children.getD v [])[next]? with
      | some c => walkOn children fuel ((c, 0) :: (v, next + 1) :: stack) (w.enter c)
      | none => walkOn children fuel stack (w.leave v)

/-- When each vertex is come to and left on a walk from the root. -/
def spans (children : Array (List Nat)) : Array (Nat × Nat) :=
  let start : Walk := ⟨0, Array.replicate children.size (0, 0)⟩
  (walkOn children (2 * children.size) [(0, 0)] (start.enter 0)).spans

def ofSpanning (direction : Direction) (s : Spanning) : Tree :=
  let idoms := s.idoms
  let levels := levels idoms
  let children := childLists idoms
  let spans := spans children
  { direction
    roots := s.roots
    nodes := s.vertices.mapIdx fun v vertex =>
      let (first, last) := spans.getD v (0, 0)
      { block := vertex.block
        idom := if v = 0 then none else some ⟨idoms.getD v 0⟩
        children := (children.getD v []).map Entity.mk
        level := levels.getD v 0
        first
        last } }

/-- The dominator tree, or for the backward direction the post-dominator tree, of a flow graph. -/
def ofFlow (g : FlowGraph) (direction : Direction) : Except Error Tree :=
  match g.entry with
  | none => .error .noBlocks
  | some entry => .ok (ofSpanning direction (Spanning.ofFlow g entry direction))

def root : TreeNode := ⟨0⟩

def size (t : Tree) : Nat :=
  t.nodes.size

def node? (t : Tree) (id : TreeNode) : Option Node :=
  t.nodes[id.index]?

def node (t : Tree) (id : TreeNode) : Except Fault Node :=
  match t.node? id with
  | some n => pure n
  | none => throw .outOfBounds

/-- The node of `block`, if the block is in the tree. -/
def nodeId? (t : Tree) (block : Block) : Option TreeNode :=
  (t.nodes.findIdx? (·.block == some block)).map Entity.mk

/-- The contents of the node of `block`. -/
def find? (t : Tree) (block : Block) : Option Node :=
  (t.nodeId? block).bind t.node?

def contains (t : Tree) (block : Block) : Bool :=
  (t.nodeId? block).isSome

/-- The block of a node, unless the node is virtual. -/
def blockOf? (t : Tree) (id : TreeNode) : Option Block :=
  (t.node? id).bind (·.block)

def idomOf? (t : Tree) (id : TreeNode) : Option TreeNode :=
  (t.node? id).bind (·.idom)

def idom? (t : Tree) (block : Block) : Option Block :=
  ((t.find? block).bind (·.idom)).bind t.blockOf?

def level? (t : Tree) (block : Block) : Option Nat :=
  (t.find? block).map (·.level)

/-- The distance of a node from the root. -/
def levelOf (t : Tree) (id : TreeNode) : Nat :=
  ((t.node? id).map (·.level)).getD 0

def childrenOf (t : Tree) (id : TreeNode) : List TreeNode :=
  ((t.node? id).map (·.children)).getD []

def children (t : Tree) (block : Block) : List Block :=
  match t.nodeId? block with
  | none => []
  | some id => (t.childrenOf id).filterMap t.blockOf?

def dominates (t : Tree) (a b : Block) : Bool :=
  a == b ||
    match t.find? b with
    | none => true
    | some b =>
      match t.find? a with
      | none => false
      | some a => a.level < b.level && b.isWithin a

/-- Whether `a` dominates `b` and is another block. -/
def properlyDominates (t : Tree) (a b : Block) : Bool :=
  a != b && t.dominates a b

/-- The nearest node above or at both nodes. The lower of the two climbs until they meet; for that
they change places if need be. The fuel bounds the number of steps. -/
def meet? (t : Tree) : Nat → TreeNode → TreeNode → Option TreeNode
  | 0, _, _ => none
  | fuel + 1, a, b =>
      if a = b then some a
      else
        let (a, b) := if t.levelOf a < t.levelOf b then (b, a) else (a, b)
        (t.idomOf? a).bind fun above => t.meet? fuel above b

/-- The nearest block that dominates both blocks. -/
def commonDominator? (t : Tree) (a b : Block) : Option Block := do
  let a ← t.nodeId? a
  let b ← t.nodeId? b
  let meet ← t.meet? (t.levelOf a + t.levelOf b + 1) a b
  t.blockOf? meet

/-- The nodes taken from a stack, each of which leaves its children in its place. The fuel bounds
their number. -/
def unstack (t : Tree) : Nat → List TreeNode → List TreeNode
  | 0, _ => []
  | _ + 1, [] => []
  | fuel + 1, id :: stack => id :: t.unstack fuel (t.childrenOf id ++ stack)

/-- All nodes, each before what is below it. -/
def preorder (t : Tree) : List TreeNode :=
  t.unstack t.size [root]

/-- The nodes above a node, nearest first. The fuel bounds their number. -/
def above (t : Tree) : Nat → TreeNode → List TreeNode
  | 0, _ => []
  | fuel + 1, id =>
      match t.idomOf? id with
      | none => []
      | some idom => idom :: t.above fuel idom

/-- The blocks that properly dominate `block`, nearest first. -/
def dominators (t : Tree) (block : Block) : List Block :=
  match t.nodeId? block with
  | none => []
  | some id => (t.above t.size id).filterMap t.blockOf?

end Tree

end MemoryFlow
