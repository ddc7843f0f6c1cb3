import MemoryFlow.FlowGraph

/-! # Depth-first spanning trees

A traversal of a flow graph numbers the blocks it reaches in the order it reaches them, remembers
from which vertex each was first reached, and collects the vertices that have an edge to it. A
backward traversal starts at a virtual root that stands before every block from which control
leaves.
-/

namespace MemoryFlow

/-- A numbered block. -/
structure Vertex where
  /-- The block, or nothing for a virtual root. -/
  block : Option Block
  /-- The vertex it was first reached from; the root is its own parent. -/
  parent : Nat
  /-- The vertices with an edge to this one, in the order the edges were taken. -/
  sources : List Nat
  deriving DecidableEq, Repr

/-- The vertices found by a traversal, numbered by their place, and the blocks it started at. -/
structure Spanning where
  vertices : Array Vertex := #[]
  roots : List Block := []
  deriving DecidableEq, Repr

namespace Spanning

/-- The number of `block`, if it has been reached. -/
def number? (s : Spanning) (block : Block) : Option Nat :=
  s.vertices.findIdx? (·.block == some block)

def parent (s : Spanning) (v : Nat) : Nat :=
  (s.vertices[v]?.map (·.parent)).getD 0

def sources (s : Spanning) (v : Nat) : List Nat :=
  (s.vertices[v]?.map (·.sources)).getD []

/-- Note an edge from `source` to a vertex that exists. -/
def addSource (s : Spanning) (v source : Nat) : Spanning :=
  { s with vertices := s.vertices.modify v fun x => { x with sources := x.sources ++ [source] } }

/-- Number a block reached from `source`. -/
def addVertex (s : Spanning) (block : Block) (source : Nat) : Spanning :=
  { s with vertices := s.vertices.push ⟨some block, source, [source]⟩ }

/-- Take the edges of a worklist, each from a vertex to a block. If the block is new, the edges from
it come next. The fuel bounds the number of edges. -/
def explore (next : Block → List Block) : Nat → List (Nat × Block) → Spanning → Spanning
  | 0, _, s => s
  | _ + 1, [], s => s
  | fuel + 1, (source, block) :: work, s =>
      match s.number? block with
      | some v => explore next fuel work (s.addSource v source)
      | none =>
          let onward := (next block).map fun succ => (s.vertices.size, succ)
          explore next fuel (onward ++ work) (s.addVertex block source)

/-- Start at `block` too, below vertex 0. -/
def addRoot (g : FlowGraph) (next : Block → List Block) (s : Spanning) (block : Block) : Spanning :=
  let s := explore next ((g.blocks.flatMap next).length + 1) [(0, block)] s
  { s with roots := s.roots ++ [block] }

def forward (g : FlowGraph) (entry : Block) : Spanning :=
  addRoot g g.succs {} entry

/-- Backward traversal from a virtual root: first from every exit, in program order, then from the
last block not reached yet, for as long as there is one. Of several predecessors the last is taken
first. -/
def backward (g : FlowGraph) : Spanning :=
  let start := addRoot g fun block => (g.preds block).reverse
  let s := g.exits.foldl start { vertices := #[⟨none, 0, []⟩] }
  g.blocks.reverse.foldl (fun s block => if (s.number? block).isSome then s else start s block) s

def ofFlow (g : FlowGraph) (entry : Block) : Direction → Spanning
  | .forward => forward g entry
  | .backward => backward g

end Spanning

end MemoryFlow
