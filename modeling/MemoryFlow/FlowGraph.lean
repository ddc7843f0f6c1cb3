import MemoryFlow.Procedure

/-! # Control flow

The flow graph of a procedure has its placed blocks as nodes, in program order, and an edge to each
block that the last instruction of a block names. An edge is never doubled. The target of an edge
need not be placed; such a block has no edges of its own.
-/

namespace MemoryFlow

/-- A way to go along the edges of a flow graph. -/
inductive Direction where
  /-- From a block to its successors. -/
  | forward
  /-- From a block to its predecessors. -/
  | backward
  deriving DecidableEq, Repr

structure FlowGraph.Row where
  block : Block
  succs : List Block
  deriving DecidableEq, Repr

/-- The blocks of a procedure and the edges between them. -/
structure FlowGraph where
  rows : List FlowGraph.Row
  deriving DecidableEq, Repr

namespace FlowGraph

def ofProcedure (p : Procedure) : FlowGraph :=
  ⟨p.layout.rows.map fun row =>
    ⟨row.block, ((row.insts.getLast?.bind p.op?).map (·.successors)).getD []⟩⟩

/-- The placed blocks, in program order. -/
def blocks (g : FlowGraph) : List Block :=
  g.rows.map (·.block)

def entry (g : FlowGraph) : Option Block :=
  g.blocks.head?

/-- The blocks that `block` leads to. -/
def succs (g : FlowGraph) (block : Block) : List Block :=
  ((g.rows.find? (·.block == block)).map (·.succs)).getD []

/-- The blocks that lead to `block`, in program order. -/
def preds (g : FlowGraph) (block : Block) : List Block :=
  (g.rows.filter (·.succs.contains block)).map (·.block)

/-- The blocks one step away from `block`. -/
def next (g : FlowGraph) : Direction → Block → List Block
  | .forward => g.succs
  | .backward => g.preds

/-- The placed blocks that lead nowhere, in program order. -/
def exits (g : FlowGraph) : List Block :=
  (g.rows.filter (·.succs.isEmpty)).map (·.block)

/-- Go on with a walk that has seen some blocks and is done with others. On the stack are the blocks
it is inside, the last one come to on top, each with the number of its successors looked at. The
fuel bounds the number of steps. -/
def finishOn (g : FlowGraph) : Nat → List (Block × Nat) → List Block × List Block → List Block
  | 0, _, (_, done) => done
  | _ + 1, [], (_, done) => done
  | fuel + 1, (block, next) :: stack, (seen, done) =>
      match (g.succs block)[next]? with
      | some succ =>
          if seen.contains succ then g.finishOn fuel ((block, next + 1) :: stack) (seen, done)
          else g.finishOn fuel ((succ, 0) :: (block, next + 1) :: stack) (succ :: seen, done)
      | none => g.finishOn fuel stack (seen, done ++ [block])

/-- The blocks reachable from the entry, each after the blocks first reached through it. -/
def postorder (g : FlowGraph) : List Block :=
  match g.entry with
  | none => []
  | some entry =>
      let steps := g.blocks.length + 2 * (g.blocks.flatMap g.succs).length
      g.finishOn steps [(entry, 0)] ([entry], [])

/-- The blocks reachable from the entry, each before the blocks first reached through it. -/
def reversePostorder (g : FlowGraph) : List Block :=
  g.postorder.reverse

end FlowGraph

end MemoryFlow
