import MemoryFlow.Fault
import MemoryFlow.Table

/-! # Program order

A `Layout` is the order of the blocks of a procedure and of the instructions in each. Blocks and
instructions are placed at most once. Which block an instruction is in, and which blocks are placed,
is recorded beside the lists, so that neither is searched for.
-/

namespace MemoryFlow

/-- A placed block with its instructions, in program order. -/
structure Layout.Row where
  block : Block
  insts : List Inst
  deriving DecidableEq, Repr

/-- The order of blocks and instructions. -/
structure Layout where
  /-- The placed blocks, in program order. -/
  blocks : List Block := []
  /-- The instructions of each block. -/
  lists : Table .block (List Inst) := {}
  /-- The block that each instruction is in. -/
  homes : Table .inst (Option Block) := {}
  /-- Whether each block is placed. -/
  placed : Table .block Bool := {}
  deriving DecidableEq, Repr

namespace Layout

def empty : Layout := {}

def entry (l : Layout) : Option Block :=
  l.blocks.head?

def size (l : Layout) : Nat :=
  l.blocks.length

def isPlaced (l : Layout) (block : Block) : Bool :=
  l.placed.get block

/-- The place of `block` among the blocks, counted from zero. -/
def blockPosition (l : Layout) (block : Block) : Option Nat :=
  l.blocks.idxOf? block

def insts (l : Layout) (block : Block) : List Inst :=
  l.lists.get block

def lastInst (l : Layout) (block : Block) : Option Inst :=
  (l.insts block).getLast?

def blockOf (l : Layout) (inst : Inst) : Option Block :=
  l.homes.get inst

/-- The place of `inst` in its block, counted from zero. -/
def position (l : Layout) (inst : Inst) : Option Nat :=
  (l.blockOf inst).bind fun block => (l.insts block).idxOf? inst

/-- The placed blocks with their instructions, in program order. -/
def rows (l : Layout) : List Row :=
  l.blocks.map fun block => ⟨block, l.insts block⟩

/-- Write the list of a block and the home of an instruction. -/
def rehouse (l : Layout) (block : Block) (insts : List Inst) (inst : Inst) (home : Option Block) :
    Layout :=
  { l with lists := l.lists.set block insts, homes := l.homes.set inst home }

/-- Place `block` after all others. -/
def appendBlock (l : Layout) (block : Block) : Except Fault Layout :=
  if l.isPlaced block then throw (.blockPlaced block)
  else pure { l with blocks := l.blocks ++ [block], placed := l.placed.set block true }

def appendInst (l : Layout) (inst : Inst) (block : Block) : Except Fault Layout :=
  if (l.blockOf inst).isSome then throw (.instPlaced inst)
  else if !l.isPlaced block then throw (.blockNotPlaced block)
  else pure (l.rehouse block (l.insts block ++ [inst]) inst (some block))

/-- Place `inst` directly before `before`, in the same block. -/
def insertBefore (l : Layout) (inst before : Inst) : Except Fault Layout :=
  if (l.blockOf inst).isSome then throw (.instPlaced inst)
  else match l.blockOf before with
    | none => throw .insertionPointNotPlaced
    | some block => match (l.insts block).idxOf? before with
        | none => throw .layoutOutOfSync
        | some i => pure (l.rehouse block ((l.insts block).insertIdx i inst) inst (some block))

def remove (l : Layout) (inst : Inst) : Except Fault Layout :=
  match l.blockOf inst with
  | none => throw .nothingToRemove
  | some block => match (l.insts block).idxOf? inst with
      | none => throw .layoutOutOfSync
      | some i => pure (l.rehouse block ((l.insts block).eraseIdx i) inst none)

def moveBefore (l : Layout) (inst before : Inst) : Except Fault Layout := do
  (← l.remove inst).insertBefore inst before

def moveToEnd (l : Layout) (inst : Inst) (block : Block) : Except Fault Layout := do
  (← l.remove inst).appendInst inst block

end Layout

end MemoryFlow
