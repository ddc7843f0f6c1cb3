import MemoryFlow.Procedure

/-! # Defects of a procedure

A procedure is fit for analysis when it has blocks, each block ends in its only terminator, and
instructions name only values and blocks that exist. `Procedure.defect?` names the first thing that
is wrong, in program order.
-/

namespace MemoryFlow

/-- What can be wrong with a procedure. -/
inductive Defect where
  /-- The procedure of this name has no blocks. -/
  | noBlocks (name : String)
  /-- A block does not end in a terminator. -/
  | missingTerminator (block : Block)
  /-- An instruction follows the terminator of its block. -/
  | afterTerminator (block : Block) (inst : Inst)
  /-- A terminator names a block that is not placed. -/
  | unknownBlock (inst : Inst) (dest : Block)
  /-- An instruction uses a value that does not exist. -/
  | unknownValue (inst : Inst) (value : Value)
  /-- A terminator leads back to the entry. -/
  | entryHasPredecessors (entry : Block)
  deriving DecidableEq, Repr

def Defect.message : Defect → String
  | .noBlocks name => s!"function '{name}' has no blocks"
  | .missingTerminator block => s!"{block} does not end with a terminator"
  | .afterTerminator block inst => s!"{inst} follows the terminator of {block}"
  | .unknownBlock inst dest => s!"{inst} branches to {dest}, which is not in the layout"
  | .unknownValue inst value => s!"{inst} uses {value}, which is not defined in this function"
  | .entryHasPredecessors entry => s!"the entry block {entry} must not have predecessors"

namespace Procedure

/-- Whether `inst` is an instruction of the procedure that ends a block. -/
def isTerminator (p : Procedure) (inst : Inst) : Bool :=
  (p.op? inst).any (·.isTerminator)

/-- The instruction after the first terminator that is not last. -/
def afterTerminator? (p : Procedure) : List Inst → Option Inst
  | inst :: next :: rest =>
      if p.isTerminator inst then some next else p.afterTerminator? (next :: rest)
  | _ => none

/-- What is wrong with `inst` leading to `dest`. -/
def destDefect? (p : Procedure) (entry : Block) (inst : Inst) (dest : Block) : Option Defect :=
  if !p.hasBlock dest || !p.layout.isPlaced dest then some (.unknownBlock inst dest)
  else if dest = entry then some (.entryHasPredecessors entry)
  else none

/-- What is wrong with the operands of `inst`: values are looked at before blocks. -/
def instDefect? (p : Procedure) (entry : Block) (inst : Inst) : Option Defect :=
  (p.op? inst).bind fun op =>
    ((op.arguments.find? (!p.hasValue ·)).map (.unknownValue inst)).or
      (op.successors.findSome? (p.destDefect? entry inst))

/-- What is wrong with a block: its terminator is looked at before its instructions. -/
def rowDefect? (p : Procedure) (entry : Block) (row : Layout.Row) : Option Defect :=
  match p.afterTerminator? row.insts with
  | some inst => some (.afterTerminator row.block inst)
  | none =>
      if row.insts.getLast?.any p.isTerminator then row.insts.findSome? (p.instDefect? entry)
      else some (.missingTerminator row.block)

/-- The first thing wrong with the procedure, in program order. -/
def defect? (p : Procedure) : Option Defect :=
  match p.entry with
  | none => some (.noBlocks p.name)
  | some entry => p.layout.rows.findSome? (p.rowDefect? entry)

end Procedure

end MemoryFlow
