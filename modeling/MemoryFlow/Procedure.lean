import MemoryFlow.Effect
import MemoryFlow.Layout
import MemoryFlow.Op

/-! # Procedures

A procedure is a table of instructions, values, blocks and outside names, and the layout that puts
blocks and instructions in order.
-/

namespace MemoryFlow

/-- An instruction and the value it produces, if any. -/
structure Instruction where
  op : Op
  result : Option Value
  deriving DecidableEq, Repr

/-- Where a value comes from. -/
inductive Origin where
  /-- The parameter with this place in the signature. -/
  | parameter (index : Nat)
  /-- The result of an instruction. -/
  | result (inst : Inst)
  deriving DecidableEq, Repr

/-- A procedure that may be called. -/
structure CalleeInfo where
  name : String
  behavior : Behavior
  deriving DecidableEq, Repr

structure GlobalInfo where
  name : String
  size : Nat
  /-- Whether its contents never change. -/
  isConstant : Bool
  deriving DecidableEq, Repr

structure Procedure where
  name : String
  params : List Value := []
  /-- The name of each block, where one was given. -/
  blockNames : Array (Option String) := #[]
  insts : Array Instruction := #[]
  /-- The origin of each value. -/
  values : Array Origin := #[]
  callees : Array CalleeInfo := #[]
  globals : Array GlobalInfo := #[]
  layout : Layout := .empty
  deriving DecidableEq, Repr

namespace Procedure

/-- The first block in program order. -/
def entry (p : Procedure) : Option Block :=
  p.layout.entry

/-- The operation of `inst`, if it is an instruction of the procedure. -/
def op? (p : Procedure) (inst : Inst) : Option Op :=
  p.insts[inst.index]?.map (·.op)

def op (p : Procedure) (inst : Inst) : Except Fault Op :=
  match p.op? inst with
  | some op => pure op
  | none => throw .outOfBounds

def result? (p : Procedure) (inst : Inst) : Option Value :=
  p.insts[inst.index]?.bind (·.result)

def origin (p : Procedure) (value : Value) : Except Fault Origin :=
  match p.values[value.index]? with
  | some origin => pure origin
  | none => throw .outOfBounds

def callee (p : Procedure) (callee : Callee) : Except Fault CalleeInfo :=
  match p.callees[callee.index]? with
  | some info => pure info
  | none => throw .outOfBounds

def global (p : Procedure) (global : Global) : Except Fault GlobalInfo :=
  match p.globals[global.index]? with
  | some info => pure info
  | none => throw .outOfBounds

/-- Whether `block` was created in this procedure, placed or not. -/
def hasBlock (p : Procedure) (block : Block) : Bool :=
  block.index < p.blockNames.size

def hasValue (p : Procedure) (value : Value) : Bool :=
  value.index < p.values.size

/-- The name of `block`, or its number where it has none. -/
def blockName (p : Procedure) (block : Block) : String :=
  (p.blockNames[block.index]?.join).getD (toString block)

def addParam (p : Procedure) : Procedure × Value :=
  let value : Value := ⟨p.values.size⟩
  ({ p with
      params := p.params ++ [value]
      values := p.values.push (.parameter p.params.length) }, value)

def declareCallee (p : Procedure) (info : CalleeInfo) : Procedure × Callee :=
  ({ p with callees := p.callees.push info }, ⟨p.callees.size⟩)

def declareGlobal (p : Procedure) (info : GlobalInfo) : Procedure × Global :=
  ({ p with globals := p.globals.push info }, ⟨p.globals.size⟩)

/-- Create an instruction, and its value if it has one. It is not placed yet. -/
def makeInst (p : Procedure) (op : Op) : Procedure × Inst :=
  let inst : Inst := ⟨p.insts.size⟩
  if op.hasResult then
    ({ p with
        insts := p.insts.push ⟨op, some ⟨p.values.size⟩⟩
        values := p.values.push (.result inst) }, inst)
  else
    ({ p with insts := p.insts.push ⟨op, none⟩ }, inst)

end Procedure

end MemoryFlow
