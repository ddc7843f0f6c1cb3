import MemoryFlow.Procedure.Defect

/-! # Drafts

A draft is a procedure under construction. Instructions go to the end of the selected block.
-/

namespace MemoryFlow

/-- A procedure under construction, with the block that instructions are appended to. -/
structure Draft where
  procedure : Procedure
  current : Option Block := none
  deriving DecidableEq, Repr

namespace Draft

def start (name : String) : Draft :=
  { procedure := { name } }

def addParam (d : Draft) : Draft × Value :=
  let (procedure, value) := d.procedure.addParam
  ({ d with procedure }, value)

def declareCallee (d : Draft) (info : CalleeInfo) : Draft × Callee :=
  let (procedure, callee) := d.procedure.declareCallee info
  ({ d with procedure }, callee)

def declareGlobal (d : Draft) (info : GlobalInfo) : Draft × Global :=
  let (procedure, global) := d.procedure.declareGlobal info
  ({ d with procedure }, global)

/-- Create a block, with or without a name, and place it after all others. -/
def addBlock (d : Draft) (name : Option String) : Except Fault (Draft × Block) := do
  let block : Block := ⟨d.procedure.blockNames.size⟩
  let layout ← d.procedure.layout.appendBlock block
  let blockNames := d.procedure.blockNames.push name
  return ({ d with procedure := { d.procedure with blockNames, layout } }, block)

def select (d : Draft) (block : Block) : Draft :=
  { d with current := some block }

def append (d : Draft) (op : Op) : Except Fault (Draft × Inst) :=
  match d.current with
  | none => throw .noBlockSelected
  | some block => do
      let (procedure, inst) := d.procedure.makeInst op
      let layout ← procedure.layout.appendInst inst block
      return ({ d with procedure := { procedure with layout } }, inst)

/-- The finished procedure, unless something is wrong with it. -/
def finish (d : Draft) : Except Defect Procedure :=
  match d.procedure.defect? with
  | none => .ok d.procedure
  | some defect => .error defect

end Draft

end MemoryFlow
