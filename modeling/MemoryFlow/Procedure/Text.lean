import MemoryFlow.Procedure

/-! # The text of a procedure

One line for the signature, one for each block and each instruction, in program order. Lines of
notes can be put in after the name of a block and before an instruction.
-/

namespace MemoryFlow

/-- Text to put between the lines of a procedure. -/
structure Notes where
  /-- What follows the name of a block. -/
  atBlock : Block → Except Fault String
  /-- What precedes an instruction. -/
  atInst : Inst → Except Fault String

def Notes.blank : Notes where
  atBlock _ := pure ""
  atInst _ := pure ""

/-- The suffixes of a load or store: each qualifier that is set, then the ordering if there is
one. -/
def Qualifiers.text (q : Qualifiers) : String :=
  (if q.isVolatile then ".volatile" else "") ++
    (if q.isInvariant then ".invariant" else "") ++
    (if q.order = .notAtomic then "" else "." ++ q.order.name)

namespace Procedure

def valuesText (values : List Value) : String :=
  ", ".intercalate (values.map toString)

/-- The text of an operation. Callees and globals are written by name and so must be declared. -/
def opText (p : Procedure) : Op → Except Fault String
  | .load ptr size quals => pure ("load" ++ quals.text ++ s!" {ptr}, {size}")
  | .store ptr value size quals => pure ("store" ++ quals.text ++ s!" {ptr}, {value}, {size}")
  | .call callee args => do
      let info ← p.callee callee
      return "call @" ++ info.name ++ "(" ++ valuesText args ++ ")"
  | .fence order => pure ("fence " ++ order.name)
  | .intrinsic id args => pure (id.name ++ "(" ++ valuesText args ++ ")")
  | .alloca size => pure s!"alloca {size}"
  | .globalAddr global => do
      let info ← p.global global
      return "global_addr @" ++ info.name
  | .ptrOffset base offset => pure s!"ptr_offset {base}, {offset}"
  | .iconst imm => pure s!"iconst {imm}"
  | .binary op lhs rhs => pure (op.name ++ s!" {lhs}, {rhs}")
  | .jump dest => pure ("jump " ++ p.blockName dest)
  | .branch cond thenDest elseDest =>
      pure (s!"br {cond}, " ++ p.blockName thenDest ++ ", " ++ p.blockName elseDest)
  | .ret (some value) => pure s!"ret {value}"
  | .ret none => pure "ret"
  | .unreachable => pure "unreachable"

/-- The line of an instruction, after its notes. -/
def instText (p : Procedure) (notes : Notes) (inst : Inst) : Except Fault String := do
  let note ← notes.atInst inst
  let text ← p.opText (← p.op inst)
  let result := match p.result? inst with
    | some value => s!"{value} = "
    | none => ""
  return note ++ "    " ++ result ++ text ++ "\n"

def rowText (p : Procedure) (notes : Notes) (row : Layout.Row) : Except Fault String := do
  let note ← notes.atBlock row.block
  let lines ← row.insts.mapM (p.instText notes)
  return p.blockName row.block ++ ":\n" ++ note ++ String.join lines

/-- The text of the procedure with notes between its lines. -/
def textWith (p : Procedure) (notes : Notes) : Except Fault String := do
  let rows ← p.layout.rows.mapM (p.rowText notes)
  return "function " ++ p.name ++ "(" ++ valuesText p.params ++ ") \x7b\n" ++
    String.join rows ++ "\x7d\n"

def text (p : Procedure) : Except Fault String :=
  p.textWith .blank

end Procedure

end MemoryFlow
