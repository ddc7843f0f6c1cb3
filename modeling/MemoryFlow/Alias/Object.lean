import MemoryFlow.Alias.Oracle

/-! # Objects behind pointers

A pointer is traced back, over fixed offsets, to the object it was made from. Pointers into one
object are told apart by their offsets; different local slots and globals never overlap, and a
parameter never points to a local slot.
-/

namespace MemoryFlow

/-- What a pointer was made from. -/
inductive MemoryObject where
  /-- The slot reserved by an instruction. -/
  | slot (inst : Inst)
  /-- A global variable. -/
  | global (global : Global)
  /-- Something handed in by the caller. -/
  | parameter
  /-- Something not known. -/
  | unknown
  deriving DecidableEq, Repr

/-- Whether the object is one allocation of its own. -/
def MemoryObject.isIdentified : MemoryObject → Bool
  | .slot _ | .global _ => true
  | .parameter | .unknown => false

/-- A pointer as a base and an offset in bytes; the offset is lost when a sum leaves 64 bits. -/
structure Derivation where
  base : Value
  offset : Option Int
  deriving DecidableEq, Repr

/-- The sum of two offsets, if it fits in 64 bits. -/
def addOffset (a b : Int) : Option Int :=
  if -9223372036854775808 ≤ a + b ∧ a + b ≤ 9223372036854775807 then some (a + b) else none

namespace Procedure

/-- Trace `value` back over fixed offsets, onto an offset gathered so far. The fuel bounds the
number of steps. -/
def traceBack (p : Procedure) : Nat → Value → Option Int → Except Fault Derivation
  | 0, _, _ => throw .diverges
  | fuel + 1, value, offset => do
      match ← p.origin value with
      | .parameter _ => return ⟨value, offset⟩
      | .result inst =>
          match ← p.op inst with
          | .ptrOffset base delta => p.traceBack fuel base (offset.bind (addOffset · delta))
          | _ => return ⟨value, offset⟩

/-- Where a pointer comes from. A chain of offsets that comes back to a value it has passed has no
base. -/
def derivation (p : Procedure) (ptr : Value) : Except Fault Derivation :=
  p.traceBack (p.values.size + 1) ptr (some 0)

def objectOf (p : Procedure) (base : Value) : Except Fault MemoryObject := do
  match ← p.origin base with
  | .parameter _ => return .parameter
  | .result inst =>
      match ← p.op inst with
      | .alloca _ => return .slot inst
      | .globalAddr global => return .global global
      | _ => return .unknown

end Procedure

/-- The overlap of two locations in one object, from their offsets: the lower one must end before
the higher one starts. -/
def overlapInObject (a b : Location) : Option Int → Option Int → Overlap
  | some i, some j =>
      if i = j then .same
      else
        match if i < j then a.size else b.size with
        | none => .possible
        | some size => if size ≤ (i - j).natAbs then .disjoint else .shifted
  | _, _ => .possible

def overlapAcross : MemoryObject → MemoryObject → Overlap
  | .slot _, .parameter | .parameter, .slot _ => .disjoint
  | a, b => if a.isIdentified && b.isIdentified then .disjoint else .possible

def MemoryObject.isSameGlobal : MemoryObject → MemoryObject → Bool
  | .global a, .global b => a == b
  | _, _ => false

def Oracle.byObject : Oracle where
  overlap p a b := do
    if a.ptr = b.ptr then return .same
    let x ← p.derivation a.ptr
    let y ← p.derivation b.ptr
    let objectX ← p.objectOf x.base
    let objectY ← p.objectOf y.base
    if x.base = y.base ∨ objectX.isSameGlobal objectY then
      return overlapInObject a b x.offset y.offset
    else return overlapAcross objectX objectY
  constant p loc orLocal := do
    match ← p.objectOf (← p.derivation loc.ptr).base with
    | .global global => return (← p.global global).isConstant
    | .slot _ => return orLocal
    | .parameter | .unknown => return false

end MemoryFlow
