import MemoryFlow.Procedure

/-! # Memory locations

A location is the memory from an address on, over a known or unknown number of bytes.
-/

namespace MemoryFlow

/-- A range of memory. -/
structure Location where
  /-- Where it starts. -/
  ptr : Value
  /-- Its length in bytes. If unknown, it is any memory at or after the start. -/
  size : Option Nat
  deriving DecidableEq, Repr

namespace Location

/-- All that may be reached from a pointer. -/
def behind (ptr : Value) : Location :=
  ⟨ptr, none⟩

/-- The location that a load or store accesses. -/
def ofOp? : Op → Option Location
  | .load ptr size _ | .store ptr _ size _ => some ⟨ptr, some size⟩
  | _ => none

/-- The memory behind an argument of a call. -/
def ofArg? (op : Op) (index : Nat) : Option Location :=
  if op.isCall then op.arguments[index]?.map behind else none

def text (l : Location) : String :=
  toString l.ptr ++ "[" ++ (match l.size with | some size => toString size | none => "?") ++ "]"

end Location

/-- What is known of how two locations lie to each other. -/
inductive Overlap where
  /-- They share no byte. -/
  | disjoint
  /-- Nothing is known. -/
  | possible
  /-- They share bytes and start apart. -/
  | shifted
  /-- They start at one address. -/
  | same
  deriving DecidableEq, Repr

def Overlap.name : Overlap → String
  | .disjoint => "no"
  | .possible => "may"
  | .shifted => "partial"
  | .same => "must"

end MemoryFlow
