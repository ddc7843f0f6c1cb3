import MemoryFlow.Entity
import MemoryFlow.MemOrder

/-! # Operations

The operation an instruction performs, and what can be said of it without looking at anything else.
-/

namespace MemoryFlow

inductive Intrinsic where
  | assume
  | lifetimeStart
  | lifetimeEnd
  | invariantStart
  | invariantEnd
  deriving DecidableEq, Repr

def Intrinsic.name : Intrinsic → String
  | .assume => "assume"
  | .lifetimeStart => "lifetime.start"
  | .lifetimeEnd => "lifetime.end"
  | .invariantStart => "invariant.start"
  | .invariantEnd => "invariant.end"

inductive BinaryOp where
  | add
  | sub
  | mul
  | eq
  | lt
  deriving DecidableEq, Repr

def BinaryOp.name : BinaryOp → String
  | .add => "add"
  | .sub => "sub"
  | .mul => "mul"
  | .eq => "eq"
  | .lt => "lt"

/-- What restricts the movement of a load or store. -/
structure Qualifiers where
  /-- The access is made exactly as written. -/
  isVolatile : Bool
  /-- The memory loaded never changes while it can be loaded. -/
  isInvariant : Bool
  /-- The ordering constraint. -/
  order : MemOrder
  deriving DecidableEq, Repr

/-- Whether the access may move like a plain one: not volatile, and ordered at most weakly. -/
def Qualifiers.isUnordered (q : Qualifiers) : Bool :=
  !q.isVolatile && !q.order.stronger .unordered

/-- What an instruction does. -/
inductive Op where
  /-- Read `size` bytes at `ptr`. -/
  | load (ptr : Value) (size : Nat) (quals : Qualifiers)
  /-- Write `value`, of `size` bytes, at `ptr`. -/
  | store (ptr value : Value) (size : Nat) (quals : Qualifiers)
  /-- Call a declared procedure. -/
  | call (callee : Callee) (args : List Value)
  /-- Order the memory operations around it. -/
  | fence (order : MemOrder)
  /-- Call an intrinsic procedure. -/
  | intrinsic (id : Intrinsic) (args : List Value)
  /-- Reserve `size` bytes of local memory. -/
  | alloca (size : Nat)
  /-- Take the address of a global. -/
  | globalAddr (global : Global)
  /-- Move a pointer by a fixed number of bytes. -/
  | ptrOffset (base : Value) (offset : Int)
  /-- An integer constant. -/
  | iconst (imm : Int)
  /-- Combine two values. -/
  | binary (op : BinaryOp) (lhs rhs : Value)
  /-- Go on at `dest`. -/
  | jump (dest : Block)
  /-- Go on at one of two blocks. -/
  | branch (cond : Value) (thenDest elseDest : Block)
  /-- Leave the procedure. -/
  | ret (value : Option Value)
  /-- Control never gets here. -/
  | unreachable
  deriving DecidableEq, Repr

namespace Op

def isTerminator : Op → Bool
  | .jump .. | .branch .. | .ret .. | .unreachable => true
  | _ => false

def hasResult : Op → Bool
  | .load .. | .call .. | .alloca .. | .globalAddr .. | .ptrOffset .. | .iconst .. | .binary .. =>
      true
  | _ => false

/-- Whether the operation calls a declared or intrinsic procedure. -/
def isCall : Op → Bool
  | .call .. | .intrinsic .. => true
  | _ => false

def isFence : Op → Bool
  | .fence .. => true
  | _ => false

def isLoad : Op → Bool
  | .load .. => true
  | _ => false

/-- The qualifiers of a load or store. -/
def qualifiers? : Op → Option Qualifiers
  | .load _ _ quals | .store _ _ _ quals => some quals
  | _ => none

/-- Whether the operation is a load or store that may move like a plain one. -/
def isUnorderedAccess (op : Op) : Bool :=
  op.qualifiers?.any (·.isUnordered)

/-- Whether the operation is a load or store that may not move like a plain one. -/
def isOrderedAccess (op : Op) : Bool :=
  op.qualifiers?.any (!·.isUnordered)

/-- The address a load or store accesses. -/
def pointer? : Op → Option Value
  | .load ptr .. | .store ptr .. => some ptr
  | _ => none

def intrinsic? : Op → Option Intrinsic
  | .intrinsic id _ => some id
  | _ => none

/-- The values used, in order. -/
def arguments : Op → List Value
  | .load ptr .. => [ptr]
  | .store ptr value .. => [ptr, value]
  | .call _ args | .intrinsic _ args => args
  | .ptrOffset base _ => [base]
  | .binary _ lhs rhs => [lhs, rhs]
  | .branch cond .. => [cond]
  | .ret value => value.toList
  | .fence .. | .alloca .. | .globalAddr .. | .iconst .. | .jump .. | .unreachable => []

/-- The blocks control may go to next, each named once. -/
def successors : Op → List Block
  | .jump dest => [dest]
  | .branch _ thenDest elseDest => if thenDest = elseDest then [thenDest] else [thenDest, elseDest]
  | _ => []

end Op

end MemoryFlow
