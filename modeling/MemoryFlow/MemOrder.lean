/-! # Memory orderings

The strength of the ordering constraint on a load, a store or a fence. Strength is a partial order:
neither of acquire and release is at least as strong as the other.
-/

namespace MemoryFlow

/-- The ordering constraint of a memory operation. -/
inductive MemOrder where
  | notAtomic
  | unordered
  | monotonic
  | acquire
  | release
  | acquireRelease
  | sequential
  deriving DecidableEq, Repr

namespace MemOrder

def name : MemOrder → String
  | .notAtomic => "not_atomic"
  | .unordered => "unordered"
  | .monotonic => "monotonic"
  | .acquire => "acquire"
  | .release => "release"
  | .acquireRelease => "acq_rel"
  | .sequential => "seq_cst"

/-- How far an ordering is from no constraint at all; acquire and release are equally far. -/
def rank : MemOrder → Nat
  | .notAtomic => 0
  | .unordered => 1
  | .monotonic => 2
  | .acquire | .release => 3
  | .acquireRelease => 4
  | .sequential => 5

/-- Whether `a` promises all that `b` does. -/
def atLeast (a b : MemOrder) : Bool :=
  a == b || b.rank < a.rank

/-- Whether `a` promises all that `b` does and something more. -/
def stronger (a b : MemOrder) : Bool :=
  a != b && a.atLeast b

end MemOrder

end MemoryFlow
