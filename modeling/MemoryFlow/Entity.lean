import Std.Data.TreeMap
import Std.Data.TreeSet

/-! # Numbered entities

Blocks, instructions, values and the other parts of a procedure are named by an index. One family of
indices is told from another by its `Kind`, so a block is never taken for an instruction.
-/

namespace MemoryFlow

/-- The families of numbered things. -/
inductive Kind where
  /-- Basic blocks. -/
  | block
  /-- Instructions. -/
  | inst
  /-- Values: parameters and results of instructions. -/
  | value
  /-- Procedures that may be called. -/
  | callee
  /-- Global variables. -/
  | global
  /-- Nodes of a dominator tree. -/
  | treeNode
  /-- Accesses of a memory graph. -/
  | access
  deriving DecidableEq, Repr

/-- The letters written before an index of this family. -/
def Kind.tag : Kind → String
  | .block => "block"
  | .inst => "inst"
  | .value => "v"
  | .callee => "fn"
  | .global => "gv"
  | .treeNode => "domnode"
  | .access => "ma"

/-- A member of one family, named by its index. -/
@[ext]
structure Entity (kind : Kind) where
  index : Nat
  deriving DecidableEq, Repr

namespace Entity

variable {kind : Kind}

instance : ToString (Entity kind) := ⟨fun e => kind.tag ++ toString e.index⟩

instance : Ord (Entity kind) := ⟨fun a b => compare a.index b.index⟩

instance : Std.TransOrd (Entity kind) :=
  inferInstanceAs (Std.TransCmp (compareOn fun e : Entity kind => e.index))

instance : Std.LawfulEqOrd (Entity kind) where
  eq_of_compare {a b} h := by
    cases a
    cases b
    exact congrArg _ (Nat.compare_eq_eq.mp h)

end Entity

abbrev Block := Entity .block
abbrev Inst := Entity .inst
abbrev Value := Entity .value
abbrev Callee := Entity .callee
abbrev Global := Entity .global
abbrev TreeNode := Entity .treeNode
abbrev Access := Entity .access

end MemoryFlow
