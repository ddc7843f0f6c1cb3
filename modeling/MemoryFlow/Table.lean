import MemoryFlow.Entity

/-! # Tables of entities

A table gives every entity of a family a value. It holds values up to the last entity that one was
written for; every other entity has the default.
-/

namespace MemoryFlow

/-- The values of the first entities of a family. -/
structure Table (kind : Kind) (α : Type) where
  entries : List α := []
  deriving DecidableEq, Repr

namespace Table

variable {kind : Kind} {α : Type} [Inhabited α]

def get (t : Table kind α) (e : Entity kind) : α :=
  t.entries[e.index]?.getD default

/-- Write at a place of a list, which grows by defaults as far as it needs to. -/
def write : List α → Nat → α → List α
  | [], 0, a => [a]
  | [], i + 1, a => default :: write [] i a
  | _ :: l, 0, a => a :: l
  | x :: l, i + 1, a => x :: write l i a

def set (t : Table kind α) (e : Entity kind) (a : α) : Table kind α :=
  ⟨write t.entries e.index a⟩

theorem getElem?_write (l : List α) (i j : Nat) (a : α) :
    (write l i a)[j]?.getD default = if j = i then a else l[j]?.getD default := by
  fun_induction write l i a generalizing j with
  | case1 a => cases j <;> simp
  | case2 i a ih => cases j <;> simp [ih]
  | case3 x l a => cases j <;> simp
  | case4 x l i a ih => cases j <;> simp [ih]

@[simp] theorem get_set (t : Table kind α) (e e' : Entity kind) (a : α) :
    (t.set e a).get e' = if e' = e then a else t.get e' := by
  simp only [get, set, getElem?_write, Entity.ext_iff]

@[simp] theorem get_empty (e : Entity kind) : (⟨[]⟩ : Table kind α).get e = default :=
  rfl

end Table

end MemoryFlow
