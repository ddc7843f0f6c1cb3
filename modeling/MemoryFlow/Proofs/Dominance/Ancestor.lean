import Mathlib.Data.Nat.Basic

/-! # Ancestors in a numbered tree

A tree over the natural numbers with root 0 is given by the parent of every number. The spanning
tree of a traversal and the tree of immediate dominators are both of this kind, with parents
numbered before their children.
-/

namespace MemoryFlow

theorem getD_setIfInBounds {α : Type} {table : Array α} {v w : Nat} (inside : v < table.size)
    (value default : α) :
    (table.setIfInBounds v value).getD w default =
      if w = v then value else table.getD w default := by
  simp only [Array.getD_eq_getD_getElem?, Array.getElem?_setIfInBounds]
  by_cases same : v = w
  · subst same
    simp [inside]
  · simp [same, Ne.symm same]

/-- Whether `u` is `v` or lies on the way from `v` to the root. -/
inductive Ancestor (parent : Nat → Nat) (u : Nat) : Nat → Prop where
  | self : Ancestor parent u u
  | up {v : Nat} : 0 < v → Ancestor parent u (parent v) → Ancestor parent u v

namespace Ancestor

variable {parent parent' : Nat → Nat} {u v w : Nat}

theorem trans (uv : Ancestor parent u v) (vw : Ancestor parent v w) : Ancestor parent u w := by
  induction vw with
  | self => exact uv
  | up positive _ ih => exact .up positive ih

theorem of_parent (positive : 0 < v) : Ancestor parent (parent v) v :=
  .up positive .self

theorem of_ne (a : Ancestor parent u v) (other : u ≠ v) : 0 < v ∧ Ancestor parent u (parent v) := by
  cases a with
  | self => exact absurd rfl other
  | up positive above => exact ⟨positive, above⟩

section Decreasing

variable (decreasing : ∀ v, 0 < v → parent v < v)

include decreasing

theorem le (a : Ancestor parent u v) : u ≤ v := by
  induction a with
  | self => exact Nat.le_refl _
  | up positive _ ih => exact Nat.le_trans ih (Nat.le_of_lt (decreasing _ positive))

theorem antisymm (uv : Ancestor parent u v) (vu : Ancestor parent v u) : u = v :=
  Nat.le_antisymm (uv.le decreasing) (vu.le decreasing)

theorem from_zero (v : Nat) : Ancestor parent 0 v := by
  induction v using Nat.strongRecOn with
  | _ v ih =>
      by_cases positive : 0 < v
      · exact .up positive (ih _ (decreasing v positive))
      · obtain rfl : v = 0 := by omega
        exact .self

/-- Of two ancestors of one number the one with the lower number is above the other. -/
theorem of_le (uw : Ancestor parent u w) (vw : Ancestor parent v w) (order : u ≤ v) :
    Ancestor parent u v := by
  induction vw with
  | self => exact uw
  | @up w positive vp ih =>
      by_cases same : u = w
      · subst same
        have below := vp.le decreasing
        have lower := decreasing u positive
        omega
      · exact ih (uw.of_ne same).2

end Decreasing

theorem congr (decreasing : ∀ v, 0 < v → parent v < v) (a : Ancestor parent u v)
    (agree : ∀ w, w ≤ v → 0 < w → parent' w = parent w) : Ancestor parent' u v := by
  induction a with
  | self => exact .self
  | @up v positive above ih =>
      refine .up positive ?_
      rw [agree v (Nat.le_refl _) positive]
      apply ih
      intro w bounded
      exact agree w (Nat.le_trans bounded (Nat.le_of_lt (decreasing v positive)))

end Ancestor

end MemoryFlow
