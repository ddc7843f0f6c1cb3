import MemoryFlow.Proofs.Dominance.Semidominator

/-! # The immediate dominators found are the immediate dominators

The proper dominators of a vertex are the dominators of its parent that are not numbered above its
semidominator. The nearest of them is found by climbing from the parent along the immediate
dominators of lower vertices, which are known by then.
-/

namespace MemoryFlow

/-- The table in which each entry is made from those before it. -/
def tabulate (f : Array Nat → Nat → Nat) (count : Nat) : Array Nat :=
  (List.range count).foldl (fun table v => table.push (f table v)) #[]

theorem tabulate_succ (f : Array Nat → Nat → Nat) (count : Nat) :
    tabulate f (count + 1) = (tabulate f count).push (f (tabulate f count) count) := by
  simp [tabulate, List.range_succ]

@[simp] theorem size_tabulate (f : Array Nat → Nat → Nat) (count : Nat) :
    (tabulate f count).size = count := by
  induction count with
  | zero => rfl
  | succ count ih => rw [tabulate_succ, Array.size_push, ih]

theorem getD_tabulate (f : Array Nat → Nat → Nat) {count v : Nat} (low : v < count) :
    (tabulate f count).getD v 0 = f (tabulate f v) v := by
  induction count with
  | zero => omega
  | succ count ih =>
      rw [tabulate_succ, Array.getD_eq_getD_getElem?, Array.getElem?_push, size_tabulate]
      split
      · rename_i last
        rw [last]
        rfl
      · rw [← Array.getD_eq_getD_getElem?]
        exact ih (by omega)

namespace Spanning

variable {s : Spanning} {v w : Nat}

/-- Whether the immediate dominators of the vertices below `w` are known. -/
def Known (s : Spanning) (idoms : Array Nat) (w : Nat) : Prop :=
  ∀ v, 0 < v → v < w → IsIdom s.Edge 0 (idoms.getD v 0) v

theorem idom_lt (df : s.DepthFirst) (inside : v < s.vertices.size) {i : Nat}
    (idom : IsIdom s.Edge 0 i v) : i < v := by
  have := df.dominator_le inside idom.2.1
  have := idom.1
  omega

/-- Climbing ends at the nearest dominator that is not above the bound. -/
theorem climb_nearest (df : s.DepthFirst) {idoms : Array Nat} (known : s.Known idoms w)
    (bound : Nat) (inside : w ≤ s.vertices.size) : ∀ fuel v, v ≤ fuel → v < w →
      climb idoms bound fuel v ≤ bound ∧ Dominates s.Edge 0 (climb idoms bound fuel v) v ∧
        ∀ d, Dominates s.Edge 0 d v → d ≤ bound →
          Dominates s.Edge 0 d (climb idoms bound fuel v) := by
  intro fuel
  induction fuel with
  | zero =>
      intro v enough _
      obtain rfl : v = 0 := by omega
      exact ⟨Nat.zero_le _, .refl, fun d dom _ => dom⟩
  | succ fuel ih =>
      intro v enough low
      rw [climb]
      split
      · rename_i above
        have idom := known v (by omega) low
        have lower := idom_lt df (by omega) idom
        obtain ⟨bounded, dom, nearest⟩ := ih _ (by omega) (by omega : idoms.getD v 0 < w)
        refine ⟨bounded, dom.trans idom.2.1, ?_⟩
        intro d dominates small
        exact nearest d (idom.2.2 d (by omega) dominates) small
      · rename_i within
        exact ⟨Nat.not_lt.mp within, .refl, fun d dom _ => dom⟩

theorem climb_isIdom (df : s.DepthFirst) {idoms : Array Nat} (known : s.Known idoms w)
    (positive : 0 < w) (inside : w < s.vertices.size) :
    IsIdom s.Edge 0 (climb idoms (s.semidominators.getD w 0) (s.parent w) (s.parent w)) w := by
  have semi := semidominators_spec df positive inside
  have lower := df.parent_lt w positive
  have order := df.semidominator_le_parent semi positive inside
  obtain ⟨bounded, dom, nearest⟩ := climb_nearest df known (s.semidominators.getD w 0)
    (Nat.le_of_lt inside) (s.parent w) (s.parent w) (Nat.le_refl _) lower
  refine ⟨by omega, ?_, ?_⟩
  · exact (df.dominates_iff_parent positive inside semi (by omega)).mpr ⟨dom, bounded⟩
  · intro d other dominates
    obtain ⟨above, small⟩ := (df.dominates_iff_parent positive inside semi other).mp dominates
    exact nearest d above small

/-- The immediate dominator of a vertex, from those of the vertices before it. -/
def nextIdom (s : Spanning) (idoms : Array Nat) (v : Nat) : Nat :=
  climb idoms (s.semidominators.getD v 0) (s.parent v) (s.parent v)

theorem known_tabulate (df : s.DepthFirst) : ∀ count, count ≤ s.vertices.size →
    s.Known (tabulate s.nextIdom count) count := by
  intro count
  induction count using Nat.strongRecOn with
  | _ count ih =>
      intro bounded v positive low
      rw [getD_tabulate s.nextIdom low]
      exact climb_isIdom df (ih v low (by omega)) positive (by omega)

theorem idoms_eq : s.idoms = tabulate s.nextIdom s.vertices.size := rfl

@[simp] theorem size_idoms : s.idoms.size = s.vertices.size :=
  size_tabulate _ _

theorem idoms_isIdom (df : s.DepthFirst) (positive : 0 < v) (inside : v < s.vertices.size) :
    IsIdom s.Edge 0 (s.idoms.getD v 0) v :=
  idoms_eq (s := s) ▸ known_tabulate df _ (Nat.le_refl _) v positive inside

theorem idoms_lt (df : s.DepthFirst) (positive : 0 < v) : s.idoms.getD v 0 < v := by
  by_cases inside : v < s.vertices.size
  · exact idom_lt df inside (idoms_isIdom df positive inside)
  · have outside : s.idoms.getD v 0 = 0 := by
      rw [Array.getD_eq_getD_getElem?, Array.getElem?_eq_none (by simp; omega)]
      rfl
    omega

/-- A vertex dominates another when it is the other or above it in the tree of immediate
dominators. -/
theorem dominates_iff_ancestor (df : s.DepthFirst) (inside : w < s.vertices.size) :
    Dominates s.Edge 0 v w ↔ Ancestor (fun x => s.idoms.getD x 0) v w := by
  induction w using Nat.strongRecOn with
  | _ w ih =>
      by_cases same : v = w
      · subst same
        exact ⟨fun _ => .self, fun _ => .refl⟩
      · rcases Nat.eq_zero_or_pos w with rfl | positive
        · constructor
          · intro dom
            exact absurd (by simpa using dom _ (.here 0)) same
          · intro above
            exact absurd (above.of_ne same).1 (Nat.lt_irrefl 0)
        · have idom := idoms_isIdom df positive inside
          have lower := idom_lt df inside idom
          have up := ih _ lower (by omega)
          constructor
          · intro dom
            exact .up positive (up.mp (idom.2.2 v same dom))
          · intro above
            exact (up.mpr (above.of_ne same).2).trans idom.2.1

end Spanning

end MemoryFlow
