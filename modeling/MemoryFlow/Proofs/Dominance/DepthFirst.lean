import MemoryFlow.Dominance.Spanning
import MemoryFlow.Proofs.Dominance.Ancestor
import MemoryFlow.Proofs.Route

/-! # Dominance in a depth-first numbering

The vertices of a traversal are numbered in the order they are reached. What the theory of
dominators needs of such a numbering is gathered in `Spanning.DepthFirst`; how the edges came about
does not matter, so the facts here hold for both directions of traversal.

The main statement is `dominates_iff_parent`: the proper dominators of a vertex are the dominators
of its parent that are not numbered above its semidominator.
-/

namespace MemoryFlow.Spanning

def Edge (s : Spanning) (u v : Nat) : Prop :=
  u ∈ s.sources v

structure DepthFirst (s : Spanning) : Prop where
  parent_zero : s.parent 0 = 0
  parent_lt : ∀ v, 0 < v → s.parent v < v
  parent_edge : ∀ v, 0 < v → v < s.vertices.size → s.Edge (s.parent v) v
  source_lt : ∀ u v, s.Edge u v → u < s.vertices.size
  /-- An edge to a later vertex goes down the tree. -/
  forward : ∀ u v, s.Edge u v → u < v → Ancestor s.parent u v
  /-- The vertices below a vertex are numbered without a gap. -/
  interval : ∀ m y x, x < s.vertices.size → Ancestor s.parent m x → m ≤ y → y ≤ x →
    Ancestor s.parent m y

/-- Whether `w` can be reached from a vertex through vertices numbered above `w` only. -/
inductive Semipath (s : Spanning) (w : Nat) : Nat → Prop where
  | edge {u : Nat} : s.Edge u w → Semipath s w u
  | step {u x : Nat} : s.Edge u x → w < x → Semipath s w x → Semipath s w u

/-- Whether `u` is the least vertex from which `w` can be reached through higher vertices. -/
def IsSemidominator (s : Spanning) (w u : Nat) : Prop :=
  s.Semipath w u ∧ ∀ x, s.Semipath w x → u ≤ x

namespace DepthFirst

variable {s : Spanning} {d m u v w x : Nat}

theorem edge_stays (df : s.DepthFirst) (e : s.Edge u v) (above : Ancestor s.parent m u)
    (order : m ≤ v) : Ancestor s.parent m v := by
  by_cases later : u < v
  · exact above.trans (df.forward u v e later)
  · exact df.interval m v u (df.source_lt u v e) above order (by omega)

theorem semipath_stays (df : s.DepthFirst) (path : s.Semipath w u) (above : Ancestor s.parent m u)
    (order : m ≤ w) : Ancestor s.parent m w := by
  induction path with
  | edge e => exact df.edge_stays e above order
  | step e higher _ ih => exact ih (df.edge_stays e above (by omega))

theorem semipath_ancestor (df : s.DepthFirst) (path : s.Semipath w u) (order : u ≤ w) :
    Ancestor s.parent u w :=
  df.semipath_stays path .self order

theorem Semipath.lower (path : s.Semipath x u) (rest : s.Semipath w x) (higher : w < x) :
    s.Semipath w u := by
  induction path with
  | edge e => exact .step e higher rest
  | step e above _ ih => exact .step e (by omega) ih

/-- A tree path whose vertices are numbered above `w` can be put in front of a path to `w`. -/
theorem semipath_climb (df : s.DepthFirst) (above : Ancestor s.parent x v) (higher : w < x)
    (inside : v < s.vertices.size) (rest : s.Semipath w v) : s.Semipath w x := by
  induction above with
  | self => exact rest
  | @up v positive above ih =>
      have lower := df.parent_lt v positive
      have order := (above.le df.parent_lt)
      refine ih (by omega) (.step (df.parent_edge v positive inside) (by omega) rest)

/-- A vertex is reached through higher vertices directly, or from what reaches a higher vertex so
and then goes down the tree to a vertex with an edge. -/
theorem semipath_iff (df : s.DepthFirst) : s.Semipath w u ↔
    s.Edge u w ∨ ∃ x v, w < x ∧ Ancestor s.parent x v ∧ s.Edge v w ∧ s.Semipath x u := by
  constructor
  · intro path
    induction path with
    | edge e => exact .inl e
    | @step u x e higher _ ih =>
        refine .inr ?_
        rcases ih with direct | ⟨y, v, order, above, last, path⟩
        · exact ⟨x, x, higher, .self, direct, .edge e⟩
        · -- `y` still serves unless the new vertex is numbered below it; then it is above `y`.
          rcases Nat.lt_trichotomy x y with before | rfl | after
          · have up := df.semipath_ancestor path (Nat.le_of_lt before)
            exact ⟨x, v, higher, up.trans above, last, .edge e⟩
          · exact ⟨x, v, higher, above, last, .edge e⟩
          · exact ⟨y, v, order, above, last, .step e after path⟩
  · rintro (direct | ⟨x, v, higher, above, last, path⟩)
    · exact .edge direct
    · have climb := df.semipath_climb above higher (df.source_lt v w last) (.edge last)
      exact Semipath.lower path climb higher

theorem semidominator_le_parent (df : s.DepthFirst) (semi : s.IsSemidominator w u)
    (positive : 0 < w) (inside : w < s.vertices.size) : u ≤ s.parent w :=
  semi.2 _ (.edge (df.parent_edge w positive inside))

theorem avoids_descend (df : s.DepthFirst) (above : Ancestor s.parent x v)
    (inside : v < s.vertices.size) (front : Avoids s.Edge 0 d x)
    (off : ∀ y, Ancestor s.parent y v → x < y → y ≠ d) : Avoids s.Edge 0 d v := by
  induction above with
  | self => exact front
  | @up v positive above ih =>
      have lower := df.parent_lt v positive
      have order := above.le df.parent_lt
      refine .step (ih (by omega) ?_) (df.parent_edge v positive inside) (off v .self (by omega))
      intro y up
      exact off y (.up positive up)

theorem dominator_ancestor (df : s.DepthFirst) (inside : v < s.vertices.size)
    (dom : Dominates s.Edge 0 d v) : Ancestor s.parent d v := by
  by_contra off
  apply Dominates.not_iff_avoids.mpr _ dom
  refine df.avoids_descend (.from_zero df.parent_lt v) inside (.start ?_) ?_
  · rintro rfl
    exact off (.from_zero df.parent_lt v)
  · rintro y up _ rfl
    exact off up

theorem dominator_le (df : s.DepthFirst) (inside : v < s.vertices.size)
    (dom : Dominates s.Edge 0 d v) : d ≤ v :=
  (df.dominator_ancestor inside dom).le df.parent_lt

theorem avoids_semipath (path : s.Semipath w u) (front : Avoids s.Edge 0 d u) (below : d < w) :
    Avoids s.Edge 0 d w := by
  induction path with
  | edge e => exact front.step e (by omega)
  | step e higher _ ih => exact ih (front.step e (by omega))

/-- A way to `w` past `d` comes through a vertex below `w` from which only higher ones follow. -/
theorem avoids_entry (avoids : Avoids s.Edge 0 d x) (path : s.Semipath w x) (positive : 0 < w) :
    ∃ y, y < w ∧ Avoids s.Edge 0 d y ∧ s.Semipath w y := by
  induction avoids with
  | start other => exact ⟨0, positive, .start other, path⟩
  | @step u x front e other ih =>
      rcases Nat.lt_trichotomy x w with before | rfl | after
      · exact ⟨x, before, .step front e other, path⟩
      · exact ih (.edge e)
      · exact ih (.step e after path)

theorem dominates_iff_parent (df : s.DepthFirst) (positive : 0 < w) (inside : w < s.vertices.size)
    (semi : s.IsSemidominator w u) (other : d ≠ w) :
    Dominates s.Edge 0 d w ↔ Dominates s.Edge 0 d (s.parent w) ∧ d ≤ u := by
  have lower := df.parent_lt w positive
  have order := df.semidominator_le_parent semi positive inside
  constructor
  · intro dom
    refine ⟨dom.of_edge (df.parent_edge w positive inside) other, ?_⟩
    by_contra above
    -- the tree leads to the semidominator past `d`, and from there no vertex below `w` is met
    have below := df.dominator_le inside dom
    have front : Avoids s.Edge 0 d u :=
      df.avoids_descend (.from_zero df.parent_lt u) (by omega) (.start (by omega))
        (fun y up _ => by have := up.le df.parent_lt; omega)
    exact Dominates.not_iff_avoids.mpr (avoids_semipath semi.1 front (by omega)) dom
  · rintro ⟨dom, bounded⟩
    by_contra missed
    obtain ⟨last, front, e, away⟩ : ∃ x, Avoids s.Edge 0 d x ∧ s.Edge x w ∧ w ≠ d := by
      cases Dominates.not_iff_avoids.mp missed with
      | start away => omega
      | step front e away => exact ⟨_, front, e, away⟩
    obtain ⟨y, before, reached, path⟩ := avoids_entry front (.edge e) positive
    -- `y` is above the parent and not above `d`, so the tree leads from it to the parent past `d`
    have up := df.semipath_ancestor path (Nat.le_of_lt before)
    have low := semi.2 y path
    have toParent : Avoids s.Edge 0 d (s.parent w) :=
      df.avoids_descend (up.of_ne (by omega)).2 (by omega) reached (fun z _ later => by omega)
    exact Dominates.not_iff_avoids.mpr toParent dom

end DepthFirst

end MemoryFlow.Spanning
