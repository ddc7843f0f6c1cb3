import MemoryFlow.Dominance.Semidominator
import MemoryFlow.Proofs.Dominance.DepthFirst

/-! # The semidominators found are the semidominators

While vertices are treated from the last to the first, `Links.Linked` says what the forest of
treated vertices holds: the label of a vertex has the least semidominator on the stretch of the
spanning tree from the vertex up to its ancestor. Shortening paths keeps this, and changes no
semidominator.

The main statement is `Spanning.semidominators_spec`.
-/

namespace MemoryFlow

namespace Links

variable {s : Spanning} {l : Links} {a bound fuel u v w x : Nat}

/-- What the entry of a treated vertex stands for: the stretch of the spanning tree from the vertex
up to its ancestor, which itself is left out. -/
structure Covers (s : Spanning) (bound : Nat) (l : Links) (v : Nat) : Prop where
  ancestor_lt : l.ancestor v < v
  ancestor_above : Ancestor s.parent (l.ancestor v) v
  label_gt : l.ancestor v < l.label v
  label_above : Ancestor s.parent (l.label v) v
  /-- Only treated vertices lie on the stretch. -/
  high : ∀ x, Ancestor s.parent x v → l.ancestor v < x → bound ≤ x
  least : ∀ x, Ancestor s.parent x v → l.ancestor v < x → l.semi (l.label v) ≤ l.semi x

/-- The forest when the vertices from `bound` on are treated. -/
structure Linked (s : Spanning) (bound : Nat) (l : Links) : Prop where
  ancestors_size : l.ancestors.size = s.vertices.size
  labels_size : l.labels.size = s.vertices.size
  semis_size : l.semis.size = s.vertices.size
  untreated : ∀ v, v < bound → v < s.vertices.size → l.ancestor v = s.parent v ∧ l.label v = v
  treated : ∀ v, bound ≤ v → v < s.vertices.size → Covers s bound l v

theorem semi_setSemi (inside : v < l.semis.size) (value : Nat) :
    (l.setSemi v value).semi w = if w = v then value else l.semi w :=
  getD_setIfInBounds inside value 0

/-! ## Paths are shortened from the top

A path is shortened on the way back from its top, one vertex after the other. Each then needs the
label of the vertex above it, which the loop has at hand from the step before.
-/

/-- Put `v` directly below the ancestor of `above`, and let its label take account of the step left
out. -/
def skip (l : Links) (v above : Nat) : Links :=
  { l with
    ancestors := l.ancestors.setIfInBounds v (l.ancestor above)
    labels :=
      if l.semi (l.label above) < l.semi (l.label v) then l.labels.setIfInBounds v (l.label above)
      else l.labels }

/-- Shorten the path above `v`, and then the one from `v`. -/
def compress (bound : Nat) : Nat → Nat → Links → Links
  | 0, _, l => l
  | fuel + 1, v, l =>
      if l.ancestor v < bound then l
      else (compress bound fuel (l.ancestor v) l).skip v (l.ancestor v)

@[simp] theorem semi_skip : (l.skip v a).semi w = l.semi w := rfl

theorem ancestor_skip (inside : v < l.ancestors.size) :
    (l.skip v a).ancestor w = if w = v then l.ancestor a else l.ancestor w :=
  getD_setIfInBounds inside _ 0

theorem label_skip (inside : v < l.labels.size) :
    (l.skip v a).label w =
      if w = v ∧ l.semi (l.label a) < l.semi (l.label v) then l.label a else l.label w := by
  by_cases less : l.semi (l.label a) < l.semi (l.label v)
  · have labels : (l.skip v a).labels = l.labels.setIfInBounds v (l.label a) := if_pos less
    simp only [less, and_true]
    rw [label, labels]
    exact getD_setIfInBounds inside _ 0
  · have labels : (l.skip v a).labels = l.labels := if_neg less
    rw [if_neg (fun both => less both.2), label, labels, label]

theorem labels_size_compress (bound fuel v : Nat) (l : Links) :
    (compress bound fuel v l).labels.size = l.labels.size := by
  induction fuel generalizing v with
  | zero => rfl
  | succ fuel ih =>
      rw [compress]
      split
      · rfl
      · rw [← ih (l.ancestor v), skip]
        split
        · exact Array.size_setIfInBounds ..
        · rfl

/-- One vertex of the loop. What is at hand for the next one is its label. -/
theorem shorten_cons {passed : List Nat} (inside : v < l.labels.size) :
    l.shorten a (l.label a) (v :: passed) =
      (l.skip v a).shorten v ((l.skip v a).label v) passed := by
  have label := label_skip (a := a) (w := v) inside
  by_cases less : l.semi (l.label a) < l.semi (l.label v)
  · rw [label, if_pos ⟨rfl, less⟩, shorten, skip, if_pos less]
    exact if_pos less
  · rw [label, if_neg fun both => less both.2, shorten, skip, if_neg less]
    exact if_neg less

/-- A vertex that is passed has an ancestor, so it is in range. -/
theorem shorten_wayUp (positive : 0 < bound) (sizes : l.ancestors.size ≤ l.labels.size) :
    ∀ fuel v passed, l.shorten (l.wayUp bound fuel v passed).2
        (l.label (l.wayUp bound fuel v passed).2) (l.wayUp bound fuel v passed).1 =
      (compress bound fuel v l).shorten v ((compress bound fuel v l).label v) passed := by
  intro fuel
  induction fuel with
  | zero => exact fun v passed => rfl
  | succ fuel ih =>
      intro v passed
      rw [wayUp, compress]
      split
      · rfl
      · rename_i long
        have inside : v < l.ancestors.size := by
          by_contra outside
          rw [ancestor, Array.getD_eq_getD_getElem?,
            Array.getElem?_eq_none (Nat.le_of_not_lt outside)] at long
          exact long positive
        rw [ih, shorten_cons]
        rw [labels_size_compress]
        omega

/-- The loop shortens the whole path, and answers the label at its start. -/
theorem eval_eq (positive : 0 < bound) (sizes : l.ancestors.size ≤ l.labels.size) :
    l.eval bound v = ((compress bound v v l).label v, compress bound v v l) := by
  have whole := shorten_wayUp positive sizes v v []
  rw [eval]
  split
  · rename_i short
    have nothing : compress bound v v l = l := by
      cases v with
      | zero => rfl
      | succ v => exact if_pos short
    rw [nothing]
  · exact congrArg (fun l : Links => (l.label v, l)) whole

theorem Covers.congr {l' : Links} (c : Covers s bound l v) (ancestor : l'.ancestor v = l.ancestor v)
    (label : l'.label v = l.label v) (semi : ∀ x, bound ≤ x → l'.semi x = l.semi x) :
    Covers s bound l' v := by
  refine ⟨?_, ?_, ?_, ?_, ?_, ?_⟩ <;> simp only [ancestor, label]
  · exact c.ancestor_lt
  · exact c.ancestor_above
  · exact c.label_gt
  · exact c.label_above
  · exact c.high
  · intro x above later
    rw [semi _ (c.high _ c.label_above c.label_gt), semi _ (c.high x above later)]
    exact c.least x above later

theorem Covers.skip (decreasing : ∀ v, 0 < v → s.parent v < v) (lower : Covers s bound l v)
    (upper : Covers s bound l (l.ancestor v)) (insideA : v < l.ancestors.size)
    (insideL : v < l.labels.size) : Covers s bound (l.skip v (l.ancestor v)) v := by
  -- What the joined stretch holds is in the one or in the other.
  have split : ∀ x, Ancestor s.parent x v → l.ancestor (l.ancestor v) < x →
      l.ancestor v < x ∨ (Ancestor s.parent x (l.ancestor v)) := by
    intro x above later
    rcases Nat.lt_or_ge (l.ancestor v) x with beyond | within
    · exact .inl beyond
    · exact .inr (above.of_le decreasing lower.ancestor_above within)
  have anc := ancestor_skip (l := l) (a := l.ancestor v) (w := v) insideA
  have lab := label_skip (l := l) (a := l.ancestor v) (w := v) insideL
  simp only [if_true, true_and] at anc lab
  have upperLt := upper.ancestor_lt
  have lowerLt := lower.ancestor_lt
  refine ⟨?_, ?_, ?_, ?_, ?_, ?_⟩ <;> simp only [anc, lab, semi_skip]
  · omega
  · exact upper.ancestor_above.trans lower.ancestor_above
  · split
    · exact upper.label_gt
    · exact Nat.lt_trans upperLt lower.label_gt
  · split
    · exact upper.label_above.trans lower.ancestor_above
    · exact lower.label_above
  · intro x above later
    rcases split x above later with beyond | within
    · exact lower.high x above beyond
    · exact upper.high x within later
  · intro x above later
    rcases split x above later with beyond | within
    · have least := lower.least x above beyond
      split <;> omega
    · have least := upper.least x within later
      split <;> omega

theorem Linked.skip (decreasing : ∀ v, 0 < v → s.parent v < v) (k : Linked s bound l)
    (inside : v < s.vertices.size) (high : bound ≤ l.ancestor v) (treated : bound ≤ v) :
    Linked s bound (l.skip v (l.ancestor v)) := by
  have insideA : v < l.ancestors.size := k.ancestors_size.symm ▸ inside
  have insideL : v < l.labels.size := k.labels_size.symm ▸ inside
  have lower := k.treated v treated inside
  have upper := k.treated (l.ancestor v) high (Nat.lt_trans lower.ancestor_lt inside)
  refine ⟨?_, ?_, k.semis_size, ?_, ?_⟩
  · simpa [Links.skip] using k.ancestors_size
  · simp only [Links.skip]
    split
    · simpa using k.labels_size
    · exact k.labels_size
  · intro w low bounded
    rw [ancestor_skip insideA, label_skip insideL, if_neg (by omega), if_neg (by omega)]
    exact k.untreated w low bounded
  · intro w up bounded
    by_cases same : w = v
    · subst same
      exact lower.skip decreasing upper insideA insideL
    · refine (k.treated w up bounded).congr ?_ ?_ (fun _ _ => semi_skip)
      · rw [ancestor_skip insideA, if_neg same]
      · rw [label_skip insideL, if_neg (fun both => same both.1)]

/-- What shortening the path from `v` does: later vertices and all semidominators are left alone. -/
structure Compressed (s : Spanning) (bound v : Nat) (l l' : Links) : Prop where
  linked : Linked s bound l'
  short : l'.ancestor v < bound
  later : ∀ w, v < w → l'.ancestor w = l.ancestor w
  semi : ∀ w, l'.semi w = l.semi w
  semis_size : l'.semis.size = l.semis.size

theorem compress_compressed (df : s.DepthFirst) (positive : 0 < bound) :
    ∀ (fuel v : Nat) (l : Links), Linked s bound l → v < s.vertices.size → v ≤ fuel →
      Compressed s bound v l (compress bound fuel v l) := by
  have here : ∀ {v l}, Linked s bound l → l.ancestor v < bound → Compressed s bound v l l :=
    fun k short => ⟨k, short, fun _ _ => rfl, fun _ => rfl, rfl⟩
  -- Only a treated vertex is linked to one that is treated too.
  have rootless : ∀ {v l}, Linked s bound l → v < s.vertices.size → ¬l.ancestor v < bound →
      bound ≤ v := by
    intro v l k inside long
    by_contra low
    have parent := (k.untreated v (by omega) inside).1
    rcases Nat.eq_zero_or_pos v with rfl | root
    · have := df.parent_zero
      omega
    · have := df.parent_lt v root
      omega
  intro fuel
  induction fuel with
  | zero =>
      intro v l k inside enough
      refine here k ?_
      by_contra long
      have := rootless k inside long
      omega
  | succ fuel ih =>
      intro v l k inside enough
      rw [compress]
      split
      · exact here k ‹_›
      · rename_i long
        have treated := rootless k inside long
        have lower := (k.treated v treated inside).ancestor_lt
        have up := ih (l.ancestor v) l k (by omega) (by omega)
        have same : (compress bound fuel (l.ancestor v) l).ancestor v = l.ancestor v :=
          up.later v lower
        have insideA : v < (compress bound fuel (l.ancestor v) l).ancestors.size := by
          rw [up.linked.ancestors_size]
          exact inside
        have linked := up.linked.skip df.parent_lt inside (by omega) treated
        rw [same] at linked
        refine ⟨linked, ?_, ?_, up.semi, up.semis_size⟩
        · rw [ancestor_skip insideA, if_pos rfl]
          exact up.short
        · intro w beyond
          rw [ancestor_skip insideA, if_neg (by omega)]
          exact up.later w (by omega)

/-- A treated vertex evaluates to the one with the least semidominator among itself and its treated
ancestors, any other vertex to itself. -/
theorem eval_least (df : s.DepthFirst) (k : Linked s (v + 1) l) (inside : u < s.vertices.size) :
    Compressed s (v + 1) u l (l.eval (v + 1) u).2 ∧ (u ≤ v → (l.eval (v + 1) u).1 = u) ∧
      (v < u → v < (l.eval (v + 1) u).1 ∧ Ancestor s.parent (l.eval (v + 1) u).1 u ∧
        ∀ x, Ancestor s.parent x u → v < x → l.semi (l.eval (v + 1) u).1 ≤ l.semi x) := by
  have c := compress_compressed df (Nat.succ_pos v) u u l k inside (Nat.le_refl u)
  rw [eval_eq (Nat.succ_pos v) (Nat.le_of_eq (k.ancestors_size.trans k.labels_size.symm))]
  refine ⟨c, ?_, ?_⟩
  · intro low
    exact (c.linked.untreated u (by omega) inside).2
  · intro high
    have covers := c.linked.treated u (by omega) inside
    refine ⟨covers.high _ covers.label_above covers.label_gt, covers.label_above, ?_⟩
    intro x above treated
    have least := covers.least x above (Nat.lt_of_lt_of_le c.short treated)
    rwa [c.semi, c.semi] at least

theorem Linked.setSemi (k : Linked s (v + 1) l) (inside : v < s.vertices.size) (value : Nat) :
    Linked s (v + 1) (l.setSemi v value) := by
  refine ⟨k.ancestors_size, k.labels_size, ?_, k.untreated, ?_⟩
  · simpa [Links.setSemi] using k.semis_size
  · intro w up bounded
    refine (k.treated w up bounded).congr rfl rfl ?_
    intro x high
    rw [semi_setSemi (k.semis_size.symm ▸ inside), if_neg (by omega)]

/-- Linked to its parent, a vertex stands for nothing but itself. So it may count as treated. -/
theorem Linked.link (df : s.DepthFirst) (k : Linked s (v + 1) l) (positive : 0 < v) :
    Linked s v l := by
  have alone : ∀ x, Ancestor s.parent x v → s.parent v < x → x = v := by
    intro x above later
    by_contra other
    have := (above.of_ne other).2.le df.parent_lt
    omega
  refine ⟨k.ancestors_size, k.labels_size, k.semis_size, ?_, ?_⟩
  · intro w low bounded
    exact k.untreated w (by omega) bounded
  · intro w up bounded
    by_cases same : w = v
    · subst same
      obtain ⟨parent, own⟩ := k.untreated w (Nat.lt_succ_self w) bounded
      refine ⟨?_, ?_, ?_, ?_, ?_, ?_⟩ <;> simp only [parent, own]
      · exact df.parent_lt w positive
      · exact .of_parent positive
      · exact df.parent_lt w positive
      · exact .self
      · exact fun x above later => Nat.le_of_eq (alone x above later).symm
      · exact fun x above later => Nat.le_of_eq (by rw [alone x above later])
    · have c := k.treated w (by omega) bounded
      exact { c with high := fun x above later => Nat.le_of_succ_le (c.high x above later) }

/-- Vertex `v` is being treated, and the edges from `done` have been looked at. -/
structure Relaxed (s : Spanning) (v : Nat) (done : List Nat) (l : Links) : Prop where
  linked : Linked s (v + 1) l
  lower : ∀ w, w < v → w < s.vertices.size → l.semi w = w
  upper : ∀ w, v < w → w < s.vertices.size → s.IsSemidominator w (l.semi w)
  path : s.Semipath v (l.semi v)
  le_parent : l.semi v ≤ s.parent v
  le_source : ∀ u ∈ done, u < v → l.semi v ≤ u
  le_semi : ∀ u ∈ done, ∀ x, v < x → Ancestor s.parent x u → l.semi v ≤ l.semi x

/-- A value that some path gives may take the place of a greater one. -/
theorem Relaxed.improve {done : List Nat} (r : Relaxed s v done l) (inside : v < s.vertices.size)
    {value : Nat} (path : s.Semipath v value) (less : value ≤ l.semi v) :
    Relaxed s v done (l.setSemi v value) := by
  have get : ∀ w, (l.setSemi v value).semi w = if w = v then value else l.semi w :=
    fun w => semi_setSemi (r.linked.semis_size.symm ▸ inside) value
  refine ⟨r.linked.setSemi inside value, ?_, ?_, ?_, ?_, ?_, ?_⟩
  · intro w low bounded
    rw [get, if_neg (by omega)]
    exact r.lower w low bounded
  · intro w high bounded
    rw [get, if_neg (by omega)]
    exact r.upper w high bounded
  · rwa [get, if_pos rfl]
  · rw [get, if_pos rfl]
    exact Nat.le_trans less r.le_parent
  · intro w member low
    rw [get, if_pos rfl]
    exact Nat.le_trans less (r.le_source w member low)
  · intro w member x high above
    rw [get, get, if_pos rfl, if_neg (by omega)]
    exact Nat.le_trans less (r.le_semi w member x high above)

theorem Relaxed.note {done : List Nat} (r : Relaxed s v done l) (source : u < v → l.semi v ≤ u)
    (semi : ∀ x, v < x → Ancestor s.parent x u → l.semi v ≤ l.semi x) :
    Relaxed s v (done ++ [u]) l := by
  refine { r with le_source := ?_, le_semi := ?_ }
  · intro w member
    rcases List.mem_append.mp member with old | new
    · exact r.le_source w old
    · obtain rfl := List.mem_singleton.mp new
      exact source
  · intro w member
    rcases List.mem_append.mp member with old | new
    · exact r.le_semi w old
    · obtain rfl := List.mem_singleton.mp new
      exact semi

theorem Relaxed.compressed {done : List Nat} {l' : Links} (r : Relaxed s v done l)
    (c : Compressed s (v + 1) u l l') : Relaxed s v done l' where
  linked := c.linked
  lower w low bounded := (c.semi w).trans (r.lower w low bounded)
  upper w high bounded := (c.semi w).symm ▸ r.upper w high bounded
  path := (c.semi v).symm ▸ r.path
  le_parent := (c.semi v).symm ▸ r.le_parent
  le_source u member low := (c.semi v).symm ▸ r.le_source u member low
  le_semi u member x high above := by
    rw [c.semi, c.semi]
    exact r.le_semi u member x high above

theorem Relaxed.relax {done : List Nat} (df : s.DepthFirst) (r : Relaxed s v done l)
    (inside : v < s.vertices.size) (e : s.Edge u v) :
    Relaxed s v (done ++ [u]) (Links.relax v l u) := by
  have insideU := df.source_lt u v e
  obtain ⟨c, self, least⟩ := eval_least df r.linked insideU
  have r' := r.compressed c
  -- the value found is the start of a path to `v`, except for an edge from `v` to itself
  have path : u ≠ v → s.Semipath v (l.semi (l.eval (v + 1) u).1) := by
    intro other
    rcases Nat.lt_or_ge v u with high | low
    · obtain ⟨above, ancestor, _⟩ := least high
      have semi := r.upper _ above (Nat.lt_of_le_of_lt (ancestor.le df.parent_lt) insideU)
      exact df.semipath_iff.mpr (.inr ⟨_, u, above, ancestor, e, semi.1⟩)
    · rw [self low, r.lower u (by omega) insideU]
      exact .edge e
  have source : u < v → l.semi (l.eval (v + 1) u).1 ≤ u := by
    intro low
    rw [self (Nat.le_of_lt low), r.lower u low insideU]
  have semi : ∀ x, v < x → Ancestor s.parent x u → l.semi (l.eval (v + 1) u).1 ≤ l.semi x := by
    intro x high above
    exact (least (Nat.lt_of_lt_of_le high (above.le df.parent_lt))).2.2 x above high
  simp only [Links.relax, c.semi]
  split
  · rename_i less
    have other : u ≠ v := by
      rintro rfl
      rw [self (Nat.le_refl u)] at less
      exact Nat.lt_irrefl _ less
    have get : ∀ w, ((l.eval (v + 1) u).2.setSemi v (l.semi (l.eval (v + 1) u).1)).semi w =
        if w = v then l.semi (l.eval (v + 1) u).1 else l.semi w := by
      intro w
      rw [semi_setSemi (c.linked.semis_size.symm ▸ inside), c.semi]
    refine (r'.improve inside (path other) (by rw [c.semi]; exact Nat.le_of_lt less)).note ?_ ?_
    · rw [get, if_pos rfl]
      exact source
    · intro x high above
      rw [get, get, if_pos rfl, if_neg (by omega)]
      exact semi x high above
  · rename_i more
    refine r'.note ?_ ?_
    · intro low
      rw [c.semi]
      exact Nat.le_trans (Nat.not_lt.mp more) (source low)
    · intro x high above
      rw [c.semi, c.semi]
      exact Nat.le_trans (Nat.not_lt.mp more) (semi x high above)

theorem Relaxed.foldl (df : s.DepthFirst) (inside : v < s.vertices.size) (sources : List Nat)
    {done : List Nat} (r : Relaxed s v done l) (edges : ∀ u ∈ sources, s.Edge u v) :
    Relaxed s v (done ++ sources) (sources.foldl (Links.relax v) l) := by
  induction sources generalizing l done with
  | nil => simpa using r
  | cons u rest ih =>
      have first := r.relax df inside (edges u List.mem_cons_self)
      simpa using ih first (fun w member => edges w (List.mem_cons_of_mem u member))

theorem Relaxed.isSemidominator (df : s.DepthFirst) (positive : 0 < v)
    (r : Relaxed s v (s.sources v) l) : s.IsSemidominator v (l.semi v) := by
  refine ⟨r.path, ?_⟩
  intro y path
  -- Of the direct edges those from above `v` are no better than the edge from the parent.
  rcases df.semipath_iff.mp path with direct | ⟨x, u, high, above, e, longer⟩
  · rcases Nat.lt_or_ge y v with low | far
    · exact r.le_source y direct low
    · have := df.parent_lt v positive
      have := r.le_parent
      omega
  · have inside := Nat.lt_of_le_of_lt (above.le df.parent_lt) (df.source_lt u v e)
    exact Nat.le_trans (r.le_semi u e x high above) ((r.upper x high inside).2 y longer)

structure Treated (s : Spanning) (bound : Nat) (l : Links) : Prop where
  linked : Linked s bound l
  lower : ∀ w, w < bound → w < s.vertices.size → l.semi w = w
  upper : ∀ w, bound ≤ w → w < s.vertices.size → s.IsSemidominator w (l.semi w)

theorem Treated.treat (df : s.DepthFirst) (t : Treated s (v + 1) l) (positive : 0 < v)
    (inside : v < s.vertices.size) : Treated s v (Links.treat s v l) := by
  have parent := (t.linked.untreated v (Nat.lt_succ_self v) inside).1
  have get : ∀ w, (l.setSemi v (l.ancestor v)).semi w = if w = v then s.parent v else l.semi w := by
    intro w
    rw [semi_setSemi (t.linked.semis_size.symm ▸ inside), parent]
  have start : Relaxed s v [] (l.setSemi v (l.ancestor v)) := by
    refine ⟨t.linked.setSemi inside _, ?_, ?_, ?_, ?_, by simp, by simp⟩
    · intro w low bounded
      rw [get, if_neg (by omega)]
      exact t.lower w (by omega) bounded
    · intro w high bounded
      rw [get, if_neg (by omega)]
      exact t.upper w high bounded
    · rw [get, if_pos rfl]
      exact .edge (df.parent_edge v positive inside)
    · rw [get, if_pos rfl]
  have done : Relaxed s v (s.sources v) (Links.treat s v l) :=
    start.foldl df inside (s.sources v) (fun _ e => e)
  have semi := done.isSemidominator df positive
  refine ⟨done.linked.link df positive, done.lower, ?_⟩
  intro w up bounded
  by_cases same : w = v
  · exact same ▸ semi
  · exact done.upper w (by omega) bounded

theorem Treated.treatFrom (df : s.DepthFirst) : ∀ (v : Nat) (l : Links), Treated s (v + 1) l →
    v < s.vertices.size → Treated s 1 (Links.treatFrom s v l) := by
  intro v
  induction v with
  | zero => exact fun l t _ => t
  | succ v ih =>
      intro l t inside
      exact ih _ (t.treat df (Nat.succ_pos v) inside) (by omega)

theorem Treated.ofSpanning (s : Spanning) : Treated s s.vertices.size (Links.ofSpanning s) := by
  refine ⟨⟨by simp [Links.ofSpanning], by simp [Links.ofSpanning],
    by simp [Links.ofSpanning], ?_, ?_⟩, ?_, ?_⟩
  · intro v _ inside
    simp [Links.ofSpanning, ancestor, label, Spanning.parent, inside]
  · intro v up inside
    omega
  · intro v _ inside
    simp [Links.ofSpanning, Links.semi, inside]
  · intro v up inside
    omega

end Links

namespace Spanning

theorem semidominators_spec {s : Spanning} (df : s.DepthFirst) {v : Nat} (positive : 0 < v)
    (inside : v < s.vertices.size) : s.IsSemidominator v (s.semidominators.getD v 0) := by
  have start : Links.Treated s (s.vertices.size - 1 + 1) (Links.ofSpanning s) := by
    rw [Nat.sub_add_cancel (by omega)]
    exact .ofSpanning s
  exact (start.treatFrom df _ _ (by omega)).upper v positive inside

end Spanning

end MemoryFlow
