import MemoryFlow.Proofs.Dominance.PostDominance

/-! # The nearest common dominator

Two nodes are brought together by climbing, always from the lower of them. Only levels are compared,
never ancestry. That is enough: a step up is one level, so the node that climbs is not yet above the
other, and whatever is above both stays above both (`IsMeet.climb`).

The nodes always meet, at the root if nowhere else. The root of a post-dominator tree is virtual,
and two blocks that meet only there have no common post-dominator.
-/

namespace MemoryFlow.Tree

variable {g : FlowGraph} {t : Tree} {a b c d : Block} {above m m' x y z : TreeNode}

/-- Whether `m` is the lowest of the nodes that are at or above both `x` and `y`. -/
structure IsMeet (t : Tree) (x y m : TreeNode) : Prop where
  left : t.Subtree m x
  right : t.Subtree m y
  lowest : ∀ z, t.Subtree z x → t.Subtree z y → t.Subtree z m

/-- Whether `c` is the nearest of the blocks that dominate both `a` and `b`. -/
structure IsCommonDominator (t : Tree) (a b c : Block) : Prop where
  left : t.dominates c a = true
  right : t.dominates c b = true
  nearest : ∀ d, t.dominates d a = true → t.dominates d b = true → t.dominates d c = true

theorem Subtree.of_ne (within : t.Subtree z y) (isAbove : t.idomOf? y = some above)
    (other : z ≠ y) : t.Subtree z above := by
  cases within with
  | self => exact absurd rfl other
  | child isAbove' rest =>
      obtain rfl := Option.some.inj (isAbove.symm.trans isAbove')
      exact rest

namespace IsMeet

theorem refl : t.IsMeet x x x :=
  ⟨.self, .self, fun _ within _ => within⟩

theorem symm (meet : t.IsMeet x y m) : t.IsMeet y x m :=
  ⟨meet.right, meet.left, fun z first second => meet.lowest z second first⟩

theorem climb (h : Ordered g t) (isAbove : t.idomOf? y = some above)
    (low : t.levelOf x ≤ t.levelOf y) (apart : x ≠ y) (meet : t.IsMeet x above m) :
    t.IsMeet x y m where
  left := meet.left
  right := .child isAbove meet.right
  lowest z first second := by
    have other : z ≠ y := by
      rintro rfl
      rcases h.levelOf_subtree first with same | higher
      · exact apart same.symm
      · omega
    exact meet.lowest z first (second.of_ne isAbove other)

end IsMeet

theorem commonDominator?_of_not_contains (unknown : t.contains a = false ∨ t.contains b = false) :
    t.commonDominator? a b = none := by
  simp only [contains, Option.isSome_eq_false_iff, Option.isNone_iff_eq_none] at unknown
  rcases unknown with unknown | unknown
  · simp [commonDominator?, unknown]
  · cases node : t.nodeId? a <;> simp [commonDominator?, node, unknown]

namespace Ordered

variable (h : Ordered g t)
include h

theorem subtree_antisymm (xy : t.Subtree x y) (yx : t.Subtree y x) : x = y := by
  rcases h.levelOf_subtree xy with same | lower
  · exact same
  · rcases h.levelOf_subtree yx with same | higher
    · exact same.symm
    · omega

theorem exists_idom (inside : x.index < t.size) (deep : 0 < t.levelOf x) :
    ∃ above, t.idomOf? x = some above ∧ above.index < t.size ∧
      t.levelOf x = t.levelOf above + 1 := by
  have positive : 0 < x.index := by
    rw [Nat.pos_iff_ne_zero]
    intro zero
    rw [show x = Tree.root from Entity.ext zero, h.level_root] at deep
    exact Nat.lt_irrefl 0 deep
  obtain ⟨above, isAbove, lower, level⟩ := h.idom x positive inside
  exact ⟨above, isAbove, Nat.lt_trans lower inside, level⟩

theorem eq_root_of_level (inside : x.index < t.size) (top : t.levelOf x = 0) : x = Tree.root := by
  rcases Nat.eq_zero_or_pos x.index with zero | positive
  · exact Entity.ext zero
  · obtain ⟨above, _, _, level⟩ := h.idom x positive inside
    omega

/-- The climb ends where the nodes meet, after no more steps than there are levels above them. -/
theorem meet?_isMeet : ∀ (fuel : Nat) (x y : TreeNode), x.index < t.size → y.index < t.size →
    t.levelOf x + t.levelOf y < fuel → ∃ m, t.meet? fuel x y = some m ∧ t.IsMeet x y m := by
  intro fuel
  induction fuel with
  | zero => exact fun x y _ _ enough => absurd enough (Nat.not_lt_zero _)
  | succ fuel ih =>
      intro x y insideX insideY enough
      rw [meet?]
      by_cases same : x = y
      · subst same
        exact ⟨x, if_pos rfl, .refl⟩
      rw [if_neg same]
      by_cases higher : t.levelOf x < t.levelOf y
      · obtain ⟨above, isAbove, inside, level⟩ := h.exists_idom insideY (by omega)
        obtain ⟨m, found, meet⟩ := ih above x inside insideX (by omega)
        refine ⟨m, ?_, meet.symm.climb h isAbove (Nat.le_of_lt higher) same⟩
        rw [if_pos higher]
        exact (congrArg (Option.bind · _) isAbove).trans found
      · -- Two nodes on the highest level would both be the root.
        have deep : 0 < t.levelOf x := by
          by_contra top
          have rootX := h.eq_root_of_level insideX (by omega)
          have rootY := h.eq_root_of_level insideY (by omega)
          exact same (rootX.trans rootY.symm)
        obtain ⟨above, isAbove, inside, level⟩ := h.exists_idom insideX deep
        obtain ⟨m, found, meet⟩ := ih above y inside insideY (by omega)
        refine ⟨m, ?_, (meet.symm.climb h isAbove (by omega) (Ne.symm same)).symm⟩
        rw [if_neg higher]
        exact (congrArg (Option.bind · _) isAbove).trans found

theorem isMeet_unique (first : t.IsMeet x y m) (second : t.IsMeet x y m') : m = m' :=
  h.subtree_antisymm (second.lowest m first.left first.right)
    (first.lowest m' second.left second.right)

/-- Where two nodes meet does not depend on how many steps are allowed, if they are enough. -/
theorem exists_meet (insideX : x.index < t.size) (insideY : y.index < t.size) :
    ∃ m, t.IsMeet x y m ∧ ∀ fuel, t.levelOf x + t.levelOf y < fuel → t.meet? fuel x y = some m := by
  obtain ⟨m, _, meet⟩ := h.meet?_isMeet _ x y insideX insideY (Nat.lt_succ_self _)
  refine ⟨m, meet, fun fuel enough => ?_⟩
  obtain ⟨m', found, meet'⟩ := h.meet?_isMeet fuel x y insideX insideY enough
  rw [found, h.isMeet_unique meet meet']

theorem exists_block (hz : t.blockOf? z = some d) (within : t.Subtree z m) :
    ∃ c, t.blockOf? m = some c := by
  cases within with
  | self => exact ⟨d, hz⟩
  | child isAbove _ =>
      obtain ⟨lower, inside⟩ := h.idom_lt isAbove
      exact h.placed m (Nat.zero_lt_of_lt lower) inside

/-- The blocks that dominate a block of the tree are the blocks of the nodes above its node. -/
theorem dominates_iff_exists (hx : t.blockOf? x = some a) :
    t.dominates d a = true ↔ ∃ z, t.blockOf? z = some d ∧ t.Subtree z x := by
  constructor
  · intro dom
    have known : t.contains d = true := by
      by_cases same : d = a
      · exact same ▸ h.contains_of_blockOf? hx
      · obtain ⟨n, found⟩ := exists_find?.mp (h.contains_of_blockOf? hx)
        obtain ⟨n', found', _⟩ := level_lt_of_dominates dom same found
        exact exists_find?.mpr ⟨n', found'⟩
    obtain ⟨z, hz⟩ := h.contains_iff.mp known
    exact ⟨z, hz, (h.order z x d a hz hx).mp dom⟩
  · rintro ⟨z, hz, within⟩
    exact (h.order z x d a hz hx).mpr within

section Blocks

variable (hx : t.blockOf? x = some a) (hy : t.blockOf? y = some b) (meet : t.IsMeet x y m)
include hx hy meet

theorem exists_above_meet (left : t.dominates d a = true) (right : t.dominates d b = true) :
    ∃ z, t.blockOf? z = some d ∧ t.Subtree z m := by
  obtain ⟨z, hz, within⟩ := (h.dominates_iff_exists hx).mp left
  exact ⟨z, hz, meet.lowest z within ((h.order z y d b hz hy).mp right)⟩

theorem isCommonDominator_of_meet (hm : t.blockOf? m = some c) : t.IsCommonDominator a b c where
  left := (h.order m x c a hm hx).mpr meet.left
  right := (h.order m y c b hm hy).mpr meet.right
  nearest _ left right :=
    (h.dominates_iff_exists hm).mpr (h.exists_above_meet hx hy meet left right)

theorem blockOf?_meet (common : t.IsCommonDominator a b c) : t.blockOf? m = some c := by
  obtain ⟨z, hz, below⟩ := h.exists_above_meet hx hy meet common.left common.right
  obtain ⟨d, hm⟩ := h.exists_block hz below
  have nearest := h.isCommonDominator_of_meet hx hy meet hm
  have under := (h.order m z d c hm hz).mp (common.nearest d nearest.left nearest.right)
  rwa [h.subtree_antisymm under below]

end Blocks

/-- For two blocks of the tree the climb starts at their nodes and is given steps enough, so the
answer is the block where the nodes meet. -/
theorem exists_commonDominator? (knownA : t.contains a = true) (knownB : t.contains b = true) :
    ∃ x y m, t.blockOf? x = some a ∧ t.blockOf? y = some b ∧ t.IsMeet x y m ∧
      (∀ fuel, t.levelOf x + t.levelOf y < fuel → t.meet? fuel x y = some m) ∧
      t.commonDominator? a b = t.blockOf? m := by
  obtain ⟨x, hx⟩ := h.contains_iff.mp knownA
  obtain ⟨y, hy⟩ := h.contains_iff.mp knownB
  obtain ⟨m, meet, ends⟩ := h.exists_meet (lt_of_blockOf? hx) (lt_of_blockOf? hy)
  refine ⟨x, y, m, hx, hy, meet, ends, ?_⟩
  simp [commonDominator?, (h.nodeId? a x).mpr hx, (h.nodeId? b y).mpr hy,
    ends _ (Nat.lt_succ_self _)]

theorem commonDominator?_iff (knownA : t.contains a = true) (knownB : t.contains b = true) :
    t.commonDominator? a b = some c ↔ t.IsCommonDominator a b c := by
  obtain ⟨x, y, m, hx, hy, meet, _, answer⟩ := h.exists_commonDominator? knownA knownB
  rw [answer]
  exact ⟨h.isCommonDominator_of_meet hx hy meet, h.blockOf?_meet hx hy meet⟩

/-- Two blocks of the tree meet at a virtual root just if no block dominates both. -/
theorem commonDominator?_eq_none (knownA : t.contains a = true) (knownB : t.contains b = true) :
    t.commonDominator? a b = none ↔ ¬∃ d, t.dominates d a = true ∧ t.dominates d b = true := by
  obtain ⟨x, y, m, hx, hy, meet, _, answer⟩ := h.exists_commonDominator? knownA knownB
  rw [answer]
  constructor
  · rintro virtual ⟨d, left, right⟩
    obtain ⟨z, hz, below⟩ := h.exists_above_meet hx hy meet left right
    obtain ⟨c, hm⟩ := h.exists_block hz below
    simp [virtual] at hm
  · intro alone
    by_contra placed
    obtain ⟨c, hm⟩ := Option.ne_none_iff_exists'.mp placed
    have common := h.isCommonDominator_of_meet hx hy meet hm
    exact alone ⟨c, common.left, common.right⟩

end Ordered

theorem roots_forward (g : FlowGraph) (entry : Block) (direction : Direction) :
    (ofSpanning direction (.forward g entry)).roots = [entry] :=
  Spanning.roots_addRoot

/-- In either direction the tree says of its blocks what the ways from its roots say. -/
theorem ofFlow_dominates_iff {direction : Direction} (planted : ofFlow g direction = .ok t)
    (known : t.contains b = true) :
    t.dominates a b = true ↔ ∀ r ∈ t.roots, Dominates (g.Step direction) r a b := by
  have h := ofFlow_ordered planted
  obtain ⟨y, hy⟩ := h.contains_iff.mp known
  obtain ⟨entry, first, rfl⟩ := ofFlow_eq_ok.mp planted
  cases direction with
  | forward =>
      have sound := Sound.ofSpanning (Spanning.forward_forward g entry)
      rw [Spanning.ofFlow, roots_forward, sound.dominates a b]
      simp only [List.mem_singleton, forall_eq]
      exact Iff.rfl
  | backward =>
      have back := (Spanning.backward_backward g).1
      rw [blockOf?_ofSpanning] at hy
      -- Whichever side holds, the block `a` has a vertex, and the vertices decide.
      have vertices : ∀ u, Spanning.block? (.backward g) u = some a →
          ((ofSpanning .backward (.backward g)).dominates a b = true ↔
            ∀ r ∈ Spanning.roots (.backward g), Dominates (g.Step .backward) r a b) := by
        intro u hu
        rw [dominates_ofSpanning back.toFound hu hy, ← back.dominates_iff_from_roots hu hy]
        exact (Spanning.dominates_iff_ancestor back.toDepthFirst (Spanning.lt_of_block? hy)).symm
      constructor
      · intro dom
        obtain ⟨z, hz, _⟩ := (h.dominates_iff_exists ((blockOf?_ofSpanning y).trans hy)).mp dom
        exact (vertices z.index ((blockOf?_ofSpanning z).symm.trans hz)).mp dom
      · intro dom
        obtain ⟨u, hu⟩ := back.numbered_of_dominates hy dom
        exact (vertices u hu).mpr dom

theorem ofFlow_forward_dominated (planted : ofFlow g .forward = .ok t) :
    ∃ entry, ∀ b, t.dominates entry b = true := by
  obtain ⟨entry, _, rfl⟩ := ofFlow_eq_ok.mp planted
  have sound := Sound.ofSpanning (Spanning.forward_forward g entry)
  exact ⟨entry, fun b => (sound.dominates entry b).mpr .from_root⟩

/-- The nearest common dominator, in either direction. The climb ends, and for two blocks of the
tree it ends at the nearest of the blocks that dominate both. Only where none does is there no
answer for them, and that happens in a post-dominator tree alone. -/
theorem commonDominator?_isNearest {direction : Direction} (planted : ofFlow g direction = .ok t)
    (a b : Block) :
    (∀ x y, t.contains y = true →
      (t.dominates x y = true ↔ ∀ r ∈ t.roots, Dominates (g.Step direction) r x y)) ∧
    (t.contains a = true → t.contains b = true →
      (∃ x y m, t.nodeId? a = some x ∧ t.nodeId? b = some y ∧
        ∀ fuel, t.levelOf x + t.levelOf y < fuel → t.meet? fuel x y = some m) ∧
      ∀ c, t.commonDominator? a b = some c ↔ t.IsCommonDominator a b c) ∧
    (t.commonDominator? a b = none ↔ t.contains a = false ∨ t.contains b = false ∨
      direction = .backward ∧ ¬∃ c, t.dominates c a = true ∧ t.dominates c b = true) := by
  have h := ofFlow_ordered planted
  refine ⟨fun x y known => ofFlow_dominates_iff planted known, ?_, ?_⟩
  · intro knownA knownB
    refine ⟨?_, fun c => h.commonDominator?_iff knownA knownB⟩
    obtain ⟨x, y, m, hx, hy, _, ends, _⟩ := h.exists_commonDominator? knownA knownB
    exact ⟨x, y, m, (h.nodeId? a x).mpr hx, (h.nodeId? b y).mpr hy, ends⟩
  · by_cases known : t.contains a = true ∧ t.contains b = true
    · obtain ⟨knownA, knownB⟩ := known
      rw [h.commonDominator?_eq_none knownA knownB]
      cases direction with
      | forward =>
          obtain ⟨entry, dominated⟩ := ofFlow_forward_dominated planted
          simpa [knownA, knownB] using ⟨entry, dominated a, dominated b⟩
      | backward => simp [knownA, knownB]
    · have unknown : t.contains a = false ∨ t.contains b = false := by
        simpa only [not_and_or, Bool.not_eq_true] using known
      refine iff_of_true (commonDominator?_of_not_contains unknown) ?_
      rcases unknown with unknown | unknown
      · exact .inl unknown
      · exact .inr (.inl unknown)

/-- What follows the choice between an exit and two loops has no common post-dominator, but the
choice itself is one for what comes before. -/
theorem commonDominator?_isNearest_exitOrLoops :
    ∃ t, ofFlow (.ofProcedure exitOrLoops) .backward = .ok t ∧
      t.commonDominator? ⟨0⟩ ⟨1⟩ = some ⟨1⟩ ∧ t.IsCommonDominator ⟨0⟩ ⟨1⟩ ⟨1⟩ ∧
      t.contains ⟨0⟩ = true ∧ t.contains ⟨2⟩ = true ∧ t.commonDominator? ⟨0⟩ ⟨2⟩ = none ∧
      ¬∃ c, t.dominates c ⟨0⟩ = true ∧ t.dominates c ⟨2⟩ = true := by
  obtain ⟨t, planted, facts⟩ := exists_of_any (x := ofFlow (.ofProcedure exitOrLoops) .backward)
    (P := fun t => t.commonDominator? ⟨0⟩ ⟨1⟩ == some ⟨1⟩ && t.commonDominator? ⟨0⟩ ⟨2⟩ == none &&
      t.contains ⟨0⟩ && t.contains ⟨1⟩ && t.contains ⟨2⟩) (by decide +kernel)
  simp only [Bool.and_eq_true, beq_iff_eq] at facts
  obtain ⟨⟨⟨⟨choice, apart⟩, entry⟩, branch⟩, exit⟩ := facts
  obtain ⟨_, nearest, _⟩ := commonDominator?_isNearest planted ⟨0⟩ ⟨1⟩
  obtain ⟨_, _, alone⟩ := commonDominator?_isNearest planted ⟨0⟩ ⟨2⟩
  refine ⟨t, planted, choice, ((nearest entry branch).2 ⟨1⟩).mp choice, entry, exit, apart, ?_⟩
  simpa only [entry, exit, Bool.true_eq_false, false_or, true_and] using alone.mp apart

end MemoryFlow.Tree
