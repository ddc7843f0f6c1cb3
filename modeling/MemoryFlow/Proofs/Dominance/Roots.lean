import MemoryFlow.Proofs.Dominance.PostDominance

/-! # The roots of the post-dominator tree

A backward traversal starts at the exits, and then, block by block from the last to the first, at
every block it has not come to. It has come to just those blocks from which control can get to where
it started, so each further start is the last block from which control gets to none of the starts
before it.
-/

namespace MemoryFlow

/-- Whether `r` is the last placed block from which control gets to none of `roots`. -/
def FlowGraph.LastBeyond (g : FlowGraph) (roots : List Block) (r : Block) : Prop :=
  ∃ before after, g.blocks = before ++ r :: after ∧ (∀ q ∈ roots, ¬Reaches g.Edge r q) ∧
    ∀ b ∈ after, ∃ q ∈ roots, Reaches g.Edge b q

theorem FlowGraph.exits_eq {g : FlowGraph} (distinct : g.blocks.Nodup) :
    g.exits = g.blocks.filter fun b => (g.succs b).isEmpty := by
  rw [exits, blocks, List.filter_map]
  congr 1
  refine List.filter_congr fun row listed => ?_
  simp [succs_eq distinct listed]

namespace Spanning

variable {g : FlowGraph} {s : Spanning} {b block : Block} {exits blocks done further : List Block}

theorem Backward.numbered_iff (back : s.Backward g) (distinct : g.blocks.Nodup) :
    (∃ v, s.block? v = some b) ↔ ∃ r ∈ s.roots, Reaches g.Edge b r := by
  constructor
  · rintro ⟨v, found⟩
    -- The vertex that a vertex was first reached from has the smaller number.
    induction v using Nat.strongRecOn generalizing b with
    | _ v ih =>
        have positive : 0 < v := by
          rw [Nat.pos_iff_ne_zero]
          rintro rfl
          simp [back.virtual] at found
        have edge := back.parent_edge v positive (lt_of_block? found)
        obtain ⟨c, target, ⟨from_, source, leads⟩ | ⟨_, start⟩⟩ := back.genuine _ _ edge
        · obtain rfl := Option.some.inj (found.symm.trans target)
          obtain ⟨r, root, l, way⟩ := ih _ (back.parent_lt v positive) source
          have step : g.Edge b from_ :=
            (FlowGraph.mem_preds distinct).mp (List.mem_reverse.mp leads)
          exact ⟨r, root, b :: l, .step step way⟩
        · obtain rfl := Option.some.inj (found.symm.trans target)
          exact ⟨b, start, .self⟩
  · rintro ⟨r, root, l, way⟩
    induction way with
    | here r =>
        obtain ⟨v, found, _⟩ := back.started r root
        exact ⟨v, found⟩
    | @step b c r l leads _ ih =>
        obtain ⟨u, source⟩ := ih root
        have member : b ∈ (g.preds c).reverse :=
          List.mem_reverse.mpr ((FlowGraph.mem_preds distinct).mpr leads)
        obtain ⟨v, found, _⟩ := back.finished u (lt_of_block? source) c source b member
        exact ⟨v, found⟩

theorem roots_foldl_addRoot {next : Block → List Block} :
    (blocks.foldl (addRoot g next) s).roots = s.roots ++ blocks := by
  induction blocks generalizing s with
  | nil => simp
  | cons block blocks ih =>
      rw [List.foldl_cons, ih, roots_addRoot, List.append_assoc, List.singleton_append]

/-- Whether each of the roots after the exits is the last block beyond those before it. -/
def Successive (g : FlowGraph) (exits further : List Block) : Prop :=
  ∀ before r after, further = before ++ r :: after → g.LastBeyond (exits ++ before) r

theorem Successive.snoc (successive : Successive g exits further)
    (last : g.LastBeyond (exits ++ further) block) : Successive g exits (further ++ [block]) := by
  intro before r after whole
  rcases List.eq_nil_or_concat after with rfl | ⟨rest, c, rfl⟩
  · obtain ⟨rfl, same⟩ := List.append_inj' whole rfl
    cases same
    exact last
  · rw [List.concat_eq_append, ← List.cons_append, ← List.append_assoc] at whole
    obtain ⟨front, _⟩ := List.append_inj' whole rfl
    exact successive before r rest front

/-- The state of the scan for further roots, when the blocks `done` at the end of the program have
been looked at. -/
structure Scanning (g : FlowGraph) (exits done : List Block) (s : Spanning) : Prop extends
    s.Backward g where
  roots_eq : ∃ further, s.roots = exits ++ further ∧ Successive g exits further
  covered : ∀ b ∈ done, ∃ r ∈ s.roots, Reaches g.Edge b r

/-- One more block is looked at: it becomes a root unless control gets from it to one. -/
theorem Scanning.step (scanning : s.Scanning g exits done) (distinct : g.blocks.Nodup)
    (whole : g.blocks = blocks ++ block :: done) :
    (if (s.number? block).isSome then s else
      addRoot g (fun b => (g.preds b).reverse) s block).Scanning g exits (block :: done) := by
  obtain ⟨further, roots, successive⟩ := scanning.roots_eq
  split
  · rename_i numbered
    obtain ⟨v, known⟩ := Option.isSome_iff_exists.mp numbered
    have here := (scanning.numbered_iff distinct).mp ⟨v, block?_of_number? known⟩
    exact ⟨scanning.toBackward, scanning.roots_eq,
      List.forall_mem_cons.mpr ⟨here, scanning.covered⟩⟩
  · rename_i fresh
    have unknown : s.number? block = none := by simpa using fresh
    have beyond : ∀ q ∈ s.roots, ¬Reaches g.Edge block q := by
      intro q root reaches
      obtain ⟨v, found⟩ := (scanning.numbered_iff distinct).mpr ⟨q, root, reaches⟩
      exact number?_eq_none.mp unknown v found
    have last : g.LastBeyond (exits ++ further) block :=
      ⟨blocks, done, whole, roots ▸ beyond, roots ▸ scanning.covered⟩
    refine ⟨(scanning.addRoot (by simp [whole])).1,
      ⟨further ++ [block], ?_, successive.snoc last⟩, ?_⟩
    · rw [roots_addRoot, roots, List.append_assoc]
    · rw [roots_addRoot]
      refine List.forall_mem_cons.mpr ⟨⟨block, by simp, .self⟩, fun b member => ?_⟩
      obtain ⟨r, root, reaches⟩ := scanning.covered b member
      exact ⟨r, List.mem_append_left _ root, reaches⟩

theorem Scanning.foldl (scanning : s.Scanning g exits done) (distinct : g.blocks.Nodup)
    (whole : g.blocks = blocks.reverse ++ done) :
    (blocks.foldl (fun s block => if (s.number? block).isSome then s else
      addRoot g (fun b => (g.preds b).reverse) s block) s).Scanning g exits g.blocks := by
  induction blocks generalizing s done with
  | nil =>
      have all : g.blocks = done := by simpa using whole
      exact all ▸ scanning
  | cons block blocks ih =>
      rw [List.reverse_cons, List.append_assoc, List.singleton_append] at whole
      exact ih (scanning.step distinct whole) whole

theorem backward_scanning (distinct : g.blocks.Nodup) :
    (backward g).Scanning g g.exits g.blocks := by
  have back : (g.exits.foldl (addRoot g (fun b => (g.preds b).reverse))
      { vertices := #[⟨none, 0, []⟩] }).Backward g := by
    refine List.foldlRecOn (motive := Backward g) _ _ (Backward.start g) ?_
    intro s back block member
    rw [FlowGraph.exits_eq distinct] at member
    exact (back.addRoot (List.mem_filter.mp member).1).1
  have started : Scanning g g.exits [] _ :=
    ⟨back, ⟨[], by simp [roots_foldl_addRoot], fun before r after whole => by simp at whole⟩,
      by simp⟩
  exact started.foldl distinct (by simp)

end Spanning

namespace Tree

/-- The roots of the post-dominator tree are the blocks that lead nowhere, in program order, and
after them the blocks that are each the last from which control gets to none of the roots before.
Control gets from every block to one of them. -/
theorem postdominator_roots (p : Procedure) (placed : p.layout.blocks ≠ [])
    (distinct : p.layout.blocks.Nodup) :
    ∃ t further, ofFlow (.ofProcedure p) .backward = .ok t ∧
      t.roots =
        p.layout.blocks.filter (fun b => ((FlowGraph.ofProcedure p).succs b).isEmpty) ++ further ∧
      (∀ before r after, further = before ++ r :: after → (FlowGraph.ofProcedure p).LastBeyond
        (p.layout.blocks.filter (fun b => ((FlowGraph.ofProcedure p).succs b).isEmpty) ++ before)
        r) ∧
      ∀ b ∈ p.layout.blocks, ∃ r ∈ t.roots, Reaches (FlowGraph.ofProcedure p).Edge b r := by
  let g := FlowGraph.ofProcedure p
  obtain ⟨entry, first⟩ := Option.isSome_iff_exists.mp (List.isSome_head?.mpr placed)
  rw [← FlowGraph.blocks_ofProcedure] at distinct ⊢
  obtain ⟨_, ⟨further, roots, successive⟩, covered⟩ := Spanning.backward_scanning distinct
  rw [FlowGraph.exits_eq distinct] at roots successive
  refine ⟨ofSpanning .backward (.backward g), further, ?_, roots, successive, covered⟩
  rw [ofFlow, FlowGraph.entry_ofProcedure, show p.entry = some entry from first]
  rfl

/-- Control gets out of neither loop. The second is a root because nothing comes after it, and the
first because control does not get from it to the second. -/
theorem postdominator_roots_exitOrLoops :
    exitOrLoops.layout.blocks ≠ [] ∧ exitOrLoops.layout.blocks.Nodup ∧
    ∃ t, ofFlow (.ofProcedure exitOrLoops) .backward = .ok t ∧ t.roots = [⟨2⟩, ⟨4⟩, ⟨3⟩] ∧
      (FlowGraph.ofProcedure exitOrLoops).LastBeyond [⟨2⟩] ⟨4⟩ ∧
      (FlowGraph.ofProcedure exitOrLoops).LastBeyond [⟨2⟩, ⟨4⟩] ⟨3⟩ ∧
      ∀ b ∈ exitOrLoops.layout.blocks, ∃ r ∈ t.roots,
        Reaches (FlowGraph.ofProcedure exitOrLoops).Edge b r := by
  obtain ⟨t, planted, roots⟩ := exists_of_any (x := ofFlow (.ofProcedure exitOrLoops) .backward)
    (P := fun t => t.roots == [⟨2⟩, ⟨4⟩, ⟨3⟩]) (by decide +kernel)
  have exits : exitOrLoops.layout.blocks.filter
      (fun b => ((FlowGraph.ofProcedure exitOrLoops).succs b).isEmpty) = [⟨2⟩] := by decide
  obtain ⟨t', further, planted', whole, successive, covered⟩ :=
    postdominator_roots exitOrLoops (by decide) (by decide)
  obtain rfl := Except.ok.inj (planted.symm.trans planted')
  rw [exits] at whole successive
  rw [beq_iff_eq] at roots
  obtain rfl : further = [⟨4⟩, ⟨3⟩] := List.append_cancel_left (whole.symm.trans roots)
  exact ⟨by decide, by decide, t, planted, roots, successive [] ⟨4⟩ [⟨3⟩] rfl,
    successive [⟨4⟩] ⟨3⟩ [] rfl, covered⟩

end Tree

end MemoryFlow
