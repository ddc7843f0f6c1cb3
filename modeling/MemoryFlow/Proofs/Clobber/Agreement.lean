import MemoryFlow.Proofs.Clobber.Refine
import MemoryFlow.Proofs.Clobber.Uniform

/-! # Refined uses and the walker agree

Between two blocks of the walk over the dominator tree, what holds is what dominates the start of
the next block, below definitions that do not (`Stale.next`). So coming to a block drops just the
latter, and no use fails to be refined (`refineUses_total`). In a precise walk every use that can be
reached is refined to what it observes.
-/

namespace MemoryFlow.Refinement

open MemoryFlow.Graph

variable {g : Graph} {p : Procedure} {o : Oracle} {entry y z : Block} {r : Refinement}
  {seen pre post : List Block} {front holding visited : List Access}

/-- Whether definitions and phis are from blocks among `seen` that do not dominate `z`. -/
def Stale (g : Graph) (entry : Block) (seen : List Block) (z : Block)
    (front : List Access) : Prop :=
  ∀ a ∈ front, ∃ n, g.node? a = some n ∧ n.block ∈ seen ∧ ¬Dominates g.flow.Edge entry n.block z

/-- What held at the end of a block, and what dominates the start of the next. -/
theorem Stale.next (h : g.Linked p entry)
    (nested : Tree.Nested g.flow entry (pre ++ y :: z :: post))
    (complete : ∀ x, x ∈ pre ++ y :: z :: post ↔ Reaches g.flow.Edge entry x)
    (stale : Stale g entry (pre ++ [y]) y front) :
    ∃ front', front ++ g.stackOut y = front' ++ g.stackIn z ∧
      Stale g entry (pre ++ [y]) z front' := by
  have whole : pre ++ y :: z :: post = (pre ++ [y]) ++ z :: post := by simp
  have reachedY := (complete y).mp (by simp)
  have reachedZ := (complete z).mp (by simp)
  have later : ¬Dominates g.flow.Edge entry z y := by
    have after := (List.pairwise_append.mp nested.after).2.1
    exact (List.pairwise_cons.mp after).1 z List.mem_cons_self
  have earlier : ∀ x, x ≠ z → Dominates g.flow.Edge entry x z → x ∈ pre ++ [y] := by
    intro x other dom
    have member := (complete x).mpr (dom.reaches reachedZ)
    rw [whole] at member nested
    exact nested.before member other dom
  obtain ⟨id, known⟩ := h.tree.exists_node reachedZ
  rcases h.tree.entry_or_idom known with rfl | ⟨above, d, isAbove, hd⟩
  · exact absurd .from_root later
  · obtain ⟨other, dom, nearest⟩ := h.tree.nearest id above d z isAbove hd known
    have precedes := nested.next (earlier d other dom) dom
    obtain ⟨mid, same⟩ := h.stackOut_suffix reachedY precedes
    rw [h.stackIn_idom isAbove hd known]
    refine ⟨front ++ mid, by rw [List.append_assoc, same], fun a member => ?_⟩
    rcases List.mem_append.mp member with old | new
    · obtain ⟨n, found, inside, not⟩ := stale a old
      exact ⟨n, found, inside, fun dom => not (nested.next inside dom)⟩
    · -- What is from a block that dominates `z` is on the stack of `d`, and nothing is there twice.
      obtain ⟨n, found, notUse, domY⟩ :=
        (h.mem_stackOut reachedY).mp (same ▸ List.mem_append_left _ new)
      refine ⟨n, found, ?_, fun domZ => ?_⟩
      · by_cases here : n.block = y
        · simp [here]
        · have member := (complete n.block).mpr (domY.reaches reachedY)
          exact List.mem_append_left _ (nested.before member here domY)
      · have otherZ : n.block ≠ z := fun same => later (same ▸ domY)
        have reachedD := dom.reaches reachedZ
        have twice := (h.mem_stackOut reachedD).mpr ⟨n, found, notUse, nearest n.block otherZ domZ⟩
        have distinct := same ▸ h.nodup_stack (h.stack_out reachedY)
        exact (List.nodup_append.mp distinct).2.2 a new a twice rfl

theorem dropStale_eq (h : g.Linked p entry) (agrees : g.Agrees r.graph)
    (reached : Reaches g.flow.Edge entry z) (stale : Stale g entry seen z front) :
    dropStale r.graph z (front ++ g.stackIn z) = .ok (g.stackIn z) := by
  induction front with
  | nil =>
      obtain ⟨l, same⟩ := g.stackIn_eq z
      have member : g.reachIn z ∈ g.stackOut z := by
        rw [stackOut, same]
        simp
      obtain ⟨n, found, _, dom⟩ := (h.mem_stackOut reached).mp member
      obtain ⟨m, found', alike⟩ := agrees.read found
      have dominates := (h.tree.dominates n.block z).mpr dom
      rw [List.nil_append, same, dropStale, node_eq found', ok_bind, agrees.tree, alike.block,
        dominates]
      rfl
  | cons a front ih =>
      obtain ⟨⟨n, found, _, not⟩, rest⟩ := List.forall_mem_cons.mp stale
      obtain ⟨m, found', alike⟩ := agrees.read found
      have dominates : g.tree.dominates n.block z = false := by
        rw [Bool.eq_false_iff]
        exact fun yes => not ((h.tree.dominates n.block z).mp yes)
      rw [List.cons_append, dropStale, node_eq found', ok_bind, agrees.tree, alike.block, dominates]
      exact ih rest

namespace Tracks

theorem enter (tracks : Tracks g p o seen none visited r) (fresh : z ∉ seen)
    (holds : r.holding = front ++ g.stackIn z) :
    Tracks g p o (seen ++ [z]) (some z) visited { r with
      holding := g.stackIn z
      epoch := if (g.stackIn z).length = r.holding.length then r.epoch else r.epoch + 1 } :=
  { tracks with
    epoch := by
      dsimp only
      split
      · exact tracks.epoch
      · exact Nat.succ_pos _
    known := fun f => (tracks.known f).imp_right
      fun ⟨bound, member, S, recalls, early, within⟩ => by
      refine ⟨bound, List.mem_append_left _ member, S, recalls, ?_, ?_⟩
      · dsimp only
        split
        · exact early
        · exact Nat.le_succ_of_le early
      · rintro (now | here)
        · -- Where nothing was dropped all that held still holds; otherwise this is a new epoch.
          dsimp only at now ⊢
          split at now
          · rename_i same
            have none : front = [] := by
              rw [holds, List.length_append] at same
              exact List.eq_nil_of_length_eq_zero (by omega)
            have sub := within (.inl now)
            rwa [holds, none, List.nil_append] at sub
          · omega
        · cases here
          exact absurd member fresh }

theorem leave {here : Option Block} {visited' : List Access}
    (tracks : Tracks g p o seen here visited r) (more : ∀ b ∈ seen, b ∈ pre)
    (same : visited' = visited) : Tracks g p o pre none visited' r :=
  { tracks with
    done := same ▸ tracks.done
    known := fun f => (tracks.known f).imp_right fun ⟨bound, member, S, recalls, early, within⟩ =>
      ⟨bound, more bound member, S, recalls, early,
        fun now => within (.inl (now.resolve_right (by simp)))⟩ }

end Tracks

theorem visitBlock_tracks (h : g.Linked p entry) (total : o.AnswersAll p)
    (reached : Reaches g.flow.Edge entry z) (fresh : z ∉ seen)
    (tracks : Tracks g p o seen none (seen.flatMap g.accesses) r)
    (holds : r.holding = front ++ g.stackIn z) (stale : Stale g entry seen z front) :
    ∃ r', visitBlock p o r z = .ok r' ∧
      Tracks g p o (seen ++ [z]) none ((seen ++ [z]).flatMap g.accesses) r' ∧
      ∃ front', r'.holding = front' ++ g.stackOut z ∧ Stale g entry (seen ++ [z]) z front' := by
  have more : (seen ++ [z]).flatMap g.accesses = seen.flatMap g.accesses ++ g.accesses z := by simp
  rw [visitBlock, tracks.agrees.accesses, more]
  split
  · -- A block without accesses is passed, and what does not dominate it is dropped later.
    rename_i empty
    have none : g.definitions z = [] := by rw [h.definitions_eq, empty]; rfl
    refine ⟨r, rfl, tracks.leave (by simp +contextual) (by rw [empty, List.append_nil]),
      front, ?_, ?_⟩
    · rw [holds, stackOut, none]
      rfl
    · intro a member
      obtain ⟨n, found, inside, not⟩ := stale a member
      exact ⟨n, found, List.mem_append_left _ inside, not⟩
  · rw [holds, dropStale_eq h tracks.agrees reached stale, ok_bind, ← holds]
    obtain ⟨r', ran, tracks', holding⟩ := foldlM_total (g.accesses z) (visit p o z) _
      (fun before r => Tracks g p o (seen ++ [z]) (some z) (seen.flatMap g.accesses ++ before) r ∧
        r.holding = (g.defining before).reverse ++ g.stackIn z)
      ⟨by simpa using tracks.enter fresh holds, rfl⟩ (by
        rintro before a after r place ⟨tracks, holding⟩
        obtain ⟨r', ran, tracks', holding'⟩ := visit_tracks h total reached (by simp) place
          tracks holding
        exact ⟨r', ran, by simpa using tracks', holding'⟩)
    refine ⟨r', ran, tracks'.leave (fun _ => id) rfl, [], ?_, fun _ member => by cases member⟩
    rw [holding, stackOut, h.definitions_eq]
    rfl

theorem refineUses_total (h : g.Linked p entry) (total : o.AnswersAll p) (right : g.Places g.order)
    (uncached : g.Uncached) : ∃ g', g.refineUses p o = .ok g' ∧ g.Agrees g' ∧ g'.Places g'.order ∧
      (Shared g p o → ∀ a c, g'.cached? a = some c → Refines g p o a c) ∧
      (Precise g p o → ∀ a n inst f, g.node? a = some n → g.tree.contains n.block = true →
        g.Reads p a inst f → ∃ c, g'.cached? a = some c) := by
  obtain ⟨nested, complete⟩ := h.tree.nested_preorder
  obtain ⟨r, ran, tracks, _⟩ :=
    foldlM_total (g.tree.preorder.filterMap g.tree.blockOf?) (visitBlock p o)
      { graph := g }
      (fun seen r => Tracks g p o seen none (seen.flatMap g.accesses) r ∧
        ∀ z post, g.tree.preorder.filterMap g.tree.blockOf? = seen ++ z :: post →
          ∃ front, r.holding = front ++ g.stackIn z ∧ Stale g entry seen z front)
      (by
        refine ⟨⟨.refl, rfl, right, fun _ a c cached => ?_, by simp, Nat.one_pos,
          fun _ => .inl rfl⟩, fun z post whole => ⟨[], ?_, fun _ member => by cases member⟩⟩
        · obtain ⟨n, found, cached⟩ := Option.bind_eq_some_iff.mp cached
          rw [uncached.links a n found] at cached
          cases cached
        · have reached := (complete entry).mpr ⟨_, .here entry⟩
          rw [whole] at nested reached
          have first : entry = z := by
            by_contra other
            cases nested.before reached other .from_root
          rw [← first, h.stackIn_entry]
          rfl)
      (by
        rintro seen z post r whole ⟨tracks, next⟩
        obtain ⟨front, holds, stale⟩ := next z post whole
        have reached := (complete z).mp (by simp [whole])
        have fresh : z ∉ seen := fun early => by
          have distinct := whole ▸ nested.nodup
          exact (List.nodup_append.mp distinct).2.2 z early z List.mem_cons_self rfl
        obtain ⟨r', ran, tracks', front', holds', stale'⟩ :=
          visitBlock_tracks h total reached fresh tracks holds stale
        refine ⟨r', ran, tracks', fun z' post' whole' => ?_⟩
        rw [List.append_assoc, List.singleton_append] at whole'
        rw [holds']
        exact stale'.next h (whole' ▸ nested) (whole' ▸ complete))
  refine ⟨r.graph, by rw [refineUses, ran]; rfl, tracks.agrees, tracks.right, tracks.cached,
    fun precise a n inst f found reached reads => ?_⟩
  have other := h.ne_liveOnEntry (outline?_eq found) (.inr (by
    obtain ⟨m, _, found', _, hasInst, _⟩ := reads
    obtain rfl := Option.some.inj (found.symm.trans found')
    simp [hasInst]))
  have visited : a ∈ (g.tree.preorder.filterMap g.tree.blockOf?).flatMap g.accesses :=
    List.mem_flatMap.mpr ⟨n.block, (complete n.block).mpr ((h.tree.reaches n.block).mp reached),
      h.mem_accesses.mpr ⟨other, n, found, rfl⟩⟩
  exact Option.isSome_iff_exists.mp (tracks.done precise a visited inst f reads)

/-- What a graph needs for every use to be refined to what it observes. -/
structure Refinable (g : Graph) (p : Procedure) (o : Oracle) (entry : Block) : Prop where
  linked : g.Linked p entry
  total : o.Total p
  lifetimes : p.EndsNoLifetime
  uniform : g.Uniform p o
  limit : g.definers.length ≤ g.config.checkLimit

/-- Every use of a footprint in a block that can be reached is refined to what it observes. -/
theorem refineUses_eq (set : Refinable g p o entry) (right : g.Places g.order)
    (uncached : g.Uncached) :
    ∃ g', g.refineUses p o = .ok g' ∧ g.Agrees g' ∧ ∀ a n inst f, g.node? a = some n →
      g.tree.contains n.block = true → g.Reads p a inst f →
        ∃ c, g'.cached? a = some c ∧ g.Observes p o a c := by
  obtain ⟨h, total, noEnd, uniform, limit⟩ := set
  obtain ⟨g', refined, agrees, _, refines, done⟩ :=
    refineUses_total h (answersAll h.orderly total noEnd) right uncached
  have precise : Precise g p o := ⟨⟨noEnd, uniform⟩, limit⟩
  refine ⟨g', refined, agrees, fun a n inst f found reached reads => ?_⟩
  obtain ⟨c, cached⟩ := done precise a n inst f found reached reads
  exact ⟨c, cached, (refines precise.toShared a c cached).observes precise⟩

end MemoryFlow.Refinement

namespace MemoryFlow.Walker

open MemoryFlow.Graph MemoryFlow.Refinement

/-- Building with the uses refined differs from building without in nothing but the cached clobbers,
and for every load or call that is a use and can be reached it caches what a walker answers on the
graph built without. Uses of one footprint must be clobbered alike, as they are when the oracle
reasons by objects. -/
theorem refined_uses_match {p : Procedure} {o : Oracle} (accepted : p.Accepted)
    (lifetimes : p.EndsNoLifetime) (total : o.Total p) (config : Config) :
    ∃ g, build p o { config with refineUses := false } = .ok g ∧
      (g.definers.length ≤ config.checkLimit → o = .byObject ∨ g.Uniform p o →
        ∃ g', build p o { config with refineUses := true } = .ok g' ∧ g.Agrees g' ∧
          ∀ (w : Walker) a n inst op, g.node? a = some n → n.isUse = true → n.inst? = some inst →
            p.op inst = .ok op → (op.isLoad = true ∨ op.isCall = true) →
            g.tree.contains n.block = true →
            ∃ c w' g'', w.clobberOf g p o a = .ok (c, w', g'') ∧ g'.cached? a = some c) := by
  obtain ⟨entry, base, _, h, kinds, uncached, settled, _, builds⟩ :=
    exists_base accepted total.classifies
  let g : Graph := { base with config := { config with refineUses := false } }
  let start : Graph := { base with config := { config with refineUses := true } }
  have plain : base.Agrees g := base.agrees_configured _ _
  have agrees : g.Agrees start := g.agrees_configured _ _
  refine ⟨g, (builds _ g).mpr rfl, fun limit uniform => ?_⟩
  have uniform : start.Uniform p o := uniform.elim (fun same => by
    subst same
    exact uniform_byObject kinds) id
  obtain ⟨g', refined, kept, caches⟩ := refineUses_eq (g := start)
    ⟨agrees.linked (plain.linked h), total, lifetimes, uniform, limit⟩ (.of_empty settled)
    ⟨uncached.index, uncached.links⟩
  refine ⟨g', (builds _ g').mpr refined, agrees.trans kept, ?_⟩
  intro w a n inst op found isUse hasInst known kind reached
  obtain ⟨f, footprint⟩ := footprint_of_reads kind
  have reads : g.Reads p a inst f := ⟨n, op, found, isUse, hasInst, known, footprint⟩
  obtain ⟨c, cached, observes⟩ := caches a n inst f found reached reads
  obtain ⟨c', effort, g'', answered, observes', _⟩ := (plain.linked h).clobberOf_observes
    (.of_empty settled) total reads ((cached?_eq found).trans (uncached.links a n found))
  obtain rfl := (plain.linked h).observes_unique (agrees.symm.observes observes) observes'
  refine ⟨c, w.after effort, g'', ?_, cached⟩
  rw [clobberOf, answered]
  rfl

/-- Two slots of local memory. The first is written before a loop that writes the second, and read
in three places. -/
def twoSlots : Procedure where
  name := "slots"
  blockNames := #[none, none, none, none]
  insts := #[⟨.alloca 8, some ⟨0⟩⟩, ⟨.alloca 8, some ⟨1⟩⟩,
    ⟨.store ⟨0⟩ ⟨1⟩ 8 ⟨false, false, .notAtomic⟩, none⟩, ⟨.jump ⟨1⟩, none⟩,
    ⟨.load ⟨0⟩ 8 ⟨false, false, .notAtomic⟩, some ⟨2⟩⟩, ⟨.branch ⟨2⟩ ⟨2⟩ ⟨3⟩, none⟩,
    ⟨.store ⟨1⟩ ⟨2⟩ 8 ⟨false, false, .notAtomic⟩, none⟩,
    ⟨.load ⟨0⟩ 8 ⟨false, false, .notAtomic⟩, some ⟨3⟩⟩, ⟨.jump ⟨1⟩, none⟩,
    ⟨.load ⟨0⟩ 8 ⟨false, false, .notAtomic⟩, some ⟨4⟩⟩, ⟨.ret (some ⟨4⟩), none⟩]
  values := #[.result ⟨0⟩, .result ⟨1⟩, .result ⟨4⟩, .result ⟨7⟩, .result ⟨9⟩]
  layout := .ofRows [⟨⟨0⟩, [⟨0⟩, ⟨1⟩, ⟨2⟩, ⟨3⟩]⟩, ⟨⟨1⟩, [⟨4⟩, ⟨5⟩]⟩, ⟨⟨2⟩, [⟨6⟩, ⟨7⟩, ⟨8⟩]⟩,
    ⟨⟨3⟩, [⟨9⟩, ⟨10⟩]⟩]

theorem twoSlots_accepted : twoSlots.Accepted :=
  ⟨⟨twoSlots, some ⟨3⟩⟩,
    .append (.ret (some ⟨4⟩)) (.append (.load ⟨0⟩ 8 ⟨false, false, .notAtomic⟩) (.select ⟨3⟩
      (.append (.jump ⟨1⟩) (.append (.load ⟨0⟩ 8 ⟨false, false, .notAtomic⟩)
        (.append (.store ⟨1⟩ ⟨2⟩ 8 ⟨false, false, .notAtomic⟩) (.select ⟨2⟩
          (.append (.branch ⟨2⟩ ⟨2⟩ ⟨3⟩)
          (.append (.load ⟨0⟩ 8 ⟨false, false, .notAtomic⟩) (.select ⟨1⟩
            (.append (.jump ⟨1⟩) (.append (.store ⟨0⟩ ⟨1⟩ 8 ⟨false, false, .notAtomic⟩)
              (.append (.alloca 8) (.append (.alloca 8) (.select ⟨0⟩
                (.addBlock none (.addBlock none (.addBlock none (.addBlock none
                  (.start "slots") rfl) rfl) rfl) rfl)) rfl) rfl) rfl) rfl)) rfl) rfl)) rfl) rfl)
      rfl)) rfl) rfl, rfl⟩

theorem refined_uses_match_twoSlots : twoSlots.EndsNoLifetime ∧ Oracle.Total .byObject twoSlots ∧
    ∃ g g', build twoSlots .byObject { refineUses := false } = .ok g ∧
      build twoSlots .byObject { refineUses := true } = .ok g' ∧ g.definers.length ≤ 100 ∧
      g.Agrees g' ∧ ∃ c w' g'', clobberOf {} g twoSlots .byObject ⟨5⟩ = .ok (c, w', g'') ∧
      g'.cached? ⟨5⟩ = some c := by
  have lifetimes : twoSlots.EndsNoLifetime := by decide +kernel
  have total : Oracle.Total .byObject twoSlots := by decide +kernel
  refine ⟨lifetimes, total, ?_⟩
  obtain ⟨g, built, passes⟩ := exists_of_any (x := build twoSlots .byObject { refineUses := false })
    (P := fun g => g.node? ⟨5⟩ == some ⟨0, ⟨3⟩, .use ⟨9⟩ { defining := some ⟨6⟩ }, []⟩ &&
      g.tree.contains ⟨3⟩ && decide (g.definers.length ≤ 100)) (by decide +kernel)
  simp only [Bool.and_eq_true, decide_eq_true_eq] at passes
  obtain ⟨⟨load, reached⟩, limit⟩ := passes
  obtain ⟨same, again, agreed⟩ := refined_uses_match twoSlots_accepted lifetimes total {}
  obtain rfl := Except.ok.inj (built.symm.trans again)
  obtain ⟨g', refined, agrees, answers⟩ := agreed limit (.inl rfl)
  exact ⟨g, g', built, refined, limit, agrees,
    answers {} ⟨5⟩ _ ⟨9⟩ _ (eq_of_beq load) rfl rfl rfl (.inl rfl) reached⟩

end MemoryFlow.Walker
