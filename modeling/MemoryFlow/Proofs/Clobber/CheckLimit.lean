import MemoryFlow.Proofs.Clobber.Agreement

/-! # Refining under a check limit

A use for which too much would have to be looked at is passed over, and from then on its footprint
counts as looked at down to there without anything being known of it. What later uses of the
footprint are refined to may therefore come too early, but never too late: no clobber comes before
it, and what a walker answers without it is it or lies above it. A use that is passed over is left
to the walker.
-/

namespace MemoryFlow.Graph

variable {g g' : Graph} {p : Procedure} {o : Oracle} {q : Query} {entry : Block} {a c e : Access}
  {n : Node} {l : List Access} {inst : Inst}

theorem PassesTo.exists_suffix (passes : g.PassesTo p o q l c) (clobber : g.IsClobber p o q l e) :
    ∃ after, c :: after <:+ l ∧ e ∈ c :: after := by
  obtain ⟨before, after, rfl, passable⟩ := passes
  exact ⟨after, List.suffix_append before _, (clobber.of_append passable).mem⟩

namespace Linked

variable (h : g.Linked p entry)
include h

theorem clobberOf_agrees (total : o.Total p) (agrees : g.Agrees g') (right : g.Places g.order)
    (right' : g'.Places g'.order) (found : g.node? a = some n) (hasInst : n.inst? = some inst)
    (fresh : g.cached? a = none) (fresh' : g'.cached? a = none) :
    ∃ c effort effort' g₁ g₂, g.clobberOf p o a = .ok (c, effort, g₁) ∧
      g'.clobberOf p o a = .ok (c, effort', g₂) := by
  have notPhi := n.isPhi_of_inst? hasInst
  have placed := h.placed_inst found hasInst
  obtain ⟨op, known⟩ := h.orderly.exists_op placed
  obtain ⟨constant, told⟩ := total.constant inst placed
  obtain ⟨m, found', alike⟩ := agrees.read found
  have hasInst' := alike.inst?.trans hasInst
  rw [cached?_eq found] at fresh
  rw [cached?_eq found'] at fresh'
  cases isFence : op.isFence with
  | true =>
      exact ⟨_, _, _, _, _, clobberOf_fence found hasInst fresh known isFence,
        clobberOf_fence found' hasInst' fresh' known isFence⟩
  | false =>
      cases constant with
      | true =>
          obtain ⟨g₁, cached, _⟩ := cache_agrees found notPhi .liveOnEntry
          obtain ⟨g₂, cached', _⟩ := cache_agrees found' (alike.isPhi.trans notPhi) .liveOnEntry
          exact ⟨_, _, _, _, _, clobberOf_constant found hasInst fresh known isFence told cached,
            clobberOf_constant found' hasInst' fresh' known isFence told cached'⟩
      | false =>
          have asks := ofInst_eq known
          have answers := total.answers inst placed _ asks
          obtain ⟨start, l, c, effort, g₁, link, stack, _, clobber, answered, _⟩ :=
            h.clobberOf_eq right found hasInst fresh known isFence told asks answers
          obtain ⟨start', l', c', effort', g₂, link', stack', _, clobber', answered', _⟩ :=
            (agrees.linked h).clobberOf_eq right' found' hasInst' fresh' known isFence told
              asks answers
          obtain rfl := Option.some.inj (link.symm.trans (alike.defining?.symm.trans link'))
          obtain rfl := h.stack_unique stack (agrees.symm.stack stack')
          obtain rfl := clobber.unique (agrees.symm.same_isClobber clobber')
          exact ⟨c, effort, effort', g₁, g₂, answered, answered'⟩

/-- What a use is refined to lies between the use and what the use observes. -/
theorem dominates_refined (agrees : g.Agrees g') (right : g'.Places g'.order)
    (found : g.node? a = some n) (hasInst : n.inst? = some inst)
    (varies : readsConstant p o inst = .ok false)
    (refines : Refinement.Refines g p o a c) (observes : g.Observes p o a e) :
    ∃ q start g₁ g₂, Query.ofInst p inst = .ok q ∧ n.defining? = some start ∧
      g'.ask (g'.dominates c a) = .ok (true, g₁) ∧ g.CleanTo p o q c start ∧
      g'.ask (g'.dominates e c) = .ok (true, g₂) := by
  obtain ⟨inst', f, reads, refines⟩ := refines
  obtain ⟨m, op, found', _, hasInst', known, footprint⟩ := id reads
  obtain rfl := Option.some.inj (found.symm.trans found')
  obtain rfl := Option.some.inj (hasInst.symm.trans hasInst')
  rcases refines with ⟨constant, _⟩ | ⟨_, m, start, l, found', link, stack, finds⟩
  · exact absurd (constant.symm.trans varies) (by simp)
  · obtain rfl := Option.some.inj (found.symm.trans found')
    obtain ⟨start', _, link', _, precedes⟩ := h.exists_defining found hasInst
    obtain rfl := Option.some.inj (link.symm.trans link')
    -- Both are on the stack of the defining access, and only what is passed over comes before the
    -- one found.
    have clobber := (h.observes_iff reads varies found link stack).mp observes
    obtain ⟨after, ⟨before, whole⟩, member⟩ := finds.passes.exists_suffix clobber
    have above : c ∈ start :: l := whole ▸ List.mem_append_right _ List.mem_cons_self
    have stack' : g.Stack (c :: after) := (whole ▸ stack).suffix
    obtain ⟨k, foundC, _⟩ := h.kind_of_stack stack' List.mem_cons_self
    obtain ⟨g₁, dominates⟩ := h.ask_dominates agrees right found (.inr precedes) stack above
    obtain ⟨g₂, dominated⟩ := h.ask_dominates agrees right foundC (.inl rfl) stack' member
    exact ⟨f.query inst, start, g₁, g₂, (asks_footprint known footprint).1, link, dominates,
      finds.passes.cleanTo h stack, dominated⟩

end Linked

end MemoryFlow.Graph

namespace MemoryFlow.Walker

open MemoryFlow.Graph MemoryFlow.Refinement

/-- However few definitions may be looked at for a use, building with the uses refined caches no
clobber that comes too late: what is cached for a use of what may be written dominates the use, no
route up from its defining access meets a clobber before, and it is dominated by what a walker
answers on the graph built without. For a use without a cached clobber the walker answers the same
on both graphs. Uses of one footprint must be clobbered alike, as they are when the oracle reasons
by objects. -/
theorem refined_uses_are_conservative {p : Procedure} {o : Oracle} (accepted : p.Accepted)
    (lifetimes : p.EndsNoLifetime) (total : o.Total p) (config : Config) :
    ∃ g g', build p o { config with refineUses := false } = .ok g ∧
      build p o { config with refineUses := true } = .ok g' ∧ g.Agrees g' ∧
      (o = .byObject ∨ g.Uniform p o → ∀ (w : Walker) a n inst, g.node? a = some n →
        n.isUse = true → n.inst? = some inst → ∃ e w₁ g₁, w.clobberOf g p o a = .ok (e, w₁, g₁) ∧
          (g'.cached? a = none → ∃ w₂ g₂, w.clobberOf g' p o a = .ok (e, w₂, g₂)) ∧
          ∀ c, g'.cached? a = some c → readsConstant p o inst = .ok false →
            ∃ q start g₂ g₃, Query.ofInst p inst = .ok q ∧ n.defining? = some start ∧
              g'.ask (g'.dominates c a) = .ok (true, g₂) ∧ g.CleanTo p o q c start ∧
              g'.ask (g'.dominates e c) = .ok (true, g₃)) := by
  obtain ⟨entry, base, _, h, kinds, uncached, settled, _, builds⟩ :=
    exists_base accepted total.classifies
  let g : Graph := { base with config := { config with refineUses := false } }
  let start : Graph := { base with config := { config with refineUses := true } }
  have agrees : g.Agrees start := g.agrees_configured _ _
  have h : g.Linked p entry := (base.agrees_configured _ _).linked h
  have right : g.Places g.order := .of_empty settled
  obtain ⟨g', refined, kept, right', refines, _⟩ := refineUses_total (g := start) (agrees.linked h)
    (answersAll h.orderly total lifetimes) right ⟨uncached.index, uncached.links⟩
  refine ⟨g, g', (builds _ g).mpr rfl, (builds _ g').mpr refined, agrees.trans kept, ?_⟩
  intro uniform w a n inst found isUse hasInst
  have uniform : g.Uniform p o := uniform.elim (fun same => by
    subst same
    exact uniform_byObject kinds) id
  have fresh : g.cached? a = none := (cached?_eq found).trans (uncached.links a n found)
  have after : ∀ {g₀ : Graph} {e effort g₁}, g₀.clobberOf p o a = .ok (e, effort, g₁) →
      w.clobberOf g₀ p o a = .ok (e, w.after effort, g₁) := by
    intro g₀ e effort g₁ answered
    rw [clobberOf, answered]
    rfl
  cases cached : g'.cached? a with
  | none =>
      obtain ⟨e, effort, effort', g₁, g₂, answered, answered'⟩ :=
        h.clobberOf_agrees total (agrees.trans kept) right right' found hasInst fresh cached
      exact ⟨e, _, g₁, after answered, fun _ => ⟨_, g₂, after answered'⟩, by simp⟩
  | some c =>
      have refines := refines ⟨lifetimes, uniform⟩ a c cached
      obtain ⟨_, _, reads, _⟩ := id refines
      obtain ⟨e, effort, g₁, answered, observes, _⟩ := h.clobberOf_observes right total reads fresh
      refine ⟨e, _, g₁, after answered, by simp, fun d same varies => ?_⟩
      cases same
      exact (agrees.linked h).dominates_refined kept right' found hasInst varies refines
        (agrees.observes observes)

/-- If one definition may be looked at, the load in the loop is refined to the loop's phi, although
the store before the loop clobbers it, and the load after the loop is left to the walker. -/
theorem refined_uses_are_conservative_twoSlots :
    twoSlots.EndsNoLifetime ∧ Oracle.Total .byObject twoSlots ∧
    ∃ g g', build twoSlots .byObject { refineUses := false, checkLimit := 1 } = .ok g ∧
      build twoSlots .byObject { refineUses := true, checkLimit := 1 } = .ok g' ∧
      g'.cached? ⟨4⟩ = some ⟨6⟩ ∧ g'.cached? ⟨5⟩ = none ∧
      (∃ w₁ g₁ g₂ g₃, clobberOf {} g twoSlots .byObject ⟨4⟩ = .ok (⟨1⟩, w₁, g₁) ∧
        g'.ask (g'.dominates ⟨6⟩ ⟨4⟩) = .ok (true, g₂) ∧
        g.CleanTo twoSlots .byObject (.access ⟨7⟩ (some ⟨⟨0⟩, some 8⟩)) ⟨6⟩ ⟨3⟩ ∧
        g'.ask (g'.dominates ⟨1⟩ ⟨6⟩) = .ok (true, g₃)) ∧
      ∃ e w₁ g₁ w₂ g₂, clobberOf {} g twoSlots .byObject ⟨5⟩ = .ok (e, w₁, g₁) ∧
        clobberOf {} g' twoSlots .byObject ⟨5⟩ = .ok (e, w₂, g₂) := by
  have lifetimes : twoSlots.EndsNoLifetime := by decide +kernel
  have total : Oracle.Total .byObject twoSlots := by decide +kernel
  obtain ⟨g, g', built, refined, _, bounds⟩ :=
    refined_uses_are_conservative twoSlots_accepted lifetimes total { checkLimit := 1 }
  refine ⟨lifetimes, total, g, g', built, refined, ?_⟩
  obtain ⟨same, again, passes⟩ := exists_of_any
    (x := build twoSlots .byObject { refineUses := false, checkLimit := 1 })
    (P := fun g => g.node? ⟨4⟩ == some ⟨0, ⟨2⟩, .use ⟨7⟩ { defining := some ⟨3⟩ }, []⟩ &&
      g.node? ⟨5⟩ == some ⟨0, ⟨3⟩, .use ⟨9⟩ { defining := some ⟨6⟩ }, []⟩ &&
      (clobberOf {} g twoSlots .byObject ⟨4⟩).toOption.any (·.1 == ⟨1⟩)) (by decide +kernel)
  obtain rfl := Except.ok.inj (built.symm.trans again)
  obtain ⟨same, again, caches⟩ := exists_of_any
    (x := build twoSlots .byObject { refineUses := true, checkLimit := 1 })
    (P := fun g => g.cached? ⟨4⟩ == some ⟨6⟩ && g.cached? ⟨5⟩ == none) (by decide +kernel)
  obtain rfl := Except.ok.inj (refined.symm.trans again)
  simp only [Bool.and_eq_true, beq_iff_eq] at passes caches
  obtain ⟨⟨inLoop, behind⟩, first⟩ := passes
  obtain ⟨cached, left⟩ := caches
  refine ⟨cached, left, ?_, ?_⟩
  · obtain ⟨e, w₁, g₁, answered, _, between⟩ := bounds (.inl rfl) {} ⟨4⟩ _ ⟨7⟩ inLoop rfl rfl
    rw [answered] at first
    obtain rfl := eq_of_beq first
    obtain ⟨q, start, g₂, g₃, asks, link, rest⟩ := between ⟨6⟩ cached rfl
    cases asks
    cases link
    exact ⟨w₁, g₁, g₂, g₃, answered, rest⟩
  · obtain ⟨e, w₁, g₁, answered, alike, _⟩ := bounds (.inl rfl) {} ⟨5⟩ _ ⟨9⟩ behind rfl rfl
    obtain ⟨w₂, g₂, answered'⟩ := alike left
    exact ⟨e, w₁, g₁, w₂, g₂, answered, answered'⟩

end MemoryFlow.Walker
