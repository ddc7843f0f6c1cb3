import MemoryFlow.Proofs.Clobber.Walker
import MemoryFlow.Proofs.Graph.Execution

/-! # Answers hold on executions

Where phis are placed completely, the answer of a walker is seen on every execution that comes to
the access asked about, and after the answer was last seen nothing runs that clobbers the access.
-/

namespace MemoryFlow

theorem exists_of_filterMap_reverse {α β : Type} {f : α → Option β} {l : List α} {c : β}
    {X Y : List β} (same : (l.filterMap f).reverse = X ++ c :: Y) :
    ∃ before x after, l = before ++ x :: after ∧ f x = some c ∧ after.filterMap f = X.reverse := by
  have forward : l.filterMap f = Y.reverse ++ c :: X.reverse := by
    have twice := congrArg List.reverse same
    simpa using twice
  obtain ⟨front, back, rfl, _, kept⟩ := List.filterMap_eq_append_iff.mp forward
  obtain ⟨skipped, x, after, rfl, _, here, rest⟩ := List.filterMap_eq_cons_iff.mp kept
  exact ⟨front ++ skipped, x, after, by simp, here, rest⟩

namespace Graph

variable {g : Graph} {p : Procedure} {o : Oracle} {q : Query} {entry : Block} {a c : Access}
  {n m : Node} {inst : Inst}

theorem clobbersAccess_eq {d : Access} {k : Node} (found : g.node? a = some n)
    (hasInst : n.inst? = some inst) (asks : Query.ofInst p inst = .ok q)
    (foundD : g.node? d = some k) (isDefinition : k.isDefinition = true) :
    g.clobbersAccess p o d a = g.clobbers p o d q := by
  rw [clobbersAccess, node_eq foundD, ok_bind, isDefinition, node_eq found]
  simp only [ok_bind, hasInst, asks]
  rfl

/-- What every route up meets, every execution has seen. -/
theorem Linked.seen_on_execution (h : g.Linked p entry) (complete : g.Complete entry)
    (found : g.node? a = some n) (hasInst : n.inst? = some inst)
    (asks : Query.ofInst p inst = .ok q) {start : Access} (link : n.defining? = some start)
    (meets : g.Meets p o q start c) (foundC : g.node? c = some m) (notUse : m.isUse = false)
    {way : List Block} {earlier later : List Inst}
    (arrives : Route g.flow.Edge entry n.block (way ++ [n.block]))
    (place : p.layout.insts n.block = earlier ++ inst :: later) :
    ∃ before after, p.happens way n.block earlier = before ++ m.moment :: after ∧ m.moment ∉ after ∧
      ∀ d k i, g.node? d = some k → k.isDefinition = true → k.inst? = some i →
        .execute i ∈ after → g.clobbersAccess p o d a = .ok false := by
  have notPhi := n.isPhi_of_inst? hasInst
  have listed := h.accesses_around found hasInst place
  have link' := h.defined _ _ _ _ _ listed found notPhi
  have up := h.route_executed complete arrives listed found notPhi
  rw [← Option.some.inj (link.symm.trans link')] at up
  obtain ⟨X, Y, whole, fresh, silent⟩ := meets _ up
  have executed : ((p.happens way n.block earlier).filterMap g.definerAt).reverse =
      X ++ c :: Y := by
    rw [h.filterMap_happens, ← whole]
    simp
  obtain ⟨before, moment, after, same, here, rest⟩ := exists_of_filterMap_reverse executed
  have kept : ∀ d moment', moment' ∈ after → g.definerAt moment' = some d → d ∈ X := by
    intro d moment' member at'
    have inside : d ∈ after.filterMap g.definerAt := List.mem_filterMap.mpr ⟨moment', member, at'⟩
    rw [rest] at inside
    exact List.mem_reverse.mp inside
  obtain rfl := (h.definerAt_eq_some foundC notUse).mp here
  refine ⟨before, after, same, fun again => fresh (kept c _ again here), ?_⟩
  intro d k i foundD isDefinition hasI member
  have at' := (h.definerAt_eq_some foundD (k.isUse_of_isDefinition isDefinition)).mpr
    (k.moment_eq_execute.mpr hasI).symm
  rw [clobbersAccess_eq found hasInst asks foundD isDefinition]
  exact silent d (kept d _ member at') k foundD isDefinition

end Graph

namespace Walker

open MemoryFlow.Graph

/-- On every execution that comes to an access, the answer of a walker has happened, and nothing
that runs after it happened last clobbers the access. -/
theorem answers_hold_on_executions {p : Procedure} {o : Oracle} {config : Config} {g : Graph}
    {entry : Block} (accepted : p.Accepted) (plain : config.refineUses = false)
    (built : build p o config = .ok g) (first : p.entry = some entry) (complete : g.Complete entry)
    (w : Walker) {a : Access} {n : Node} {inst : Inst} {op : Op} {q : Query}
    (live : g.node? a = some n) (hasInst : n.inst? = some inst)
    (known : p.op inst = .ok op) (notFence : op.isFence = false)
    (varies : readsConstant p o inst = .ok false) (asks : Query.ofInst p inst = .ok q)
    (answers : o.Answers p q) :
    ∃ c m w' g', w.clobberOf g p o a = .ok (c, w', g') ∧ g.node? c = some m ∧
      ∀ way earlier later, Route (FlowGraph.ofProcedure p).Edge entry n.block (way ++ [n.block]) →
        p.layout.insts n.block = earlier ++ inst :: later →
        ∃ before after, p.happens way n.block earlier = before ++ m.moment :: after ∧
          m.moment ∉ after ∧ ∀ d k i, g.node? d = some k → k.isDefinition = true →
            k.inst? = some i → .execute i ∈ after → g.clobbersAccess p o d a = .ok false := by
  obtain ⟨entry', first', h, uncached, settled, flow⟩ := build_linked accepted plain built
  obtain rfl := Option.some.inj (first.symm.trans first')
  obtain ⟨start, l, c, effort, g', link, stack, _, clobber, answered, _⟩ := h.clobberOf_eq
    (.of_empty settled) live hasInst (uncached.links a n live) known notFence varies asks answers
  obtain ⟨m, foundC, notUse⟩ := h.kind_of_stack stack clobber.mem
  refine ⟨c, m, w.after effort, g', by rw [clobberOf, answered]; rfl, foundC, ?_⟩
  intro way earlier later arrives place
  rw [← flow] at arrives
  exact h.seen_on_execution complete live hasInst asks link
    (h.meets_of_isClobber answers stack clobber) foundC notUse arrives place

theorem storeBeforeLoop_complete {g : Graph} (h : g.Linked storeBeforeLoop ⟨0⟩)
    (flow : g.flow = .ofProcedure storeBeforeLoop) (phi : (g.phi? ⟨1⟩).isSome = true) :
    g.Complete ⟨0⟩ := by
  have edges : ∀ y z, g.flow.Edge y z →
      (y, z) ∈ [((⟨0⟩, ⟨1⟩) : Block × Block), (⟨1⟩, ⟨2⟩), (⟨1⟩, ⟨3⟩), (⟨2⟩, ⟨1⟩)] := by
    have all : ∀ y ∈ (FlowGraph.ofProcedure storeBeforeLoop).blocks,
        ∀ z ∈ (FlowGraph.ofProcedure storeBeforeLoop).succs y,
          (y, z) ∈ [((⟨0⟩, ⟨1⟩) : Block × Block), (⟨1⟩, ⟨2⟩), (⟨1⟩, ⟨3⟩), (⟨2⟩, ⟨1⟩)] := by decide
    rw [flow]
    exact fun y z edge => all y (FlowGraph.mem_blocks_of_edge edge) z edge
  have around : ∀ z : Block, z ≠ ⟨0⟩ → z ≠ ⟨1⟩ → ¬Dominates g.flow.Edge ⟨0⟩ z ⟨1⟩ := by
    intro z notEntry notHead dom
    have edge : g.flow.Edge ⟨0⟩ ⟨1⟩ := by
      rw [flow, FlowGraph.Edge]
      decide
    simpa [notEntry, notHead] using dom _ (.step edge (.here _))
  have apart : ∀ x z, g.flow.InFrontier ⟨0⟩ x z → z = ⟨1⟩ := by
    rintro x z leaves
    by_contra notHead
    obtain ⟨y, _, _, edge, _⟩ := id leaves
    have notEntry : z ≠ ⟨0⟩ := by
      rintro rfl
      simpa using edges y _ edge
    refine FlowGraph.not_inFrontier (y := ⟨1⟩) (fun c edge => ?_) notEntry
      (around z notEntry notHead) leaves
    have := edges c z edge
    simp only [List.mem_cons, Prod.mk.injEq, List.not_mem_nil, or_false] at this
    tauto
  intro b defines merges
  have head : b = ⟨1⟩ := by
    cases merges with
    | first _ leaves | next _ leaves => exact apart _ b leaves
  exact ((h.merges b).mp (head ▸ phi)).2 defines

theorem answers_hold_on_executions_storeBeforeLoop :
    ∃ g n c m w' g', build storeBeforeLoop byAddress { refineUses := false } = .ok g ∧
      g.Complete ⟨0⟩ ∧ g.node? ⟨3⟩ = some n ∧
      clobberOf {} g storeBeforeLoop byAddress ⟨3⟩ = .ok (c, w', g') ∧ g.node? c = some m ∧
      ∀ way earlier later,
        Route (FlowGraph.ofProcedure storeBeforeLoop).Edge ⟨0⟩ n.block (way ++ [n.block]) →
        storeBeforeLoop.layout.insts n.block = earlier ++ ⟨5⟩ :: later →
        ∃ before after, storeBeforeLoop.happens way n.block earlier = before ++ m.moment :: after ∧
          m.moment ∉ after ∧ ∀ d k i, g.node? d = some k → k.isDefinition = true →
            k.inst? = some i → .execute i ∈ after →
            g.clobbersAccess storeBeforeLoop byAddress d ⟨3⟩ = .ok false := by
  obtain ⟨g, built, passes⟩ :=
    exists_of_any (x := build storeBeforeLoop byAddress { refineUses := false })
      (P := fun g => g.node? ⟨3⟩ == some ⟨0, ⟨3⟩, .use ⟨5⟩ { defining := some ⟨4⟩ }, []⟩ &&
        (g.phi? ⟨1⟩).isSome) (by decide +kernel)
  rw [Bool.and_eq_true] at passes
  have live := eq_of_beq passes.1
  obtain ⟨entry, first, h, _, _, flow⟩ := build_linked storeBeforeLoop_accepted rfl built
  obtain rfl : ⟨0⟩ = entry := Option.some.inj first
  have complete := storeBeforeLoop_complete h flow passes.2
  obtain ⟨c, m, w', g', answered, found, holds⟩ :=
    answers_hold_on_executions storeBeforeLoop_accepted rfl
      built rfl complete {} live rfl rfl rfl rfl rfl (by decide +kernel)
  exact ⟨g, _, c, m, w', g', built, complete, live, answered, found, holds⟩

end Walker

end MemoryFlow
