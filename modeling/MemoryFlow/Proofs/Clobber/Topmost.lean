import MemoryFlow.Proofs.Clobber.Walker

/-! # Walkers answer with the topmost access

Of all the accesses that every route up comes to before it meets a clobber, the answer of a search
is the one above all others. What is not on the stack of the start can be missed on the way up
(`Linked.exists_route_missing`), and whatever lies above the answer on the stack is only met after a
clobber (`Linked.passable_of_cleanTo`), for else the search would have gone on above the answer.
-/

namespace MemoryFlow.Graph

variable {g : Graph} {p : Procedure} {o : Oracle} {q : Query} {entry : Block} {a c d start : Access}
  {n : Node} {l before after route : List Access}

namespace Linked

variable (h : g.Linked p entry)
include h

/-- Above a phi on a stack lies all that is defined in the blocks that properly dominate its
block. -/
theorem mem_of_dominates_phi (stack : g.Stack (c :: l)) (found : g.node? c = some n)
    (isPhi : n.isPhi = true) {m : Node} (foundD : g.node? d = some m) (notUse : m.isUse = false)
    (dom : Dominates g.flow.Edge entry m.block n.block) (apart : m.block ≠ n.block) : d ∈ l := by
  have reached := h.phi_reached found isPhi
  obtain ⟨tail, rfl, below⟩ := h.stack_phi stack found isPhi
  rw [h.stack_reachIn reached below]
  refine (h.stackOut_suffix_stackIn reached apart dom).subset ?_
  exact (h.mem_stackOut (dom.reaches reached)).mpr ⟨m, foundD, notUse, .refl⟩

theorem exists_route_missing (stack : g.Stack (a :: l)) (missing : d ∉ a :: l) :
    ∃ route, Route g.Above a .liveOnEntry route ∧ d ∉ route := by
  have listed : ∀ c ∈ a :: l, c ≠ d := fun c member same => missing (same ▸ member)
  obtain ⟨route, up, all⟩ := stack.exists_route listed fun phi member n found isPhi => by
    -- A way to the phi on which nothing is the block of `d`, for that does not properly dominate
    -- the phi.
    obtain ⟨way, arrives, kept⟩ : ∃ way, Route g.flow.Edge entry n.block (way ++ [n.block]) ∧
        ∀ m, g.node? d = some m → m.isUse = false → m.block ∉ way := by
      by_cases defined : ∃ m, g.node? d = some m ∧ m.isUse = false
      · obtain ⟨m, foundD, notUse⟩ := defined
        obtain ⟨way, arrives, kept⟩ :=
          Dominates.exists_way (a := m.block) (h.phi_reached found isPhi)
            fun dom => by
              by_contra apart
              obtain ⟨front, back, same⟩ := List.append_of_mem member
              have below :=
                h.mem_of_dominates_phi (same ▸ stack).suffix found isPhi foundD notUse dom apart
              exact missing (same ▸ List.mem_append_right _ (List.mem_cons_of_mem _ below))
        refine ⟨way, arrives, fun m' found' _ => ?_⟩
        rwa [← Option.some.inj (foundD.symm.trans found')]
      · obtain ⟨l, arrives⟩ := h.phi_reached found isPhi
        obtain ⟨way, rfl⟩ := arrives.ends
        exact ⟨way, arrives, fun m found' notUse => absurd ⟨m, found', notUse⟩ defined⟩
    obtain ⟨route, up, on⟩ := h.exists_route_of_way _ way phi n rfl arrives found isPhi
    refine ⟨_, up, List.forall_mem_cons.mpr ⟨listed phi member, ?_⟩⟩
    rintro c inside rfl
    obtain ⟨m, foundC, notUse, passed⟩ := on c inside
    exact kept m foundC notUse passed
  exact ⟨route, up, fun member => all d member rfl⟩

theorem route_meets (up : Route g.Above a d route) (stack : g.Stack (a :: l))
    (below : c :: after <:+ a :: l) (member : d ∈ after) : c ∈ route := by
  induction up generalizing l with
  | here a =>
      have distinct := h.nodup_stack stack
      rcases List.suffix_cons_iff.mp below with same | later
      · obtain ⟨rfl, rfl⟩ := List.cons_eq_cons.mp same
        exact List.mem_singleton_self c
      · have again := later.subset (List.mem_cons_of_mem c member)
        exact absurd again (List.nodup_cons.mp distinct).1
  | step first _ ih =>
      rcases List.suffix_cons_iff.mp below with same | later
      · rw [(List.cons_eq_cons.mp same).1]
        exact List.mem_cons_self
      · obtain ⟨l', stack', sub⟩ := h.stack_above stack first
        exact List.mem_cons_of_mem _ (ih stack' (later.trans sub) member)

theorem exists_route_to (stack : g.Stack (before ++ c :: after))
    (top : before ++ c :: after = a :: l) (member : d ∈ after) :
    ∃ front, Route g.Above a c (front ++ [c]) ∧ d ∉ front ++ [c] := by
  rw [top] at stack
  have below : c :: after <:+ a :: l := ⟨before, top⟩
  obtain ⟨route, up⟩ := h.exists_route stack
  obtain ⟨front, back, rfl, fresh⟩ :=
    List.eq_append_cons_of_mem (h.route_passes up stack (below.subset List.mem_cons_self))
  have apart : d ≠ c := by
    rintro rfl
    have distinct := (h.nodup_stack stack).sublist below.sublist
    exact (List.nodup_cons.mp distinct).1 member
  refine ⟨front, up.split.1, fun inside => ?_⟩
  have early := (List.mem_append.mp inside).resolve_right (by simpa using apart)
  obtain ⟨front', back', rfl⟩ := List.append_of_mem early
  rw [List.append_assoc, List.cons_append] at up
  have passes := h.route_meets up.split.1 stack below member
  refine fresh ?_
  rcases List.mem_append.mp passes with early | same
  · exact List.mem_append_left _ early
  · exact absurd (List.mem_singleton.mp same).symm apart

theorem cleanTo_of_meets (meets : g.Meets p o q a d) : g.CleanTo p o q d a := by
  rintro c route up missed ⟨n, found, isDefinition, clobbers⟩
  obtain ⟨_, stack⟩ := h.exists_stack found (n.isUse_of_isDefinition isDefinition)
  obtain ⟨rest, onward⟩ := h.exists_route stack
  obtain ⟨front, rfl⟩ := up.ends
  obtain ⟨tail, rfl⟩ := onward.begins
  obtain ⟨before, after, whole, _, silent⟩ := meets _ (up.join onward)
  have early : c ∈ before := by
    rw [List.append_cons] at whole
    rcases List.append_eq_append_iff.mp whole with ⟨between, same, _⟩ | ⟨between, same, rest⟩
    · rw [same]
      simp
    · cases between with
      | nil =>
          rw [List.append_nil] at same
          simp [← same]
      | cons x between =>
          obtain ⟨rfl, _⟩ := List.cons_eq_cons.mp rest
          exact absurd (same ▸ List.mem_append_right _ List.mem_cons_self) missed
  exact absurd (clobbers.symm.trans (silent c early n found isDefinition)) (by simp)

theorem passable_of_cleanTo (answers : o.Answers p q) (stack : g.Stack (before ++ c :: after))
    (top : before ++ c :: after = a :: l) (member : d ∈ after) (clean : g.CleanTo p o q d a) :
    g.Passable p o q c := by
  obtain ⟨front, up, missed⟩ := h.exists_route_to stack top member
  obtain ⟨n, found, notUse⟩ := h.kind_of_stack stack (List.mem_append_right _ List.mem_cons_self)
  cases isPhi : n.isPhi with
  | false =>
      exact .inl ((h.kills_or_silent answers found (n.isDefinition_of notUse isPhi)).resolve_left
        (clean c _ up missed))
  | true =>
      have ahead := stack.suffix
      obtain ⟨tail, rfl, _⟩ := h.stack_phi ahead found isPhi
      refine .inr ⟨n, found, isPhi, fun x route onward kept => ?_⟩
      obtain ⟨rest, rfl⟩ := onward.begins
      refine clean x _ (up.join onward) fun inside => ?_
      rcases List.mem_append.mp inside with early | late
      · exact missed (List.mem_append_left _ early)
      -- Coming to `d` from the phi means passing the phi's target, which is `d` or comes before it.
      · obtain ⟨pre, post, same⟩ := List.append_of_mem late
        rw [same] at onward kept
        rcases List.mem_cons.mp member with rfl | further
        · exact kept (List.mem_append_right _ List.mem_cons_self)
        · have passes := h.route_meets onward.split.1 ahead (List.suffix_cons c _) further
          refine kept ?_
          simp only [List.mem_append, List.mem_cons, List.not_mem_nil, or_false] at passes ⊢
          tauto

/-- The answer is above everything that every route up comes to before it meets a clobber. -/
theorem under_of_meets (answers : o.Answers p q) (stack : g.Stack (a :: l))
    (clobber : g.IsClobber p o q (a :: l) c) (meets : g.Meets p o q a d) : g.Under c d := by
  obtain ⟨before, after, whole, _, stops⟩ := clobber
  have listed : d ∈ a :: l := by
    by_contra missing
    obtain ⟨route, up, missed⟩ := h.exists_route_missing stack missing
    obtain ⟨front, back, rfl, _⟩ := meets route up
    exact missed (List.mem_append_right _ List.mem_cons_self)
  rw [whole] at stack listed
  rcases List.mem_append.mp listed with early | here
  · obtain ⟨front, back, rfl⟩ := List.append_of_mem early
    rw [List.append_assoc, List.cons_append] at stack
    exact ⟨_, stack.suffix, List.mem_cons_of_mem _ (List.mem_append_right _ List.mem_cons_self)⟩
  · rcases List.mem_cons.mp here with rfl | late
    · exact ⟨_, stack.suffix, List.mem_cons_self⟩
    · exact absurd (h.passable_of_cleanTo answers stack whole.symm late (h.cleanTo_of_meets meets))
        stops

end Linked

end MemoryFlow.Graph

namespace MemoryFlow.Walker

open MemoryFlow.Graph

/-- What a searching walker answers is sound and above every other sound answer, so a phi is the
answer only if it could not be looked through. -/
theorem answers_are_topmost {p : Procedure} {o : Oracle} {config : Config} {g : Graph}
    (accepted : p.Accepted) (plain : config.refineUses = false) (built : build p o config = .ok g)
    (w : Walker) {a : Access} {n : Node} {inst : Inst} {op : Op} {q : Query}
    (live : g.node? a = some n) (hasInst : n.inst? = some inst) (known : p.op inst = .ok op)
    (notFence : op.isFence = false) (varies : readsConstant p o inst = .ok false)
    (asks : Query.ofInst p inst = .ok q) (answers : o.Answers p q) :
    ∃ start c m w' g', n.defining? = some start ∧ w.clobberOf g p o a = .ok (c, w', g') ∧
      g.node? c = some m ∧
      (c = .liveOnEntry ∨ m.isDefinition = true ∧ g.clobbers p o c q = .ok true ∨ m.isPhi = true) ∧
      g.Meets p o q start c ∧
      ∀ c', g.Meets p o q start c' → ∃ g'', g'.ask (g'.dominates c c') = .ok (true, g'') := by
  obtain ⟨entry, _, h, uncached, settled, _⟩ := build_linked accepted plain built
  obtain ⟨start, l, c, effort, g', link, stack, _, clobber, answered, agrees, _, right, _⟩ :=
    h.clobberOf_eq (.of_empty settled) live hasInst (uncached.links a n live) known notFence
      varies asks answers
  obtain ⟨m, found, notUse⟩ := h.kind_of_stack stack clobber.mem
  refine ⟨start, c, m, w.after effort, g', link, ?_, found, ?_,
    h.meets_of_isClobber answers stack clobber, fun c' meets => ?_⟩
  · rw [clobberOf, answered]
    rfl
  · cases isPhi : m.isPhi with
    | true => exact .inr (.inr rfl)
    | false =>
        obtain ⟨_, _, _, clobbers⟩ := clobber.kills h answers found (m.isDefinition_of notUse isPhi)
        exact .inr (.inl ⟨m.isDefinition_of notUse isPhi, clobbers⟩)
  · obtain ⟨l', stack', member⟩ := h.under_of_meets answers stack clobber meets
    obtain ⟨_, found', _⟩ := h.kind_of_stack stack' List.mem_cons_self
    exact h.ask_dominates agrees right found' (.inl rfl) stack' member

/-- The load after the loop is answered with the store before it: the loop's phi is looked
through. -/
theorem answers_are_topmost_storeBeforeLoop :
    ∃ g n, build storeBeforeLoop byAddress { refineUses := false } = .ok g ∧ g.node? ⟨3⟩ = some n ∧
      ∃ start c m w' g', n.defining? = some start ∧
        clobberOf {} g storeBeforeLoop byAddress ⟨3⟩ = .ok (c, w', g') ∧ g.node? c = some m ∧
        (c = .liveOnEntry ∨ m.isDefinition = true ∧
            g.clobbers storeBeforeLoop byAddress c (.access ⟨5⟩ (some ⟨⟨0⟩, some 8⟩)) = .ok true ∨
          m.isPhi = true) ∧
        g.Meets storeBeforeLoop byAddress (.access ⟨5⟩ (some ⟨⟨0⟩, some 8⟩)) start c ∧
        ∀ c', g.Meets storeBeforeLoop byAddress (.access ⟨5⟩ (some ⟨⟨0⟩, some 8⟩)) start c' →
          ∃ g'', g'.ask (g'.dominates c c') = .ok (true, g'') := by
  obtain ⟨g, built, load⟩ :=
    exists_of_any (x := build storeBeforeLoop byAddress { refineUses := false })
      (P := fun g => g.node? ⟨3⟩ == some ⟨0, ⟨3⟩, .use ⟨5⟩ { defining := some ⟨4⟩ }, []⟩)
      (by decide +kernel)
  have live := eq_of_beq load
  exact ⟨g, _, built, live,
    answers_are_topmost storeBeforeLoop_accepted rfl built {} live rfl rfl rfl rfl
    rfl (by decide +kernel)⟩

end MemoryFlow.Walker
