import MemoryFlow.Clobber.Walker
import MemoryFlow.Proofs.Clobber.Audit
import MemoryFlow.Proofs.Graph.Build

/-! # Walkers answer soundly

On a graph built without finding the clobbers of uses, the searching walker answers every query
about an instruction other than a fence. The answer dominates the access asked about, and every
route up to memory on entry comes to it before any definition that clobbers the query.
-/

namespace MemoryFlow.Graph

variable {g : Graph} {p : Procedure} {o : Oracle} {q : Query} {entry : Block}
  {a c start bottom : Access} {n : Node} {l : List Access}

/-- Whether every route up from `start` comes to `c`, and meets no clobber before. -/
def Meets (g : Graph) (p : Procedure) (o : Oracle) (q : Query) (start c : Access) : Prop :=
  ∀ route, Route g.Above start .liveOnEntry route → ∃ before after, route = before ++ c :: after ∧
    c ∉ before ∧ ∀ d ∈ before, ∀ n, g.node? d = some n → n.isDefinition = true →
      g.clobbers p o d q = .ok false

namespace Linked

variable (h : g.Linked p entry)
include h

theorem meets_of_isClobber (answers : o.Answers p q) (stack : g.Stack (a :: l))
    (clobber : g.IsClobber p o q (a :: l) c) : g.Meets p o q a c := by
  intro route up
  obtain ⟨before, after, rfl, fresh⟩ :=
    List.eq_append_cons_of_mem (h.route_passes up stack clobber.mem)
  refine ⟨before, after, rfl, fresh, fun d member n found isDefinition => ?_⟩
  obtain ⟨front, back, rfl⟩ := List.append_of_mem member
  rw [List.append_assoc, List.cons_append] at up
  have missed : c ∉ front ++ [d] := fun inside => fresh (by
    rcases List.mem_append.mp inside with early | same
    · exact List.mem_append_left _ early
    · rw [List.mem_singleton.mp same]
      exact List.mem_append_right _ List.mem_cons_self)
  have survives := clobber.passesTo.cleanTo h stack d _ up.split.1 missed
  obtain ⟨_, _, _, answer⟩ := (h.kills_or_silent answers found isDefinition).resolve_left survives
  exact answer

/-- A search answers with the first access on the stack that is not passed over. -/
theorem searchUp_yields (answers : o.Answers p q) (stack : g.Stack (a :: l)) :
    ∃ c effort, g.Yields (g.searchUp p o q a) (c, effort) ∧ g.IsClobber p o q (a :: l) c := by
  obtain ⟨before, y, after, stop, whole, walked, passed, stops⟩ :=
    h.walkUp_stops answers none stack (h.length_lt_walkBound stack)
  have front : ∀ z ∈ before, g.Passable p o q z := fun z inside => .inl (passed z inside).2
  rw [searchUp, whole]
  cases stop with
  | clobber y =>
      obtain ⟨rfl, _, kills⟩ := stops
      exact ⟨y, .chain, .lift walked (.pure _),
        .append front ⟨[], after, rfl, by simp, kills.not_passable⟩⟩
  | phi y =>
      obtain ⟨rfl, _, m, found, isPhi⟩ := stops
      have stack' := (whole ▸ stack).suffix
      obtain ⟨c, yields, clobber⟩ := h.lookThrough_yields answers g.walkBound 0 y m after
        { paused := [[]] } stack' found isPhi (h.length_lt_walkBound stack') rfl (by simp)
        List.nodup_nil (by simp) (by simp)
      exact ⟨c, .phis, .lift walked (.bind yields (.pure _)), clobber.append front⟩
  | target => cases stops

theorem findClobber_yields (answers : o.Answers p q) (first : g.bottomOf start = .ok a)
    (stack : g.Stack (a :: l)) : ∃ c effort, g.Yields (g.findClobber p o q start) (c, effort) ∧
      g.IsClobber p o q (a :: l) c := by
  obtain ⟨c, effort, searched, clobber⟩ := h.searchUp_yields answers stack
  refine ⟨c, effort, ?_, clobber⟩
  rw [findClobber]
  refine .lift first (.bind searched ?_)
  cases g.config.auditClobbers with
  | true => exact .bind (h.audit_yields answers stack clobber) (.pure _)
  | false => exact .pure _

end Linked

theorem bottomOf_use (found : g.node? start = some n) (isUse : n.isUse = true)
    (link : n.defining? = some a) : g.bottomOf start = .ok a := by
  rw [bottomOf, node_eq found, ok_bind]
  obtain ⟨_, _, role, _⟩ := n
  cases role with
  | use inst linked =>
      have above : linked.defining = some a := link
      dsimp only
      rw [above]
      rfl
  | definition | phi => cases isUse

theorem bottomOf_self (found : g.node? start = some n) (notUse : n.isUse = false) :
    g.bottomOf start = .ok start := by
  rw [bottomOf, node_eq found, ok_bind]
  obtain ⟨_, _, role, _⟩ := n
  cases role with
  | use => cases notUse
  | definition | phi => rfl

theorem bottomOf_cases (found : g.node? start = some n) (notPhi : n.isPhi = false)
    (first : g.bottomOf start = .ok a) :
    n.isDefinition = true ∧ a = start ∨ n.isUse = true ∧ n.defining? = some a := by
  rw [bottomOf, node_eq found, ok_bind] at first
  obtain ⟨_, _, role, _⟩ := n
  cases role with
  | definition => exact .inl ⟨rfl, (Except.ok.inj first).symm⟩
  | use inst linked =>
      dsimp only at first
      cases link : linked.defining with
      | none =>
          rw [link] at first
          cases first
      | some above =>
          rw [link] at first
          exact .inr ⟨rfl, link.trans (congrArg some (Except.ok.inj first))⟩
  | phi => cases notPhi

theorem clobberOf_fence {inst : Inst} {op : Op} (found : g.node? a = some n)
    (hasInst : n.inst? = some inst) (fresh : n.cached? = none) (known : p.op inst = .ok op)
    (isFence : op.isFence = true) : g.clobberOf p o a = .ok (a, .none, g) := by
  rw [clobberOf, node_eq found, ok_bind, hasInst, fresh]
  simp only [known, ok_bind, isFence, if_true]
  rfl

theorem clobberOf_constant {g' : Graph} {inst : Inst} {op : Op} (found : g.node? a = some n)
    (hasInst : n.inst? = some inst) (fresh : n.cached? = none) (known : p.op inst = .ok op)
    (notFence : op.isFence = false) (constant : readsConstant p o inst = .ok true)
    (cached : g.cache a .liveOnEntry = .ok g') :
    g.clobberOf p o a = .ok (.liveOnEntry, .none, g') := by
  rw [clobberOf, node_eq found, ok_bind, hasInst, fresh]
  simp only [known, ok_bind, notFence, constant, cached, Bool.false_eq_true, if_false, if_true]
  rfl

theorem clobberOf_uncached {inst : Inst} {op : Op} (found : g.node? a = some n)
    (hasInst : n.inst? = some inst) (fresh : n.cached? = none) (known : p.op inst = .ok op)
    (notFence : op.isFence = false) (varies : readsConstant p o inst = .ok false)
    (asks : Query.ofInst p inst = .ok q) (link : n.defining? = some start) :
    g.clobberOf p o a = if start = .liveOnEntry then
        (g.cache a start).map fun g => (start, .none, g)
      else g.ask (g.findClobber p o q start) >>= fun found =>
        (found.2.cache a found.1.1).map fun g => (found.1.1, found.1.2, g) := by
  rw [clobberOf, node_eq found, ok_bind, hasInst, fresh]
  simp only [known, ok_bind, notFence, varies, link, asks, Option.getD_some,
    Bool.false_eq_true, if_false]
  split
  · cases g.cache a start <;> rfl
  · cases g.ask (g.findClobber p o q start) with
    | error => rfl
    | ok found => cases found.2.cache a found.1.1 <;> rfl

namespace Linked

variable (h : g.Linked p entry)
include h

theorem exists_defining {inst : Inst} (found : g.node? a = some n) (hasInst : n.inst? = some inst) :
    ∃ start l, n.defining? = some start ∧ g.Stack (start :: l) ∧ g.Over entry start a := by
  have other := h.ne_liveOnEntry (outline?_eq found) (.inr (by simp [hasInst]))
  obtain ⟨before, after, place⟩ := List.append_of_mem (h.mem_accesses.mpr ⟨other, n, found, rfl⟩)
  have notPhi := n.isPhi_of_inst? hasInst
  have link := h.defined _ _ _ _ _ place found notPhi
  have precedes := h.holdsAfter_over place
  by_cases reached : g.tree.contains n.block = true
  · obtain ⟨l, same⟩ := exists_stack_tail reached before
    exact ⟨_, l, link, same ▸ h.stack_holdsAfter reached place, precedes⟩
  · rw [holdsAfter_unreached (by simpa using reached)] at link precedes
    exact ⟨_, [], link, .entry, precedes⟩

theorem ask_dominates {g' : Graph} (agrees : g.Agrees g') (right : g'.Places g'.order)
    (found : g.node? a = some n) (precedes : start = a ∨ g.Over entry start a)
    (stack : g.Stack (start :: l)) (member : c ∈ start :: l) :
    ∃ g'', g'.ask (g'.dominates c a) = .ok (true, g'') := by
  have h' := agrees.linked h
  obtain ⟨m, found', _⟩ := agrees.read found
  have yields : g'.Yields (g'.dominates c a) true := by
    rcases precedes with rfl | precedes
    · exact h'.dominates_of_stack (agrees.stack stack) member
    · have precedes' := agrees.keeps_over precedes
      refine (h'.dominates_over ?_ (by rw [found']; rfl)).1
      rcases List.mem_cons.mp member with rfl | later
      · exact precedes'
      · exact (h'.over_of_stack (agrees.stack stack) later).trans precedes'
  obtain ⟨order, asked, _⟩ := yields.ask right
  exact ⟨_, asked⟩

theorem clobberOf_eq (right : g.Places g.order) {inst : Inst} {op : Op} (found : g.node? a = some n)
    (hasInst : n.inst? = some inst) (fresh : n.cached? = none) (known : p.op inst = .ok op)
    (notFence : op.isFence = false) (varies : readsConstant p o inst = .ok false)
    (asks : Query.ofInst p inst = .ok q) (answers : o.Answers p q) :
    ∃ start l c effort g', n.defining? = some start ∧ g.Stack (start :: l) ∧ g.Over entry start a ∧
      g.IsClobber p o q (start :: l) c ∧ g.clobberOf p o a = .ok (c, effort, g') ∧ g.Agrees g' ∧
      g'.config = g.config ∧ g'.Places g'.order ∧
      ∀ x, g'.cached? x = if x = a then some c else g.cached? x := by
  obtain ⟨start, l, link, stack, precedes⟩ := h.exists_defining found hasInst
  have notPhi := n.isPhi_of_inst? hasInst
  have begins := clobberOf_uncached found hasInst fresh known notFence varies asks link
  by_cases isEntry : start = .liveOnEntry
  · subst isEntry
    obtain rfl := h.stack_unique stack .entry
    obtain ⟨g', cached, agrees, config, order, answer⟩ := cache_agrees found notPhi .liveOnEntry
    refine ⟨_, _, .liveOnEntry, .none, g', link, stack, precedes,
      ⟨[], [], rfl, by simp, h.kills_entry.not_passable⟩, ?_, agrees, config, ?_, answer⟩
    · rw [begins, if_pos rfl, cached]
      rfl
    · rw [order]
      exact agrees.places right
  · obtain ⟨m, foundS, notUse⟩ := h.kind_of_stack stack List.mem_cons_self
    obtain ⟨c, effort, yields, clobber⟩ :=
      h.findClobber_yields answers (bottomOf_self foundS notUse) stack
    obtain ⟨order, asked, right⟩ := yields.ask right
    obtain ⟨g', cached, agrees, config, order', answer⟩ :=
      cache_agrees (g := { g with order }) found notPhi c
    refine ⟨start, l, c, effort, g', link, stack, precedes, clobber, ?_,
      (g.agrees_configured g.config order).trans agrees, config, ?_, answer⟩
    · rw [begins, if_neg isEntry, asked, ok_bind, cached]
      rfl
    · rw [order']
      exact agrees.places right

theorem clobberAt_eq (right : g.Places g.order) {loc : Location} (found : g.node? a = some n)
    (notPhi : n.isPhi = false)
    (notFence : ∀ inst op, n.inst? = some inst → p.op inst = .ok op → op.isFence = false)
    (answers : o.Answers p (.location loc)) :
    ∃ start l c effort g', g.bottomOf a = .ok start ∧ g.Stack (start :: l) ∧
      (start = a ∨ g.Over entry start a) ∧ g.IsClobber p o (.location loc) (start :: l) c ∧
      g.clobberAt p o a loc = .ok (c, effort, g') ∧ g.Agrees g' ∧ g'.Places g'.order := by
  cases hasInst : n.inst? with
  | none =>
      obtain rfl := (h.only a _ (outline?_eq found) (by simpa using hasInst)).resolve_left
        (by simp [notPhi])
      refine ⟨_, [], _, .none, g, bottomOf_self found (h.entry_kind found).2, .entry, .inl rfl,
        ⟨[], [], rfl, by simp, h.kills_entry.not_passable⟩, ?_, .refl, right⟩
      rw [clobberAt, node_eq found, ok_bind, hasInst]
      rfl
  | some inst =>
      have placed := h.placed a n.outline inst (outline?_eq found) (by simpa using hasInst)
      obtain ⟨op, known⟩ := h.orderly.exists_op (h.orderly.mem_allInsts placed)
      obtain ⟨start, l, first, stack, precedes⟩ : ∃ start l, g.bottomOf a = .ok start ∧
          g.Stack (start :: l) ∧ (start = a ∨ g.Over entry start a) := by
        cases isUse : n.isUse with
        | true =>
            obtain ⟨start, l, link, stack, precedes⟩ := h.exists_defining found hasInst
            exact ⟨start, l, bottomOf_use found isUse link, stack, .inr precedes⟩
        | false =>
            obtain ⟨l, stack⟩ := h.exists_stack found isUse
            exact ⟨a, l, bottomOf_self found isUse, stack, .inl rfl⟩
      obtain ⟨c, effort, yields, clobber⟩ := h.findClobber_yields answers first stack
      obtain ⟨order, asked, right⟩ := yields.ask right
      refine ⟨start, l, c, effort, _, first, stack, precedes, clobber, ?_,
        g.agrees_configured g.config order, right⟩
      rw [clobberAt, node_eq found, ok_bind, hasInst]
      simp only [known, ok_bind, notFence inst op hasInst known, asked]
      rfl

end Linked

end MemoryFlow.Graph

namespace MemoryFlow.Walker

open MemoryFlow.Graph

/-- What a searching walker answers on a graph built without finding the clobbers of uses. An access
is searched from its defining access; a location is searched from a definition itself, and from the
defining access of a use. Only a fence is its own answer, whichever kind of access it is. -/
theorem answers_meet_routes {p : Procedure} {o : Oracle} {config : Config} {g : Graph}
    (accepted : p.Accepted) (plain : config.refineUses = false) (built : build p o config = .ok g)
    (w : Walker) {a : Access} {n : Node} (live : g.node? a = some n) :
    (∀ inst op q, n.inst? = some inst → p.op inst = .ok op → op.isFence = false →
      readsConstant p o inst = .ok false → Query.ofInst p inst = .ok q → o.Answers p q →
      ∃ start c w' g' g'', n.defining? = some start ∧ w.clobberOf g p o a = .ok (c, w', g') ∧
        g'.ask (g'.dominates c a) = .ok (true, g'') ∧ g.Meets p o q start c) ∧
    (∀ loc, n.isPhi = false →
      (∀ inst op, n.inst? = some inst → p.op inst = .ok op → op.isFence = false) →
      o.Answers p (.location loc) →
      ∃ start c w' g' g'',
        (n.isDefinition = true ∧ start = a ∨ n.isUse = true ∧ n.defining? = some start) ∧
        w.clobberAt g p o a loc = .ok (c, w', g') ∧ g'.ask (g'.dominates c a) = .ok (true, g'') ∧
        g.Meets p o (.location loc) start c) ∧
    ∀ loc inst op, n.inst? = some inst → p.op inst = .ok op → op.isFence = true →
      w.clobberAt g p o a loc = .ok (a, w, g) := by
  obtain ⟨entry, _, h, uncached, settled, _⟩ := build_linked accepted plain built
  have right : g.Places g.order := .of_empty settled
  refine ⟨?_, ?_, ?_⟩
  · intro inst op q hasInst known notFence varies asks answers
    obtain ⟨start, l, c, effort, g', link, stack, precedes, clobber, answered, agrees,
      _, right', _⟩ :=
      h.clobberOf_eq right live hasInst (uncached.links a n live) known notFence varies asks answers
    obtain ⟨g'', dominates⟩ := h.ask_dominates agrees right' live (.inr precedes) stack clobber.mem
    refine ⟨start, c, w.after effort, g', g'', link, ?_, dominates,
      h.meets_of_isClobber answers stack clobber⟩
    rw [clobberOf, answered]
    rfl
  · intro loc notPhi notFence answers
    obtain ⟨start, l, c, effort, g', first, stack, precedes, clobber, answered, agrees, right'⟩ :=
      h.clobberAt_eq right live notPhi notFence answers
    obtain ⟨g'', dominates⟩ := h.ask_dominates agrees right' live precedes stack clobber.mem
    refine ⟨start, c, w.after effort, g', g'', bottomOf_cases live notPhi first, ?_, dominates,
      h.meets_of_isClobber answers stack clobber⟩
    rw [clobberAt, answered]
    rfl
  · intro loc inst op hasInst known isFence
    rw [clobberAt, Graph.clobberAt, node_eq live, ok_bind, hasInst]
    simp only [known, ok_bind, isFence]
    rfl

/-- A store to one address, a loop that stores to another, and a load from the first. -/
def storeBeforeLoop : Procedure where
  name := "loop"
  params := [⟨0⟩, ⟨1⟩]
  blockNames := #[none, none, none, none]
  insts := #[⟨.store ⟨0⟩ ⟨1⟩ 8 ⟨false, false, .notAtomic⟩, none⟩, ⟨.jump ⟨1⟩, none⟩,
    ⟨.branch ⟨1⟩ ⟨2⟩ ⟨3⟩, none⟩, ⟨.store ⟨1⟩ ⟨0⟩ 8 ⟨false, false, .notAtomic⟩, none⟩,
    ⟨.jump ⟨1⟩, none⟩, ⟨.load ⟨0⟩ 8 ⟨false, false, .notAtomic⟩, some ⟨2⟩⟩, ⟨.ret (some ⟨2⟩), none⟩]
  values := #[.parameter 0, .parameter 1, .result ⟨5⟩]
  layout := .ofRows [⟨⟨0⟩, [⟨0⟩, ⟨1⟩]⟩, ⟨⟨1⟩, [⟨2⟩]⟩, ⟨⟨2⟩, [⟨3⟩, ⟨4⟩]⟩, ⟨⟨3⟩, [⟨5⟩, ⟨6⟩]⟩]

theorem storeBeforeLoop_accepted : storeBeforeLoop.Accepted :=
  ⟨⟨storeBeforeLoop, some ⟨3⟩⟩,
    .append (.ret (some ⟨2⟩)) (.append (.load ⟨0⟩ 8 ⟨false, false, .notAtomic⟩) (.select ⟨3⟩
      (.append (.jump ⟨1⟩) (.append (.store ⟨1⟩ ⟨0⟩ 8 ⟨false, false, .notAtomic⟩) (.select ⟨2⟩
        (.append (.branch ⟨1⟩ ⟨2⟩ ⟨3⟩) (.select ⟨1⟩
          (.append (.jump ⟨1⟩) (.append (.store ⟨0⟩ ⟨1⟩ 8 ⟨false, false, .notAtomic⟩) (.select ⟨0⟩
            (.addBlock none (.addBlock none (.addBlock none (.addBlock none
              (.addParam (.addParam (.start "loop"))) rfl) rfl) rfl) rfl)) rfl) rfl)) rfl)) rfl)
      rfl)) rfl) rfl, rfl⟩

/-- The oracle for which two locations meet only if they start at one address. -/
def byAddress : Oracle where
  overlap _ a b := pure (if a.ptr = b.ptr then .same else .disjoint)

theorem answers_meet_routes_storeBeforeLoop :
    ∃ g n, build storeBeforeLoop byAddress { refineUses := false } = .ok g ∧ g.node? ⟨3⟩ = some n ∧
      (∃ start c w' g' g'', n.defining? = some start ∧
        clobberOf {} g storeBeforeLoop byAddress ⟨3⟩ = .ok (c, w', g') ∧
        g'.ask (g'.dominates c ⟨3⟩) = .ok (true, g'') ∧
        g.Meets storeBeforeLoop byAddress (.access ⟨5⟩ (some ⟨⟨0⟩, some 8⟩)) start c) ∧
      ∃ start c w' g' g'', (n.isDefinition = true ∧ start = ⟨3⟩ ∨
          n.isUse = true ∧ n.defining? = some start) ∧
        clobberAt {} g storeBeforeLoop byAddress ⟨3⟩ ⟨⟨1⟩, some 8⟩ = .ok (c, w', g') ∧
        g'.ask (g'.dominates c ⟨3⟩) = .ok (true, g'') ∧
        g.Meets storeBeforeLoop byAddress (.location ⟨⟨1⟩, some 8⟩) start c := by
  obtain ⟨g, built, load⟩ :=
    exists_of_any (x := build storeBeforeLoop byAddress { refineUses := false })
      (P := fun g => g.node? ⟨3⟩ == some ⟨0, ⟨3⟩, .use ⟨5⟩ { defining := some ⟨4⟩ }, []⟩)
      (by decide +kernel)
  have live := eq_of_beq load
  obtain ⟨ofAccess, atLocation, _⟩ := answers_meet_routes storeBeforeLoop_accepted rfl built {} live
  refine ⟨g, _, built, live, ?_, ?_⟩
  · exact ofAccess ⟨5⟩ _ _ rfl rfl rfl rfl rfl (by decide +kernel)
  · exact atLocation ⟨⟨1⟩, some 8⟩ rfl (fun _ _ hasInst known => by cases hasInst; cases known; rfl)
      (by decide +kernel)

def onlyFence : Procedure where
  name := "fence"
  blockNames := #[none]
  insts := #[⟨.fence .sequential, none⟩, ⟨.ret none, none⟩]
  layout := .ofRows [⟨⟨0⟩, [⟨0⟩, ⟨1⟩]⟩]

/-- The oracle for which nothing writes. -/
def readOnly : Oracle where
  overlap _ _ _ := pure .possible
  effect _ _ := pure .read

/-- A fence that only reads is a use. It answers a location with itself and not with anything above
it, so no route from its defining access comes to the answer. -/
theorem clobberAt_fence_use : onlyFence.Accepted ∧
    ∃ g n, build onlyFence readOnly { refineUses := false } = .ok g ∧ g.node? ⟨1⟩ = some n ∧
      n.isUse = true ∧ n.defining? = some .liveOnEntry ∧
      readOnly.Answers onlyFence (.location ⟨⟨0⟩, some 8⟩) ∧
      clobberAt {} g onlyFence readOnly ⟨1⟩ ⟨⟨0⟩, some 8⟩ = .ok (⟨1⟩, {}, g) ∧
      ¬g.Meets onlyFence readOnly (.location ⟨⟨0⟩, some 8⟩) .liveOnEntry ⟨1⟩ := by
  refine ⟨⟨⟨onlyFence, some ⟨0⟩⟩, .append (.ret none) (.append (.fence .sequential) (.select ⟨0⟩
    (.addBlock none (.start "fence") rfl)) rfl) rfl, rfl⟩, ?_⟩
  obtain ⟨g, built, fence⟩ := exists_of_any (x := build onlyFence readOnly { refineUses := false })
    (P := fun g => g.node? ⟨1⟩ == some ⟨0, ⟨0⟩, .use ⟨0⟩ { defining := some ⟨0⟩ }, []⟩)
    (by decide +kernel)
  have live := eq_of_beq fence
  refine ⟨g, _, built, live, rfl, rfl, by decide +kernel, ?_, fun meets => ?_⟩
  · rw [clobberAt, Graph.clobberAt, node_eq live]
    rfl
  · obtain ⟨before, after, same, _⟩ := meets _ (.here _)
    cases before <;> simp [Access.liveOnEntry] at same

end MemoryFlow.Walker
