import MemoryFlow.Clobber.Audit
import MemoryFlow.Proofs.Clobber.Search

/-! # The answer passes the second search

Every route up from the start comes to the answer before it meets a clobber (`PassesTo.cleanTo`),
and there is a route up to memory on entry from everywhere (`Linked.exists_route`). So the
exhaustive search meets no earlier clobber, never comes to memory on entry past the answer, and does
come to the answer.
-/

namespace MemoryFlow.Graph

variable {g : Graph} {p : Procedure} {o : Oracle} {q : Query} {entry b : Block} {a c start : Access}
  {n : Node} {l pending visited : List Access} {fuel : Nat} {acted : Bool}

theorem PassesTo.cleanTo (h : g.Linked p entry) (stack : g.Stack (a :: l))
    (passes : g.PassesTo p o q (a :: l) c) : g.CleanTo p o q c a := by
  obtain ⟨before, after, whole, passable⟩ := passes
  induction before generalizing a l with
  | nil =>
      cases whole
      exact fun _ _ up missed => absurd up.start_mem missed
  | cons y before ih =>
      rw [List.cons_append] at whole
      obtain ⟨rfl, rfl⟩ := List.cons_eq_cons.mp whole
      obtain ⟨first, rest⟩ := List.forall_mem_cons.mp passable
      intro d route up missed
      -- A route goes on to what is next on the stack; from a phi it may end before, and then it is
      -- clean.
      rcases first with silent | ⟨n, found, isPhi, clean⟩
      · obtain ⟨next, tail, same⟩ := List.exists_cons_of_ne_nil
          (List.append_ne_nil_of_right_ne_nil before (List.cons_ne_nil c after))
        rw [same] at stack
        obtain ⟨below, above⟩ := stack.next silent
        cases up with
        | here => exact silent.not_kills
        | step step up =>
            obtain rfl := (above _).mp step
            exact ih below same.symm rest d _ up fun later => missed (List.mem_cons_of_mem _ later)
      · obtain ⟨tail, same, below⟩ := h.stack_phi stack found isPhi
        by_cases passes : g.reachIn n.block ∈ route
        · obtain ⟨front, back, rfl⟩ := List.append_of_mem passes
          refine ih below same.symm rest d _ up.split.2 fun later => missed ?_
          exact List.mem_append_right _ later
        · exact clean d route up passes

/-- Whether `a` is a definition or phi of one of the blocks on a way. -/
def DefinedOn (g : Graph) (way : List Block) (a : Access) : Prop :=
  ∃ n, g.node? a = some n ∧ n.isUse = false ∧ n.block ∈ way

/-- There is a route up to memory on entry if there is one from the phis on the stack. -/
theorem Stack.exists_route {Q : Access → Prop} (stack : g.Stack (a :: l))
    (listed : ∀ c ∈ a :: l, Q c)
    (phis : ∀ phi ∈ a :: l, ∀ n, g.node? phi = some n → n.isPhi = true →
      ∃ route, Route g.Above phi .liveOnEntry route ∧ ∀ c ∈ route, Q c) :
    ∃ route, Route g.Above a .liveOnEntry route ∧ ∀ c ∈ route, Q c := by
  generalize whole : a :: l = stacked at stack listed phis
  induction stack generalizing a l with
  | entry =>
      cases whole
      exact ⟨_, .here _, listed⟩
  | definition found isDefinition link _ ih =>
      cases whole
      obtain ⟨first, rest⟩ := List.forall_mem_cons.mp listed
      obtain ⟨route, up, all⟩ :=
        ih rfl rest fun phi member => phis phi (List.mem_cons_of_mem _ member)
      exact ⟨_, .step ⟨_, found, .inl ⟨isDefinition, link⟩⟩ up,
        List.forall_mem_cons.mpr ⟨first, all⟩⟩
  | phi found isPhi =>
      cases whole
      exact phis _ List.mem_cons_self _ found isPhi

namespace Linked

variable (h : g.Linked p entry)
include h

/-- Along a way to a phi there is a route up from it that meets only what is defined on the way. -/
theorem exists_route_of_way :
    ∀ size (way : List Block) (phi : Access) (n : Node), way.length = size →
    Route g.flow.Edge entry n.block (way ++ [n.block]) → g.node? phi = some n → n.isPhi = true →
    ∃ route, Route g.Above phi .liveOnEntry (phi :: route) ∧ ∀ c ∈ route, g.DefinedOn way c := by
  intro size
  induction size using Nat.strongRecOn with
  | _ size ih =>
      intro way phi n length arrives found isPhi
      -- The route goes on from the block before on the way; the phis that dominate it are nearer to
      -- the entry.
      obtain ⟨pred, toPred, _, up⟩ := h.phi_pred h.first found isPhi arrives
      have reached : Reaches g.flow.Edge entry pred := ⟨way, toPred⟩
      obtain ⟨tail, same⟩ := g.stackOut_eq pred
      have listed : ∀ c ∈ g.stackOut pred, g.DefinedOn way c := by
        intro c member
        obtain ⟨m, found', notUse, dom⟩ := (h.mem_stackOut reached).mp member
        exact ⟨m, found', notUse, dom way toPred⟩
      have phis : ∀ phi' ∈ g.stackOut pred, ∀ m, g.node? phi' = some m → m.isPhi = true →
          ∃ route, Route g.Above phi' .liveOnEntry route ∧ ∀ c ∈ route, g.DefinedOn way c := by
        intro phi' member m found' isPhi'
        obtain ⟨m', found'', _, dom⟩ := (h.mem_stackOut reached).mp member
        obtain rfl := Option.some.inj (found'.symm.trans found'')
        obtain ⟨front, back, rfl⟩ := List.append_of_mem (dom way toPred)
        simp only [List.length_append, List.length_cons] at length
        obtain ⟨route, up', on⟩ :=
          ih front.length (by omega) front phi' m rfl toPred.split.1 found' isPhi'
        refine ⟨_, up', List.forall_mem_cons.mpr ⟨listed phi' member, fun c inside => ?_⟩⟩
        obtain ⟨k, foundC, notUse, earlier⟩ := on c inside
        exact ⟨k, foundC, notUse, List.mem_append_left _ earlier⟩
      obtain ⟨route, rest, on⟩ :=
        Stack.exists_route (same ▸ h.stack_out reached) (same ▸ listed) (same ▸ phis)
      exact ⟨route, .step up rest, on⟩

theorem exists_route (stack : g.Stack (a :: l)) : ∃ route, Route g.Above a .liveOnEntry route := by
  obtain ⟨route, up, _⟩ := stack.exists_route (Q := fun _ => True) (fun _ _ => trivial)
    fun phi _ n found isPhi => by
      obtain ⟨way, arrives⟩ := h.phi_reached found isPhi
      obtain ⟨front, rfl⟩ := arrives.ends
      obtain ⟨route, up, _⟩ := h.exists_route_of_way _ front phi n rfl arrives found isPhi
      exact ⟨_, up, fun _ _ => trivial⟩
  exact ⟨route, up⟩

end Linked

theorem IsClobber.kills (h : g.Linked p entry) (answers : o.Answers p q)
    (clobber : g.IsClobber p o q l c) (found : g.node? c = some n)
    (isDefinition : n.isDefinition = true) : g.Kills p o q c := by
  obtain ⟨_, _, _, _, stops⟩ := clobber
  exact (h.kills_or_silent answers found isDefinition).resolve_right fun silent =>
    stops (.inl silent)

section Chain

theorem auditChain_found (found : g.node? c = some n)
    (kills : n.isDefinition = true → g.Kills p o q c) :
    g.auditChain p o q start c (fuel + 1) c acted = .ok ([], acted || n.isDefinition) := by
  rw [auditChain, if_pos rfl, node_eq found, ok_bind]
  cases isDefinition : n.isDefinition with
  | false =>
      rw [if_neg (by simp), Bool.or_false]
      rfl
  | true =>
      obtain ⟨_, _, _, clobbers⟩ := kills isDefinition
      cases acted with
      | true => rfl
      | false =>
          rw [if_pos (by simp), clobbers]
          simp

theorem auditChain_phi (found : g.node? a = some n) (isPhi : n.isPhi = true) (other : a ≠ c)
    (notEntry : a ≠ .liveOnEntry) : g.auditChain p o q start c (fuel + 1) a acted =
      (g.reachableIncoming a).map fun values => (values, acted) := by
  rw [auditChain, if_neg other, if_neg notEntry, node_eq found, ok_bind]
  obtain ⟨_, _, role, _⟩ := n
  cases role with
  | phi =>
      dsimp only
      cases g.reachableIncoming a <;> rfl
  | definition | use => cases isPhi

theorem auditChain_silent {x : Access} (silent : g.Silent p o q a) (found : g.node? a = some n)
    (link : n.defining? = some x) (other : a ≠ c) (notEntry : a ≠ .liveOnEntry) :
    g.auditChain p o q start c (fuel + 1) a acted = g.auditChain p o q start c fuel x acted := by
  obtain ⟨m, found', isDefinition, clobbers⟩ := silent
  obtain rfl := Option.some.inj (found.symm.trans found')
  rw [auditChain, if_neg other, if_neg notEntry, node_eq found, ok_bind]
  obtain ⟨_, _, role, _⟩ := n
  cases role with
  | definition inst linked =>
      have above : linked.defining = some x := link
      dsimp only
      rw [clobbers, above]
      split <;> rfl
  | use | phi => cases isDefinition

end Chain

theorem CleanTo.above {x : Access} (clean : g.CleanTo p o q c a) (other : a ≠ c)
    (up : g.Above a x) : g.CleanTo p o q c x := by
  intro d route rest missed
  refine clean d (a :: route) (.step up rest) fun member => ?_
  exact (List.mem_cons.mp member).elim (fun same => other same.symm) missed

/-- A chain is followed down the stack to the answer or to a phi before it. -/
theorem Linked.auditChain_stops (h : g.Linked p entry) (answers : o.Answers p q)
    (found : g.node? c = some n) (kills : n.isDefinition = true → g.Kills p o q c)
    (stack : g.Stack (a :: l)) (below : c ∈ a :: l) (clean : g.CleanTo p o q c a)
    (enough : l.length < fuel) (start : Access) (acted : Bool) :
    ∃ before y after, a :: l = before ++ y :: after ∧ (∀ z ∈ before, g.Silent p o q z) ∧
      c ∈ y :: after ∧ g.CleanTo p o q c y ∧
      (y = c ∧ g.auditChain p o q start c fuel a acted = .ok ([], acted || n.isDefinition) ∨
        y ≠ c ∧ ∃ m values, g.node? y = some m ∧ m.isPhi = true ∧
          g.auditChain p o q start c fuel a acted = .ok (values, acted) ∧
          ∀ v, v ∈ values ↔ g.Above y v) := by
  obtain ⟨fuel, rfl⟩ := Nat.exists_eq_add_one_of_ne_zero (Nat.ne_zero_of_lt enough)
  by_cases here : a = c
  · subst here
    exact ⟨[], a, l, rfl, by simp, below, clean, .inl ⟨rfl, auditChain_found found kills⟩⟩
  generalize whole : a :: l = stacked at stack
  induction stack generalizing a l fuel with
  | entry =>
      cases whole
      exact absurd (List.mem_singleton.mp below).symm here
  | @definition a next l m foundA isDefinition link rest ih =>
      cases whole
      have notEntry := h.ne_entry_of_link foundA link
      have silent := (h.kills_or_silent answers foundA isDefinition).resolve_left
        (clean a [a] (.here a) (by simpa using Ne.symm here))
      have below' := (List.mem_cons.mp below).resolve_left (Ne.symm here)
      have clean' := clean.above here ⟨m, foundA, .inl ⟨isDefinition, link⟩⟩
      rw [auditChain_silent silent foundA link here notEntry]
      obtain ⟨fuel, rfl⟩ := Nat.exists_eq_add_one_of_ne_zero (n := fuel) (by
        rintro rfl
        simp at enough)
      by_cases done : next = c
      · subst done
        exact ⟨[a], next, l, rfl, by simpa using silent, below', clean',
          .inl ⟨rfl, auditChain_found found kills⟩⟩
      · obtain ⟨before, y, after, same, silents, ahead, cleanY, ends⟩ :=
          ih below' clean' fuel (by simpa using enough) done rfl
        exact ⟨a :: before, y, after, by rw [same]; rfl,
          List.forall_mem_cons.mpr ⟨silent, silents⟩, ahead, cleanY, ends⟩
  | @phi a l m foundA isPhi =>
      cases whole
      have notEntry := h.ne_liveOnEntry (outline?_eq foundA) (.inl (by simpa using isPhi))
      obtain ⟨values, incoming, member⟩ := reachableIncoming_eq foundA isPhi
      refine ⟨[], a, _, rfl, by simp, below, clean,
        .inr ⟨here, m, values, foundA, isPhi, ?_, member⟩⟩
      rw [auditChain_phi foundA isPhi here notEntry, incoming]
      rfl

theorem Linked.sweep_reaches (h : g.Linked p entry) {near : Access → Prop} {reached : Bool}
    (sweep : g.Sweep p o q c near (· = start) [] [] visited reached) (found : g.node? c = some n)
    (isDefinition : n.isDefinition = true) {route : List Access}
    (up : Route g.Above start c route) : reached = true := by
  have follow : ∀ size v route, route.length = size → v ∈ visited → Route g.Above v c route →
      reached = true := by
    intro size
    induction size using Nat.strongRecOn with
    | _ size ih =>
        intro v route length member up
        obtain ⟨l, before, y, after, stack, whole, silent, ahead, ends⟩ :=
          (sweep.settled v member).resolve_left List.not_mem_nil
        rcases ends with ⟨_, reached⟩ | ⟨⟨m, foundY, isPhi⟩, known⟩
        · exact reached
        · have passes : y ∈ route := by
            by_contra missed
            have early := stack.mem_of_route whole silent up missed
            exact (List.nodup_append.mp (whole ▸ h.nodup_stack stack)).2.2 c early c ahead rfl
          obtain ⟨front, back, rfl⟩ := List.append_of_mem passes
          cases up.split.2 with
          | here =>
              exact (not_phi_of_definition found isDefinition foundY isPhi).elim
          | step first later =>
              simp only [List.length_append, List.length_cons] at length
              exact ih back.length (by omega) _ back rfl (by simpa using known _ first) later
  exact follow _ start route rfl (by simpa using sweep.entered start rfl) up

theorem Linked.auditPaths_eq (h : g.Linked p entry) (answers : o.Answers p q)
    (found : g.node? c = some n) (kills : n.isDefinition = true → g.Kills p o q c) :
    ∀ fuel pending visited acted, g.nodes.size < fuel + visited.length →
    g.Sweep p o q c (fun a => g.Under c a ∧ g.CleanTo p o q c a) (· = start) [] pending visited
      (acted || !n.isDefinition) →
    ∃ visited' acted', g.auditPaths p o q start c fuel pending visited acted = .ok acted' ∧
      g.Sweep p o q c (fun a => g.Under c a ∧ g.CleanTo p o q c a) (· = start) [] [] visited'
        (acted' || !n.isDefinition) := by
  intro fuel
  induction fuel with
  | zero =>
      intro pending visited acted enough sweep
      have := sweep.length_le
      omega
  | succ fuel ih =>
      intro pending visited acted enough sweep
      rw [auditPaths]
      cases next : pending.dropWhile visited.contains with
      | nil => exact ⟨visited, acted, rfl, sweep.finish next⟩
      | cons a rest =>
          dsimp only
          obtain ⟨front, here, _, _⟩ := dropWhile_eq_cons next
          obtain ⟨⟨l, stack, below⟩, clean⟩ := sweep.waiting a (here ▸ by simp)
          obtain ⟨before, y, after, whole, silent, ahead, cleanY, ends⟩ :=
            h.auditChain_stops answers found kills stack below clean (h.length_lt_walkBound stack)
              start acted
          obtain ⟨_, foundA, _⟩ := h.kind_of_stack stack List.mem_cons_self
          have live := lt_of_node? foundA
          have more : g.nodes.size < fuel + (a :: visited).length := by
            rw [List.length_cons]
            omega
          rcases ends with ⟨rfl, followed⟩ | ⟨other, m, values, foundY, isPhi, followed, incoming⟩
          · rw [followed, ok_bind]
            refine ih rest (a :: visited) _ more (sweep.visit [] next ?_ live
              ⟨l, before, y, after, stack, whole, silent, ahead, .inl ⟨rfl, ?_⟩⟩ (by simp))
            · cases acted <;> simp
            · cases n.isDefinition <;> simp
          · rw [followed, ok_bind]
            refine ih (values.reverse ++ rest) (a :: visited) _ more
              (sweep.visit values.reverse next id live
              ⟨l, before, y, after, stack, whole, silent, ahead, .inr ⟨⟨m, foundY, isPhi⟩,
                fun v up => .inr (by simp [(incoming v).mpr up])⟩⟩ fun v inside => ?_)
            have up := (incoming v).mp (by simpa using inside)
            exact ⟨h.under_above ⟨after, (whole ▸ stack).suffix, ahead⟩ other up,
              cleanY.above other up⟩

theorem IsClobber.mem (clobber : g.IsClobber p o q l c) : c ∈ l := by
  obtain ⟨before, after, rfl, _⟩ := clobber
  exact List.mem_append_right _ List.mem_cons_self

theorem Linked.dominates_of_stack (h : g.Linked p entry) (stack : g.Stack (a :: l))
    (member : c ∈ a :: l) : g.Yields (g.dominates c a) true := by
  rcases List.mem_cons.mp member with rfl | later
  · exact Arranged.dominates_self
  · obtain ⟨n, found, _⟩ := h.kind_of_stack stack List.mem_cons_self
    exact (h.dominates_over (h.over_of_stack stack later) (by rw [found]; rfl)).1

theorem Linked.audit_yields (h : g.Linked p entry) (answers : o.Answers p q)
    (stack : g.Stack (a :: l)) (clobber : g.IsClobber p o q (a :: l) c) :
    g.Yields (g.audit p o q a c) () := by
  obtain ⟨n, found, notUse⟩ := h.kind_of_stack stack clobber.mem
  have dominates := h.dominates_of_stack stack clobber.mem
  have clean := clobber.passesTo.cleanTo h stack
  have kills := clobber.kills h answers found
  rw [audit]
  refine .bind dominates ?_
  by_cases isEntry : a = .liveOnEntry
  · subst isEntry
    obtain rfl := h.stack_unique stack .entry
    obtain rfl := List.mem_singleton.mp clobber.mem
    exact .pure _
  · obtain ⟨_, foundA, _⟩ := h.kind_of_stack stack List.mem_cons_self
    have first : g.Sweep p o q c (fun a => g.Under c a ∧ g.CleanTo p o q c a) (· = a) [] [a] []
        (false || !n.isDefinition) := {
      distinct := List.nodup_nil
      inside := by simp
      kept := by simp
      waiting := by simpa using ⟨⟨l, stack, clobber.mem⟩, clean⟩
      entered := by simp
      settled := by simp }
    obtain ⟨visited, acted, ran, sweep⟩ :=
      h.auditPaths_eq answers found kills g.walkBound [a] [] false
        (by simp only [walkBound]; omega) first
    -- Some route comes to the answer, for there is one to memory on entry; so the search has come
    -- to it.
    have passes : (!n.isPhi && !acted) = false := by
      cases isDefinition : n.isDefinition with
      | true =>
          obtain ⟨route, up⟩ := h.exists_route stack
          obtain ⟨front, back, rfl⟩ := List.append_of_mem (h.route_passes up stack clobber.mem)
          have reached := h.sweep_reaches sweep found isDefinition up.split.1
          rw [isDefinition, Bool.not_true, Bool.or_false] at reached
          rw [reached, Bool.not_true, Bool.and_false]
      | false =>
          have isPhi : n.isPhi = true := by
            by_contra other
            rw [n.isDefinition_of notUse (by simpa using other)] at isDefinition
            cases isDefinition
          rw [isPhi]
          rfl
    simp only [isEntry, if_false]
    refine .lift ran (.lift (node_eq found) ?_)
    rw [passes]
    exact .pure _

end MemoryFlow.Graph
