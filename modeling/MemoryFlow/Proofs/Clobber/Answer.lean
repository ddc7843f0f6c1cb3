import MemoryFlow.Proofs.Clobber.Frame
import MemoryFlow.Proofs.Graph.Index

/-! # Answers are in the graph

Whatever a search answers it has read on the way, so it is in the graph. This asks nothing of the
graph, not even that its chains end. Hence searches keep the index of cached clobbers.
-/

namespace MemoryFlow.Graph

variable {α β : Type} {g g' : Graph} {p : Procedure} {o : Oracle} {q : Query} {a c : Access}

/-- Whether every answer to a question satisfies a condition. -/
def Only (P : α → Prop) (question : Ordered α) : Prop :=
  ∀ order answer order', question.run order = .ok (answer, order') → P answer

namespace Only

variable {P : α → Prop} {Q : β → Prop}

theorem pure {answer : α} (holds : P answer) : Only P (pure answer) := by
  intro order _ order' ran
  cases ran
  exact holds

theorem fail (fault : Fault) : Only P (throw fault) := by
  intro order _ order' ran
  cases ran

theorem lift {x : Except Fault α} (holds : ∀ v, x = .ok v → P v) : Only P (liftM x) := by
  intro order answer order' ran
  cases x with
  | error fault => cases ran
  | ok v =>
      cases ran
      exact holds _ rfl

theorem any (question : Ordered α) : Only (fun _ => True) question :=
  fun _ _ _ _ => trivial

theorem bind {question : Ordered α} {next : α → Ordered β} (first : Only P question)
    (second : ∀ v, P v → Only Q (next v)) : Only Q (question >>= next) := by
  intro order answer order' ran
  rw [StateT.run_bind] at ran
  obtain ⟨⟨v, order₁⟩, ran₁, ran₂⟩ := bind_eq_ok.mp ran
  exact second v (first order v order₁ ran₁) order₁ answer order' ran₂

theorem foldlM {step : β → α → Ordered β} {items : List α} {start : β} (first : Q start)
    (next : ∀ state, ∀ item ∈ items, Q state → Only Q (step state item)) :
    Only Q (items.foldlM step start) := by
  induction items generalizing start with
  | nil => exact pure first
  | cons item items ih =>
      rw [List.foldlM_cons]
      refine bind (next start item List.mem_cons_self first) fun state holds => ih holds ?_
      exact fun state item member => next state item (List.mem_cons_of_mem _ member)

theorem ask {question : Ordered α} {answer : α} (only : Only P question)
    (answered : g.ask question = .ok (answer, g')) : P answer := by
  obtain ⟨⟨_, order⟩, ran, same⟩ := bind_eq_ok.mp answered
  cases same
  exact only g.order _ order ran

end Only

theorem walkUp_live {target : Option Access} {fuel : Nat} {stop : Stop}
    (walked : g.walkUp p o q target fuel a = .ok stop) (here : stop = .clobber c ∨ stop = .phi c) :
    g.isLive c = true := by
  induction fuel generalizing a with
  | zero => cases walked
  | succ fuel ih =>
      rw [walkUp] at walked
      split at walked
      · cases walked
        simp at here
      · obtain ⟨n, read, walked⟩ := bind_eq_ok.mp walked
        have live := isLive_of_found (node?_of_node read)
        have stopped : (stop = .clobber a ∨ stop = .phi a) → g.isLive c = true := by
          rintro (rfl | rfl) <;> simp_all
        split at walked
        · exact stopped (.inr (Except.ok.inj walked).symm)
        · cases walked
        · split at walked
          · exact stopped (.inl (Except.ok.inj walked).symm)
          · obtain ⟨clobbers, _, walked⟩ := bind_eq_ok.mp walked
            split at walked
            · exact stopped (.inl (Except.ok.inj walked).symm)
            · split at walked
              · exact ih walked
              · cases walked

theorem lowest_live {first : Access} {rest : List Access}
    (live : ∀ x ∈ first :: rest, g.isLive x = true) :
    Only (g.isLive · = true) (g.lowest first rest) := by
  refine .foldlM (live first List.mem_cons_self) fun best x member best_live => ?_
  refine .bind (.any _) fun dominates _ => .pure ?_
  split
  · exact best_live
  · exact live x (List.mem_cons_of_mem _ member)

theorem explore_live {target : Access} {round fuel : Nat} {pending : List Branch} {x : Exploration}
    (live : ∀ c ∈ x.ended, g.isLive c = true) :
    Only (fun out => ∀ x, out = .over x → ∀ c ∈ x.ended, g.isLive c = true)
      (g.explore p o q target round fuel pending x) := by
  induction fuel generalizing pending x with
  | zero => exact .fail _
  | succ fuel ih =>
      rw [explore]
      split
      · refine .pure ?_
        rintro _ ⟨⟩
        exact live
      · refine .bind (.lift fun stop walked => walked) fun stop walked => ?_
        split
        · refine .bind (.any _) fun dominates _ => ?_
          split
          · refine ih fun c member => ?_
            rcases List.mem_append.mp member with known | new
            · exact live c known
            · rw [List.mem_singleton.mp new]
              exact walkUp_live walked (.inl rfl)
          · exact .pure (by simp)
        · exact ih live
        · exact .bind (.any _) fun _ _ => ih live

theorem filterM_subset {keep : α → Except Fault Bool} {l kept : List α}
    (ran : l.filterM keep = .ok kept) : kept ⊆ l := by
  have loop : ∀ seen out, l.filterAuxM keep seen = .ok out → out ⊆ seen ++ l := by
    clear ran
    induction l with
    | nil =>
        intro seen out ran
        cases ran
        simp
    | cons x l ih =>
        intro seen out ran
        rw [List.filterAuxM] at ran
        obtain ⟨good, _, ran⟩ := bind_eq_ok.mp ran
        intro y member
        have inside := ih _ _ ran member
        cases good with
        | true => simpa [or_left_comm] using inside
        | false =>
            simp only [cond_false, List.mem_append, List.mem_cons] at inside ⊢
            tauto
  obtain ⟨out, ran', same⟩ := bind_eq_ok.mp ran
  cases same
  simpa using loop [] out ran'

theorem endedBelow_subset {top : Access} {ended below : List Access}
    (ran : g.endedBelow top ended = .ok below) : below ⊆ ended := by
  obtain ⟨n, _, ran⟩ := bind_eq_ok.mp ran
  exact filterM_subset ran

theorem exists_of_mapM {f : α → Except Fault β} {l : List α} {out : List β} {y : β}
    (ran : l.mapM f = .ok out) (member : y ∈ out) : ∃ x ∈ l, f x = .ok y := by
  induction l generalizing out with
  | nil =>
      cases ran
      cases member
  | cons x l ih =>
      rw [List.mapM_cons] at ran
      obtain ⟨first, here, ran⟩ := bind_eq_ok.mp ran
      obtain ⟨others, there, same⟩ := bind_eq_ok.mp ran
      cases same
      rcases List.mem_cons.mp member with rfl | later
      · exact ⟨x, List.mem_cons_self, here⟩
      · obtain ⟨x', inside, found⟩ := ih there later
        exact ⟨x', List.mem_cons_of_mem _ inside, found⟩

theorem gather_live {target : Access} {x : Exploration} {gathered : List Access × Option Access}
    (live : ∀ c ∈ x.ended, g.isLive c = true) (ran : g.gather p o q target x = .ok gathered) :
    ∀ c ∈ gathered.1, g.isLive c = true := by
  obtain ⟨stops, walked, ran⟩ := bind_eq_ok.mp ran
  have stopped : ∀ c ∈ stops.filterMap Stop.clobber?, g.isLive c = true := by
    intro c member
    obtain ⟨stop, inside, isClobber⟩ := List.mem_filterMap.mp member
    obtain ⟨_, _, walked⟩ := exists_of_mapM walked inside
    cases stop with
    | clobber =>
        cases isClobber
        exact walkUp_live walked (.inl rfl)
    | phi | target => cases isClobber
  dsimp only at ran
  split at ran
  · cases ran
    exact stopped
  · obtain ⟨top, _, ran⟩ := bind_eq_ok.mp ran
    obtain ⟨below, kept, same⟩ := bind_eq_ok.mp ran
    cases same
    intro c member
    rcases List.mem_append.mp member with new | old
    · exact stopped c new
    · exact live c (endedBelow_subset kept old)

theorem eq_of_outset {round : Nat} {phi : Access} {legs : List Leg}
    (found : outset round phi legs = .ok a) : a = phi := by
  rw [outset] at found
  split at found
  · cases found
  · split at found
    · rename_i same
      exact (Except.ok.inj found).symm.trans same
    · cases found

theorem lookThrough_live {fuel round : Nat} {phi : Access} {x : Exploration}
    (live : ∀ c ∈ x.ended, g.isLive c = true) :
    Only (g.isLive · = true) (g.lookThrough p o q fuel round phi x) := by
  induction fuel generalizing round phi x with
  | zero => exact .fail _
  | succ fuel ih =>
      -- A phi is an answer only after its target was read, and what ended a walk was read on the
      -- walk.
      have readPhi : ∀ target, g.targetOf phi = .ok target → g.isLive phi = true := by
        intro target ran
        obtain ⟨n, read, _⟩ := bind_eq_ok.mp ran
        exact isLive_of_found (node?_of_node read)
      refine .bind (.any _) fun values _ => .bind (.lift readPhi) fun target phi_live => ?_
      refine .bind (explore_live live) fun explored ended => ?_
      split
      · exact .lift fun a found => eq_of_outset found ▸ phi_live
      · rename_i y
        replace ended : ∀ c ∈ y.ended, g.isLive c = true := ended y rfl
        split
        · split
          · exact .fail _
          · rename_i c rest whole
            exact lowest_live (whole ▸ ended)
        · refine .bind (.lift fun gathered ran => gather_live ended ran) fun gathered live => ?_
          split
          · exact lowest_live live
          · exact .fail _
          · refine .bind (.any _) fun n _ => ?_
            split
            · exact ih ended
            · exact .fail _

theorem findClobber_live {start : Access} :
    Only (fun answer => g.isLive answer.1 = true) (g.findClobber p o q start) := by
  refine .bind (.any _) fun bottom _ => .bind (P := fun found => g.isLive found.1 = true) ?_ ?_
  · refine .bind (.lift fun stop walked => walked) fun stop walked => ?_
    split
    · exact .pure (walkUp_live walked (.inl rfl))
    · exact .bind (lookThrough_live (by simp)) fun c live => .pure live
    · exact .fail _
  · intro found live
    dsimp only
    split
    · exact .bind (.any _) fun _ _ => .pure live
    · exact .pure live

namespace Indexed

theorem ask (indexed : g.Indexed) {question : Ordered α} {answer : α}
    (answered : g.ask question = .ok (answer, g')) : g'.Indexed := by
  obtain ⟨⟨_, order⟩, _, same⟩ := bind_eq_ok.mp answered
  cases same
  exact indexed.of_same rfl (fun _ => rfl) fun _ live => live

theorem clobberOf (indexed : g.Indexed) {effort : Effort}
    (answered : g.clobberOf p o a = .ok (c, effort, g')) : g'.Indexed := by
  obtain ⟨n, _, answered⟩ := bind_eq_ok.mp answered
  split at answered
  · cases answered
    exact indexed
  · cases answered
    exact indexed
  · obtain ⟨op, _, answered⟩ := bind_eq_ok.mp answered
    split at answered
    · cases answered
      exact indexed
    · obtain ⟨constant, _, answered⟩ := bind_eq_ok.mp answered
      split at answered
      · obtain ⟨kept, cached, same⟩ := bind_eq_ok.mp answered
        cases same
        exact indexed.cache indexed.entry cached
      · dsimp only at answered
        split at answered
        · rename_i entry
          obtain ⟨kept, cached, same⟩ := bind_eq_ok.mp answered
          cases same
          exact indexed.cache (by simpa [entry] using indexed.entry) cached
        · obtain ⟨query, _, answered⟩ := bind_eq_ok.mp answered
          obtain ⟨⟨⟨clobber, _⟩, asked⟩, ran, answered⟩ := bind_eq_ok.mp answered
          obtain ⟨kept, cached, same⟩ := bind_eq_ok.mp answered
          cases same
          have live : asked.isLive clobber = true :=
            (agrees_of_ask ran).isLive.trans (findClobber_live.ask ran)
          exact (indexed.ask ran).cache live cached

theorem clobberAt (indexed : g.Indexed) {loc : Location} {effort : Effort}
    (answered : g.clobberAt p o a loc = .ok (c, effort, g')) : g'.Indexed := by
  obtain ⟨n, _, answered⟩ := bind_eq_ok.mp answered
  split at answered
  · cases answered
    exact indexed
  · obtain ⟨op, _, answered⟩ := bind_eq_ok.mp answered
    split at answered
    · cases answered
      exact indexed
    · obtain ⟨⟨⟨clobber, effort⟩, asked⟩, ran, same⟩ := bind_eq_ok.mp answered
      cases same
      exact indexed.ask ran

end Indexed

end MemoryFlow.Graph

namespace MemoryFlow.Refinement

open MemoryFlow.Graph

variable {g g' : Graph} {p : Procedure} {o : Oracle} {a : Access} {block : Block}
  {r r' : Refinement}

theorem scan_indexed {q : Query} {count : Nat} {holding : List Access} {height : Option Nat}
    (indexed : g.Indexed) (scanned : scan p o a q count holding g = .ok (height, g')) :
    g'.Indexed := by
  fun_induction scan p o a q count holding g with
  | case1 | case2 =>
      cases scanned
      exact indexed
  | case3 count candidate older g ih =>
      obtain ⟨n, _, scanned⟩ := bind_eq_ok.mp scanned
      split at scanned
      · obtain ⟨⟨clobber, _, asked⟩, answered, scanned⟩ := bind_eq_ok.mp scanned
        dsimp only at scanned
        split at scanned
        · cases scanned
        · cases scanned
          exact indexed.clobberOf answered
      · split at scanned
        · cases scanned
        · obtain ⟨ends, _, scanned⟩ := bind_eq_ok.mp scanned
          split at scanned
          · cases scanned
            exact indexed
          · obtain ⟨clobbers, _, scanned⟩ := bind_eq_ok.mp scanned
            split at scanned
            · cases scanned
              exact indexed
            · exact ih indexed scanned

theorem dropStale_subset {holding rest : List Access}
    (dropped : dropStale g block holding = .ok rest) :
    rest ⊆ holding := by
  induction holding with
  | nil => cases dropped
  | cons x holding ih =>
      obtain ⟨n, _, dropped⟩ := bind_eq_ok.mp dropped
      split at dropped
      · cases dropped
        simp
      · exact List.subset_cons_of_subset x (ih dropped)

/-- Whether the index of the graph is exact, and all that holds is in the graph. -/
structure Indexed (r : Refinement) : Prop extends r.graph.Indexed where
  holding : ∀ x ∈ r.holding, r.graph.isLive x = true

namespace Indexed

theorem cache (indexed : r.Indexed) {c : Access} (live : r.graph.isLive c = true)
    (cached : r.graph.cache a c = .ok g') : Indexed { r with graph := g' } where
  toIndexed := indexed.toIndexed.cache live cached
  holding := fun x member =>
    (searched_of_cache cached).toAgrees.isLive.trans (indexed.holding x member)

theorem learn (indexed : r.Indexed) (f : Footprint) (k : Knowledge) : (r.learn f k).Indexed :=
  ⟨indexed.toIndexed, indexed.holding⟩

theorem refineUse (indexed : r.Indexed) {inst : Inst} {f : Footprint}
    (refined : refineUse p o r block a inst f = .ok r') : r'.Indexed := by
  obtain ⟨k, _, refined⟩ := bind_eq_ok.mp refined
  dsimp only at refined
  split at refined
  · cases refined
  · split at refined
    · cases refined
    · split at refined
      · cases refined
        exact indexed.learn f _
      · obtain ⟨⟨height, scanned⟩, ran, refined⟩ := bind_eq_ok.mp refined
        dsimp only at refined
        split at refined
        · cases refined
        · rename_i clobber held
          obtain ⟨kept, cached, same⟩ := bind_eq_ok.mp refined
          cases same
          have alive : ∀ x, scanned.isLive x = r.graph.isLive x :=
            fun x => (searched_of_scan ran).toAgrees.isLive
          have scanned' : Indexed { r with graph := scanned } :=
            ⟨scan_indexed indexed.toIndexed ran,
              fun x member => (alive x).trans (indexed.holding x member)⟩
          have live := scanned'.holding clobber (List.mem_of_getElem? held)
          exact (scanned'.cache live cached).learn f _

theorem visit (indexed : r.Indexed) (visited : visit p o block r a = .ok r') : r'.Indexed := by
  obtain ⟨n, read, visited⟩ := bind_eq_ok.mp visited
  split at visited
  · split at visited
    · cases visited
      exact indexed
    · obtain ⟨constant, _, visited⟩ := bind_eq_ok.mp visited
      split at visited
      · obtain ⟨kept, cached, same⟩ := bind_eq_ok.mp visited
        cases same
        exact indexed.cache indexed.entry cached
      · obtain ⟨op, _, visited⟩ := bind_eq_ok.mp visited
        split at visited
        · cases visited
          exact indexed
        · exact indexed.refineUse visited
  · cases visited
    have live := isLive_of_found (node?_of_node read)
    exact ⟨indexed.toIndexed, List.forall_mem_cons.mpr ⟨live, indexed.holding⟩⟩

theorem visitBlock (indexed : r.Indexed) (visited : visitBlock p o r block = .ok r') :
    r'.Indexed := by
  rw [Refinement.visitBlock] at visited
  split at visited
  · cases visited
    exact indexed
  · obtain ⟨rest, dropped, visited⟩ := bind_eq_ok.mp visited
    refine foldlM_keeps Indexed visited ⟨indexed.toIndexed, fun x member => ?_⟩
      fun _ _ _ indexed visited => indexed.visit visited
    exact indexed.holding x (dropStale_subset dropped member)

end Indexed

end MemoryFlow.Refinement

namespace MemoryFlow.Graph

variable {g g' : Graph} {p : Procedure} {o : Oracle} {config : Config}

theorem Indexed.refineUses (indexed : g.Indexed) (refined : g.refineUses p o = .ok g') :
    g'.Indexed := by
  obtain ⟨r, ran, same⟩ := bind_eq_ok.mp refined
  cases same
  have first : Refinement.Indexed { graph := g } := ⟨indexed, by simpa using indexed.entry⟩
  exact (foldlM_keeps Refinement.Indexed ran first fun _ _ _ indexed ran =>
    indexed.visitBlock ran).toIndexed

theorem start_indexed (config : Config) (flow : FlowGraph) (tree : Tree) (entry : Block) :
    (start config flow tree entry).Indexed := by
  have fresh : ∀ x, (start config flow tree entry).cached? x = none := by
    rintro ⟨_ | index⟩ <;> rfl
  refine ⟨rfl, by simp [fresh], ?_, .empty⟩
  intro u c
  rw [fresh]
  simp [dependents, start]

theorem build_indexed (built : build p o config = .ok g) : g.Indexed := by
  obtain ⟨tree, entry, base, constructed, finished⟩ := build_ok built
  have indexed : Indexed { base with config } :=
    (Indexed.keptByEditing.construct
      (fun _ _ indexed => indexed.of_same rfl (fun _ => rfl) fun _ live => live)
      (start_indexed {} _ tree entry) constructed).of_same rfl (fun _ => rfl) fun _ live => live
  split at finished
  · exact indexed.refineUses finished
  · cases finished
    exact indexed

end MemoryFlow.Graph
