import MemoryFlow.Proofs.Graph.Numbering

/-! # Settled places stay right

The places of a block's accesses are settled when they are first asked for, and whatever changes the
list of a block unsettles it. That is enough, as long as nothing is put into a list while it is in
one: then every access is listed in a single block at most, so that settling one block gives no
place to an access of another, and an access that goes takes no place away that is still needed.
-/

namespace MemoryFlow

/-- Whether a change puts into lists only what is in none. -/
def Edit.ListsOnce (g : Graph) : Edit → Prop
  | .insert a _ _ | .insertBefore a _ _ => g.Loose a
  | _ => True

instance (g : Graph) (edit : Edit) : Decidable (edit.ListsOnce g) :=
  match edit with
  | .insert a _ _ | .insertBefore a _ _ => inferInstanceAs (Decidable (g.Loose a))
  | .createPhi _ | .createAccess .. | .move .. | .moveBefore .. | .setDefining .. | .addIncoming ..
  | .setIncoming .. | .replaceAll .. | .discard _ | .remove _ | .renameFrom .. => .isTrue trivial

def Act.ListsOnce (g : Graph) : Act → Prop
  | .change edit => edit.ListsOnce g
  | .ask _ => True

instance (g : Graph) (act : Act) : Decidable (act.ListsOnce g) :=
  match act with
  | .change edit => inferInstanceAs (Decidable (edit.ListsOnce g))
  | .ask _ => .isTrue trivial

namespace Graph

variable {g g' : Graph} {p : Procedure} {o : Oracle} {a x y : Access} {n : Node} {block : Block}
  {l list defList : List Access} {order : LocalOrder}

/-- Whether a graph comes from another by a change that lists nothing twice, or by a question. -/
def OnceStep (g g' : Graph) : Prop :=
  ∃ act : Act, act.ListsOnce g ∧ act.apply g = .ok g'

namespace ListedOnce

variable (h : g.ListedOnce)
include h

theorem withLists (distinct : l.Nodup)
    (created : ∀ x ∈ l, ∃ n, g.outline? x = some n ∧ n.block = block) :
    (g.withLists block l defList).ListedOnce := by
  have listed : ∀ b, (g.withLists block l defList).accesses b = g.accesses b ∨
      b = block ∧ (g.withLists block l defList).accesses b = l := by
    intro b
    rw [accesses, Graph.withLists]
    dsimp only
    split
    · exact .inl rfl
    · rw [getD_insert]
      split
      · rename_i here
        exact .inr ⟨here, rfl⟩
      · exact .inl rfl
  refine ⟨fun b x member => ?_, fun b => ?_⟩
  · rcases listed b with same | ⟨rfl, same⟩ <;> rw [same] at member
    · exact h.home b x member
    · exact created x member
  · rcases listed b with same | ⟨rfl, same⟩ <;> rw [same]
    · exact h.distinct b
    · exact distinct

theorem addRow {row : Layout.Row} (ran : addRow p o g row = .ok g') : g'.ListedOnce := by
  rw [addRow_eq] at ran
  obtain ⟨state, added, same⟩ := bind_eq_ok.mp ran
  cases same
  have made := h.row added
  exact made.once.withLists made.distinct made.created

theorem relist (loose : g.Loose a) (found : g.node? a = some n)
    (perm : list.Perm (a :: g.accesses block)) :
    ((g.modifyNode a ({ · with block })).relist n block list defList).ListedOnce := by
  refine ⟨fun b x member => ?_, fun b => ?_⟩
  · have old : x ∈ g.accesses b →
        ∃ m, (if x = a then (g.outline? x).map ({ · with block }) else g.outline? x) = some m ∧
          m.block = b := by
      intro early
      rw [if_neg]
      · exact h.home b x early
      · rintro rfl
        exact loose b early
    rw [accesses_relist] at member
    rw [outline?_relist, outline?_modifyBlock]
    split at member
    · rename_i here
      subst here
      rcases List.mem_cons.mp (perm.mem_iff.mp member) with rfl | member
      · exact ⟨{ n.outline with block := b }, by rw [if_pos rfl, outline?_eq found]; rfl, rfl⟩
      · exact old member
    · exact old member
  · rw [accesses_relist]
    split
    · exact perm.nodup_iff.mpr (List.nodup_cons.mpr ⟨loose block, h.distinct block⟩)
    · exact h.distinct b

theorem unlisted : (g.unlisted a block).ListedOnce := by
  refine ⟨fun b x member => h.home b x ?_, fun b => ?_⟩
  · rw [accesses_unlisted] at member
    split at member
    · exact (List.mem_filter.mp member).1
    · exact member
  · rw [accesses_unlisted]
    split
    · exact (h.distinct b).filter _
    · exact h.distinct b

theorem block_of_listed {b : Block} (member : a ∈ g.accesses b) (found : g.node? a = some n) :
    b = n.block := by
  obtain ⟨m, outline, rfl⟩ := h.home b a member
  rw [Option.some.inj (outline.symm.trans (outline?_eq found)), n.block_outline]

theorem loose_unlisted (found : g.node? a = some n) : (g.unlisted a n.block).Loose a := by
  intro b member
  rw [accesses_unlisted] at member
  split at member
  · simp at member
  · rename_i other
    exact other (h.block_of_listed member found)

end ListedOnce

namespace Places

theorem relist (right : g.Places order) :
    ((g.modifyNode a ({ · with block })).relist n block list defList).Places
    (order.unsettle block) := by
  intro b x settled member
  obtain ⟨other, settled⟩ := Tallies.settled_unsettle settled
  rw [accesses_relist, if_neg other] at member ⊢
  exact right b x settled member

/-- The place that is dropped is needed in no block that stays settled. -/
theorem unlisted (right : g.Places order) (h : g.ListedOnce) (found : g.node? a = some n) :
    (g.unlisted a n.block).Places ((order.drop a).unsettle n.block) := by
  intro b x settled member
  obtain ⟨other, settled⟩ := Tallies.settled_unsettle settled
  rw [accesses_unlisted, if_neg other] at member ⊢
  have apart : a ≠ x := by
    rintro rfl
    exact other (h.block_of_listed member found)
  change (order.places.erase a)[x]? = _
  rw [Std.TreeMap.getElem?_erase, if_neg (by simpa using apart)]
  exact right b x settled member

end Places

/-- Whether nothing is listed twice, and every settled place is the right one. -/
structure UpToDate (g : Graph) : Prop extends g.ListedOnce where
  places : g.Places g.order

namespace UpToDate

theorem congr (h : g.UpToDate) (lists : g'.lists = g.lists) (order : g'.order = g.order)
    (outline : ∀ b, ∀ x ∈ g.accesses b, g'.outline? x = g.outline? x) : g'.UpToDate := by
  refine ⟨h.toListedOnce.congr lists outline, ?_⟩
  have same : g'.accesses = g.accesses := funext fun b => by rw [accesses, lists]; rfl
  rw [order, Places, same]
  exact h.places

theorem of_agrees (h : g.UpToDate) (agrees : g.Agrees g') (order : g'.order = g.order) :
    g'.UpToDate :=
  h.congr agrees.lists order fun _ x _ => agrees.outline? x

theorem of_searched (h : g.UpToDate) (searched : g.Searched g') : g'.UpToDate :=
  ⟨h.toListedOnce.of_agrees searched.toAgrees, searched.settled h.toListedOnce h.places⟩

theorem relist (h : g.UpToDate) (loose : g.Loose a) (found : g.node? a = some n)
    (perm : list.Perm (a :: g.accesses block)) :
    ((g.modifyNode a ({ · with block })).relist n block list defList).UpToDate := by
  refine ⟨h.toListedOnce.relist loose found perm, ?_⟩
  rw [order_relist]
  exact h.places.relist

theorem insert (h : g.UpToDate) (loose : g.Loose a) {place : Place}
    (ran : g.insert a block place = .ok g') : g'.UpToDate := by
  obtain ⟨n, list, defList, found, perm, rfl⟩ := insert_perm ran
  exact h.relist loose found perm

theorem insertBefore (h : g.UpToDate) (loose : g.Loose a) {before : Option Access}
    (ran : g.insertBefore a block before = .ok g') : g'.UpToDate := by
  obtain ⟨n, list, defList, found, perm, rfl⟩ := insertBefore_perm ran
  exact h.relist loose found perm

theorem unlisted (h : g.UpToDate) (found : g.node? a = some n) : (g.unlisted a n.block).UpToDate :=
  ⟨h.toListedOnce.unlisted, h.places.unlisted h.toListedOnce found⟩

theorem detach (h : g.UpToDate) (ran : g.detach a = .ok g') : g'.UpToDate ∧ g'.Loose a := by
  obtain ⟨n, kept, _, _, forgot, ran⟩ := detach_ok ran
  obtain ⟨m, found, rfl⟩ := unlist_ok ran
  have kept' : kept.UpToDate := h.of_agrees (agrees_of_forget forgot) (order_of_forget forgot)
  exact ⟨kept'.unlisted found, kept'.toListedOnce.loose_unlisted found⟩

theorem clear (h : g.UpToDate) (loose : g.Loose a) : (g.clear a n).UpToDate := by
  refine h.congr (by rw [clear_eq]) (by rw [clear_eq]) fun b x member => ?_
  rw [outline?, node?_clear, if_neg]
  · rfl
  · rintro rfl
    exact loose b member

theorem discard (h : g.UpToDate) (ran : g.discard a = .ok g') : g'.UpToDate := by
  obtain ⟨n, nodes, kept, found, _, _, node?_eq, forgot, rfl⟩ := discard_ok ran
  obtain ⟨agrees, order⟩ := agrees_of_forget_clear (n := n) forgot
  refine of_agrees ?_ agrees (order.trans (by rw [clear_eq]))
  have dropped : UpToDate { g with nodes } := by
    refine h.congr rfl rfl fun _ x _ => ?_
    rw [outline?, node?_eq, Option.map_map, outline?]
    rfl
  have found' := node?_eq a
  rw [found, Option.map_some] at found'
  exact (dropped.unlisted found').clear (dropped.toListedOnce.loose_unlisted found')

theorem createPhi (h : g.UpToDate) (ran : g.createPhi block = .ok (g', a)) : g'.UpToDate := by
  obtain ⟨added, listed, _, rfl, rfl, inserted, rfl⟩ := createPhi_ok ran
  let phi : Node := ⟨g.nextNumber, block, .phi [], []⟩
  have added : UpToDate { (g.addNode phi).1 with nextNumber := g.nextNumber + 1 } :=
    ⟨h.toListedOnce.addNode.congr rfl fun _ _ _ => rfl, h.places⟩
  have loose : Loose { (g.addNode phi).1 with nextNumber := g.nextNumber + 1 } (g.addNode phi).2 :=
    h.toListedOnce.loose_of_fresh outline?_fresh
  exact (added.insert loose inserted).congr rfl rfl fun _ _ _ => rfl

theorem keptByRewiring : KeptByRewiring UpToDate :=
  keptByRewiring_of_outline fun lists _ _ order _ outline h =>
    h.congr lists order fun _ x _ => outline x

theorem keptBesidesListing : KeptBesidesListing UpToDate where
  toKeptByRelinking := keptByRewiring.relinking
  newAccess? := by
    intro g g' p o inst block a h ran
    have once := h.toListedOnce.newAccess? ran
    obtain ⟨n, next, _, _, _, _, _, rfl⟩ := newAccess?_ok ran
    exact ⟨once, h.places⟩
  createPhi := fun h => h.createPhi
  discard := fun h => h.discard

theorem edit (h : g.UpToDate) {edit : Edit} (once : edit.ListsOnce g)
    (ran : edit.apply g = .ok g') : g'.UpToDate := by
  refine keptBesidesListing.edit h (fun _ _ _ _ ran => keptByRewiring.addIncoming h ran)
    ?_ ?_ ?_ ?_ ran
  · rintro a block place rfl ran
    exact h.insert once ran
  · rintro a block before rfl ran
    exact h.insertBefore once ran
  · rintro detached a block place rfl ran' ran
    obtain ⟨h', loose⟩ := h.detach ran'
    exact h'.insert loose ran
  · rintro detached a block before rfl ran' ran
    obtain ⟨h', loose⟩ := h.detach ran'
    exact h'.insertBefore loose ran

theorem step (h : g.UpToDate) (step : g.OnceStep g') : g'.UpToDate := by
  obtain ⟨act, once, ran⟩ := step
  cases act with
  | change edit => exact h.edit once ran
  | ask inquiry => exact h.of_searched (searched_of_inquiry ran)

theorem run (h : g.UpToDate) (steps : Relation.ReflTransGen OnceStep g g') : g'.UpToDate := by
  induction steps with
  | refl => exact h
  | tail _ step ih => exact ih.step step

end UpToDate

theorem order_of_addRow {row : Layout.Row} (ran : addRow p o g row = .ok g') :
    g'.order = g.order := by
  rw [addRow_eq] at ran
  obtain ⟨state, added, same⟩ := bind_eq_ok.mp ran
  cases same
  refine foldlM_keeps (·.1.order = g.order) added rfl fun state inst state' same ran => ?_
  obtain ⟨created, made, ran⟩ := bind_eq_ok.mp ran
  split at ran
  · cases ran
    exact same
  · cases ran
    obtain ⟨n, next, _, _, _, _, _, rfl⟩ := newAccess?_ok made
    exact same

/-- While the rows of a procedure are added nothing is settled, so that a list may take the place of
another if a block is placed twice. -/
theorem build_upToDate {config : Config} (built : build p o config = .ok g) : g.UpToDate := by
  obtain ⟨tree, entry, base, constructed, finished⟩ := build_ok built
  obtain ⟨filled, rows, ran⟩ := bind_eq_ok.mp constructed
  obtain ⟨merged, phis, ran⟩ := bind_eq_ok.mp ran
  have filled' : filled.ListedOnce ∧ filled.order = {} :=
    foldlM_keeps (fun g => g.ListedOnce ∧ g.order = {}) rows
      ⟨(Lockstep.start {} (.ofProcedure p) tree entry).listedOnce, rfl⟩
      fun _ _ _ h ran => ⟨h.1.addRow ran, (order_of_addRow ran).trans h.2⟩
  have first : filled.UpToDate := ⟨filled'.1, .of_empty (by rw [filled'.2])⟩
  have merged' : merged.UpToDate := by
    refine foldlM_keeps UpToDate phis first fun g block g' h ran => ?_
    obtain ⟨⟨created, a⟩, made, same⟩ := bind_eq_ok.mp ran
    cases same
    exact h.createPhi made
  have linked : UpToDate { base with config } :=
    (UpToDate.keptByRewiring.linkAll UpToDate.discard merged' ran).of_agrees
      (base.agrees_configured config base.order) rfl
  split at finished
  · exact linked.of_searched (searched_of_refineUses finished)
  · cases finished
    exact linked

/-- In a list without repetitions the place of an access tells what comes before it. -/
theorem idxOf_lt_idxOf_iff (distinct : l.Nodup) (memberX : x ∈ l) (memberY : y ∈ l) :
    l.idxOf x < l.idxOf y ↔ List.Sublist [x, y] l := by
  induction l with
  | nil => cases memberX
  | cons z l ih =>
      obtain ⟨fresh, distinct⟩ := List.nodup_cons.mp distinct
      by_cases first : x = z
      · subst first
        rw [List.idxOf_cons_self, List.cons_sublist_cons, List.singleton_sublist]
        by_cases same : y = x
        · subst same
          simp [fresh]
        · rw [List.idxOf_cons_ne l (Ne.symm same)]
          simpa [same] using memberY
      · have memberX := (List.mem_cons.mp memberX).resolve_left first
        have skip : List.Sublist [x, y] (z :: l) ↔ List.Sublist [x, y] l := by
          simp [List.sublist_cons_iff, first]
        rw [skip, List.idxOf_cons_ne l (Ne.symm first)]
        by_cases same : y = z
        · subst same
          rw [List.idxOf_cons_self]
          refine iff_of_false (Nat.not_lt_zero _) fun sub => fresh (sub.subset (by simp))
        · rw [List.idxOf_cons_ne l (Ne.symm same), Nat.succ_lt_succ_iff]
          exact ih distinct memberX ((List.mem_cons.mp memberY).resolve_left same)

/-- However a built graph has been edited and asked, as long as nothing was put into a list while it
was in one: two accesses of one list can be compared, whatever has been settled before, and the
answer is their order in the list as it is now. -/
theorem locallyDominates_iff_before {config : Config} (built : build p o config = .ok g)
    (steps : Relation.ReflTransGen OnceStep g g') (listedX : x ∈ g'.accesses block)
    (listedY : y ∈ g'.accesses block) (restX : x ≠ .liveOnEntry) (restY : y ≠ .liveOnEntry) :
    ∃ answer asked, g'.ask (g'.locallyDominates x y) = .ok (answer, asked) ∧
      (answer = true ↔ x = y ∨ List.Sublist [x, y] (g'.accesses block)) := by
  have h := (build_upToDate built).run steps
  by_cases same : x = y
  · subst same
    obtain ⟨_, outline, _⟩ := h.home block x listedX
    obtain ⟨n, found, _⟩ := node?_of_outline? outline
    obtain ⟨order, answered, _⟩ := (locallyDominates_self found).ask h.places
    exact ⟨true, _, answered, iff_of_true rfl (.inl rfl)⟩
  · obtain ⟨order, answered, _⟩ :=
      (h.toListedOnce.locallyDominates listedX listedY same restX restY).ask h.places
    refine ⟨_, _, answered, ?_⟩
    rw [decide_eq_true_iff, idxOf_lt_idxOf_iff (h.distinct block) listedX listedY]
    exact (or_iff_right same).symm

open Walker in
/-- A second store is put before the phi of the loop and asked about, the store of the body moves
between the two and is asked about, and the second store moves to the end. -/
def storesShuffled : List Act :=
  [.change (.createAccess storeBeforeLoop byAddress ⟨0⟩ ⟨1⟩),
    .change (.insertBefore ⟨5⟩ ⟨1⟩ (some ⟨4⟩)), .ask (.locallyDominates ⟨5⟩ ⟨4⟩),
    .change (.moveBefore ⟨2⟩ ⟨1⟩ (some ⟨4⟩)), .ask (.dominates ⟨2⟩ ⟨4⟩),
    .change (.move ⟨5⟩ ⟨1⟩ .ending)]

open Walker in
/-- The place of the phi is still the one it had behind both stores, but it is not what the answer
comes from. -/
theorem locallyDominates_iff_before_storesShuffled :
    ∃ g g', build storeBeforeLoop byAddress {} = .ok g ∧ Relation.ReflTransGen OnceStep g g' ∧
      g'.accesses ⟨1⟩ = [⟨2⟩, ⟨4⟩, ⟨5⟩] ∧ g'.order.places[(⟨4⟩ : Access)]? = some 3 ∧
      ∃ answer asked, g'.ask (g'.locallyDominates ⟨4⟩ ⟨5⟩) = .ok (answer, asked) ∧
        (answer = true ↔ (⟨4⟩ : Access) = ⟨5⟩ ∨ List.Sublist [⟨4⟩, ⟨5⟩] (g'.accesses ⟨1⟩)) := by
  obtain ⟨g, built, runs⟩ := exists_of_any (x := build storeBeforeLoop byAddress {})
    (P := runsWhere (fun g act => act.ListsOnce g) (fun g' => g'.accesses ⟨1⟩ = [⟨2⟩, ⟨4⟩, ⟨5⟩] ∧
      g'.order.places[(⟨4⟩ : Access)]? = some 3) storesShuffled) (by decide +kernel)
  obtain ⟨g', steps, facts⟩ := exists_of_runsWhere runs
  obtain ⟨list, place⟩ := of_decide_eq_true facts
  exact ⟨g, g', built, steps, list, place,
    locallyDominates_iff_before built steps (by simp [list]) (by simp [list]) (by decide)
    (by decide)⟩

end Graph

end MemoryFlow
