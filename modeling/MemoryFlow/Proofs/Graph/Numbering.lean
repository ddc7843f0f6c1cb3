import MemoryFlow.Proofs.Graph.Lockstep

/-! # Places and lists

Nothing keeps an access from being put into the lists of several blocks, and then the place recorded
for it may be that in any of them. But whatever is edited and asked, a place is only ever recorded
for what is listed, and for what is listed in a single block it is the place in that block, if the
block is settled (`Graph.Tallies`). What is listed at all is listed in its own block
(`Graph.Housed`).
-/

namespace MemoryFlow.Graph

variable {g g' : Graph} {p : Procedure} {o : Oracle} {a x : Access} {n : Node} {b block : Block}
  {list defList : List Access} {order order' : LocalOrder} {moving : Option Access}

def ListedInOne (g : Graph) (a : Access) : Prop :=
  ∀ b b', a ∈ g.accesses b → a ∈ g.accesses b' → b = b'

def placeIn (g : Graph) (b : Block) (a : Access) : Option Nat :=
  (LocalOrder.settle {} b (g.accesses b)).places[a]?

/-- Whether the places in an order tally with the lists: what has a place is listed, and what is
listed in a single block has, if that is settled, no place but that in the block. -/
structure Tallies (g : Graph) (order : LocalOrder) : Prop where
  listed : ∀ a k, order.places[a]? = some k → ∃ b, a ∈ g.accesses b
  right : ∀ b a k, order.settled.contains b = true → a ∈ g.accesses b → g.ListedInOne a →
    order.places[a]? = some k → g.placeIn b a = some k

/-- Whether all that is listed has been created, and is listed in its own block unless it is removed
or just being moved. -/
structure Housed (g : Graph) (moving : Option Access) : Prop where
  created : ∀ b, ∀ a ∈ g.accesses b, a.index < g.nodes.size
  home : ∀ b a n, a ∈ g.accesses b → g.outline? a = some n → moving ≠ some a →
    a ∈ g.accesses n.block

theorem ListedOnce.listedInOne (h : g.ListedOnce) (a : Access) : g.ListedInOne a :=
  fun _ _ listed listed' => h.block_unique listed listed'

theorem Lockstep.housed (h : g.Lockstep) : g.Housed none where
  created b a listed := by
    obtain ⟨n, found, _⟩ := (h.lists b).placed a listed
    obtain ⟨m, known, _⟩ := node?_of_outline? found
    exact lt_of_node? known
  home b a n listed found _ := by
    obtain ⟨m, found', here⟩ := (h.lists b).placed a listed
    rwa [Option.some.inj (found.symm.trans found'), here]

theorem getElem?_numbered_of_not_mem {l : List Access} (absent : a ∉ l) (first : Nat)
    (places : Std.TreeMap Access Nat) :
    ((l.zipIdx first).foldl (fun places (x, i) => places.insert x (i + 1)) places)[a]? =
      places[a]? := by
  induction l generalizing first places with
  | nil => rfl
  | cons x l ih =>
      rw [List.zipIdx_cons, List.foldl_cons, ih (List.not_mem_of_not_mem_cons absent),
        getElem?_insert, if_neg (List.ne_of_not_mem_cons absent)]

/-- The place given to what is listed does not depend on what was settled before. -/
theorem getElem?_numbered_of_mem {l : List Access} (member : a ∈ l) (first : Nat)
    (places places' : Std.TreeMap Access Nat) :
    ((l.zipIdx first).foldl (fun places (x, i) => places.insert x (i + 1)) places)[a]? =
      ((l.zipIdx first).foldl (fun places (x, i) => places.insert x (i + 1)) places')[a]? := by
  induction l generalizing first places places' with
  | nil => cases member
  | cons x l ih =>
      rw [List.zipIdx_cons, List.foldl_cons, List.foldl_cons]
      by_cases later : a ∈ l
      · exact ih later _ _ _
      · obtain rfl := (List.mem_cons.mp member).resolve_right later
        simp only [getElem?_numbered_of_not_mem later, getElem?_insert, if_true]

theorem accesses_relist : (g.relist n block list defList).accesses b =
    if b = block then list else g.accesses b := by
  have lists : (g.relist n block list defList).lists = g.lists.insert block list := by
    rw [relist]
    cases n.isUse <;> rfl
  rw [accesses, lists, getD_insert]
  rfl

theorem order_relist : (g.relist n block list defList).order = g.order.unsettle block := by
  rw [relist]
  cases n.isUse <;> rfl

theorem size_relist : (g.relist n block list defList).nodes.size = g.nodes.size := by
  rw [relist]
  cases n.isUse with
  | true => rfl
  | false => exact size_forgetAll _

theorem accesses_unlisted : (g.unlisted a block).accesses b =
    if b = block then (g.accesses b).filter (· != a) else g.accesses b :=
  getD_unlistFrom g.lists block b a

theorem mem_unlisted (other : x ≠ a) : x ∈ (g.unlisted a block).accesses b ↔ x ∈ g.accesses b := by
  rw [accesses_unlisted]
  split
  · simp [other]
  · rfl

theorem size_of_discard (ran : g.discard a = .ok g') : g'.nodes.size = g.nodes.size := by
  rw [Graph.discard] at ran
  split at ran
  · cases ran
  obtain ⟨n, _, ran⟩ := bind_eq_ok.mp ran
  dsimp only at ran
  split at ran
  · cases ran
  obtain ⟨outside, unlisted', ran⟩ := bind_eq_ok.mp ran
  obtain ⟨_, _, rfl⟩ := unlist_ok unlisted'
  obtain ⟨dropped, ran', ran⟩ := bind_eq_ok.mp ran
  obtain ⟨kept, forgot, same⟩ := bind_eq_ok.mp ran
  cases same
  have dropped' : dropped.nodes.size = g.nodes.size := by
    refine foldlM_keeps (·.nodes.size = g.nodes.size) ran' rfl fun h d h' size ran => ?_
    obtain ⟨_, _, same⟩ := bind_eq_ok.mp ran
    cases same
    rwa [modifyNode, Array.size_modify]
  rw [clear_eq, Array.size_setIfInBounds, (kept.agrees_forgetNaming a).size,
    (agrees_of_forget forgot).size, dropped']

theorem insertAhead_perm {before : Access} {l : List Access} :
    (insertAhead a before l).Perm (a :: l) := by
  rw [insertAhead]
  refine List.perm_middle.trans ?_
  rw [List.takeWhile_append_dropWhile]

theorem placed_perm {place : Place} {isPhi : Bool} {l : List Access}
    (ran : g.placed a isPhi place l = .ok list) : list.Perm (a :: l) := by
  cases place with
  | ending =>
      cases ran
      exact List.perm_append_singleton a l
  | beginning =>
      cases isPhi with
      | true =>
          cases ran
          exact .refl _
      | false =>
          rw [insertAfterPhis_ok ran]
          refine List.perm_middle.trans ?_
          rw [List.takeWhile_append_dropWhile]

theorem insert_perm {place : Place} (ran : g.insert a block place = .ok g') :
    ∃ n list defList, g.node? a = some n ∧ list.Perm (a :: g.accesses block) ∧
      g' = (g.modifyNode a ({ · with block })).relist n block list defList := by
  obtain ⟨n, moved, list, defList, found, rfl, placed, _, same⟩ := insert_ok ran
  exact ⟨n, list, defList, found, placed_perm placed, same⟩

theorem insertBefore_perm {before : Option Access} (ran : g.insertBefore a block before = .ok g') :
    ∃ n list defList, g.node? a = some n ∧ list.Perm (a :: g.accesses block) ∧
      g' = (g.modifyNode a ({ · with block })).relist n block list defList := by
  cases before with
  | none => exact insert_perm ran
  | some before =>
      obtain ⟨n, moved, next, found, rfl, _, _, same⟩ := insertBefore_some_ok ran
      exact ⟨n, _, _, found, insertAhead_perm, same⟩

namespace Housed

theorem congr (h : g.Housed moving) (lists : g'.lists = g.lists)
    (size : g'.nodes.size = g.nodes.size) (outline : ∀ x, g'.outline? x = g.outline? x) :
    g'.Housed moving := by
  have same : ∀ b, g'.accesses b = g.accesses b := fun b => by rw [accesses, lists]; rfl
  refine ⟨fun b a listed => ?_, fun b a n listed found still => ?_⟩
  · rw [size]
    exact h.created b a (same b ▸ listed)
  · rw [same] at listed ⊢
    exact h.home b a n listed (outline a ▸ found) still

theorem of_agrees (h : g.Housed moving) (agrees : g.Agrees g') : g'.Housed moving :=
  h.congr agrees.lists agrees.size agrees.outline?

theorem addNode (h : g.Housed none) : (g.addNode n).1.Housed none := by
  refine ⟨fun b a listed => ?_, fun b a m listed found still => ?_⟩
  · exact (h.created b a listed).trans (by simp [Graph.addNode])
  · refine h.home b a m listed ?_ still
    rwa [outline?_addNode, if_neg] at found
    rintro rfl
    exact Nat.lt_irrefl _ (h.created b _ listed)

theorem relist (h : g.Housed moving) (found : g.node? a = some n)
    (others : ∀ x, moving = some x → x = a) (perm : list.Perm (a :: g.accesses block)) :
    ((g.modifyNode a ({ · with block })).relist n block list defList).Housed none := by
  have member : ∀ x b,
      x ∈ ((g.modifyNode a ({ · with block })).relist n block list defList).accesses b ↔
        b = block ∧ x = a ∨ x ∈ g.accesses b := by
    intro x b
    rw [accesses_relist]
    split
    · rename_i here
      rw [perm.mem_iff, List.mem_cons, here]
      simp
    · rename_i elsewhere
      simp only [elsewhere, false_and, false_or]
      rfl
  refine ⟨fun b x listed => ?_, fun b x m listed known _ => ?_⟩
  · rw [size_relist, modifyNode, Array.size_modify]
    rcases (member x b).mp listed with ⟨_, rfl⟩ | listed
    · exact lt_of_node? found
    · exact h.created b x listed
  · rw [outline?_relist, outline?_modifyBlock] at known
    rw [member]
    by_cases here : x = a
    · subst here
      rw [if_pos rfl, outline?_eq found] at known
      cases known
      exact .inl ⟨rfl, rfl⟩
    · rw [if_neg here] at known
      have listed := ((member x b).mp listed).resolve_left fun new => here new.2
      exact .inr (h.home b x m listed known fun same => here (others x same))

theorem insert (h : g.Housed moving) (others : ∀ x, moving = some x → x = a) {place : Place}
    (ran : g.insert a block place = .ok g') : g'.Housed none := by
  obtain ⟨n, list, defList, found, perm, rfl⟩ := insert_perm ran
  exact h.relist found others perm

theorem insertBefore (h : g.Housed moving) (others : ∀ x, moving = some x → x = a)
    {before : Option Access} (ran : g.insertBefore a block before = .ok g') : g'.Housed none := by
  obtain ⟨n, list, defList, found, perm, rfl⟩ := insertBefore_perm ran
  exact h.relist found others perm

theorem unlisted (h : g.Housed none) : (g.unlisted a block).Housed (some a) := by
  have before : ∀ {x b}, x ∈ (g.unlisted a block).accesses b → x ∈ g.accesses b := by
    intro x b listed
    rw [accesses_unlisted] at listed
    split at listed
    · exact (List.mem_filter.mp listed).1
    · exact listed
  refine ⟨fun b x listed => h.created b x (before listed), fun b x n listed found still => ?_⟩
  have other : x ≠ a := fun same => still (congrArg some same.symm)
  exact (mem_unlisted other).mpr (h.home b x n (before listed) found (by simp))

theorem detach (h : g.Housed none) (ran : g.detach a = .ok g') : g'.Housed (some a) := by
  obtain ⟨n, kept, _, _, forgot, ran⟩ := detach_ok ran
  obtain ⟨m, _, rfl⟩ := unlist_ok ran
  exact (h.of_agrees (agrees_of_forget forgot)).unlisted

theorem discard (h : g.Housed none) (ran : g.discard a = .ok g') : g'.Housed none := by
  have size := size_of_discard ran
  obtain ⟨n, nodes, kept, _, _, _, node?_eq, forgot, rfl⟩ := discard_ok ran
  have agrees := (agrees_of_forget_clear (n := n) forgot).1
  have same : ((kept.forgetNaming a).clear a n).accesses = (g.unlisted a n.block).accesses := by
    rw [agrees.accesses, clear_eq]
    rfl
  have outside : (g.unlisted a n.block).Housed (some a) := h.unlisted
  refine ⟨fun b x listed => ?_, fun b x m listed found _ => ?_⟩
  · rw [size]
    exact outside.created b x (same ▸ listed)
  · rw [agrees.outline?, outline?_discarded node?_eq] at found
    rw [same] at listed ⊢
    split at found
    · cases found
    · rename_i other
      exact outside.home b x m listed found fun here => other (Option.some.inj here).symm

theorem keptByRewiring : KeptByRewiring (Housed · none) :=
  keptByRewiring_of_outline fun lists _ _ _ size outline h => h.congr lists size outline

theorem keptInPlace : KeptInPlace (Housed · none) where
  toKeptByRelinking := keptByRewiring.relinking
  newAccess? := by
    intro g g' p o inst block a h ran
    obtain ⟨n, next, _, _, _, _, _, rfl⟩ := newAccess?_ok ran
    exact (h.addNode (n := n)).congr rfl rfl fun _ => rfl
  createPhi := by
    intro g g' block a h ran
    obtain ⟨added, listed, _, rfl, rfl, inserted, rfl⟩ := createPhi_ok ran
    have added : Housed { (g.addNode ⟨g.nextNumber, block, .phi [], []⟩).1 with
        nextNumber := g.nextNumber + 1 } none := h.addNode.congr rfl rfl fun _ => rfl
    exact (added.insert (by simp) inserted).congr rfl rfl fun _ => rfl
  insert h ran := h.insert (by simp) ran
  insertBefore h ran := h.insertBefore (by simp) ran
  discard h ran := h.discard ran

theorem act (h : g.Housed none) {act : Act} (ran : act.apply g = .ok g') : g'.Housed none := by
  cases act with
  | ask inquiry => exact h.of_agrees (agrees_of_inquiry ran)
  | change edit =>
      refine keptInPlace.edit h (fun _ _ _ _ ran => keptByRewiring.addIncoming h ran) ?_ ran
      rintro detached a ran' (⟨block, place, ran⟩ | ⟨block, before, ran⟩)
      · exact (h.detach ran').insert (fun x same => (Option.some.inj same).symm) ran
      · exact (h.detach ran').insertBefore (fun x same => (Option.some.inj same).symm) ran

end Housed

namespace Tallies

theorem of_empty (none : ∀ a : Access, order.places[a]? = none) : g.Tallies order := by
  refine ⟨fun a k place => ?_, fun b a k _ _ _ place => ?_⟩ <;>
    simp [none a] at place

theorem congr (h : g.Tallies order) (same : g'.accesses = g.accesses) : g'.Tallies order := by
  obtain ⟨listed, right⟩ := h
  constructor
  · rwa [same]
  · simpa only [ListedInOne, placeIn, same] using right

theorem settle (h : g.Tallies order) (block : Block) :
    g.Tallies (order.settle block (g.accesses block)) := by
  refine ⟨fun a k place => ?_, fun b a k settled member single place => ?_⟩
  · by_cases here : a ∈ g.accesses block
    · exact ⟨block, here⟩
    · rw [LocalOrder.settle, getElem?_numbered_of_not_mem here] at place
      exact h.listed a k place
  · by_cases here : a ∈ g.accesses block
    · obtain rfl := single b block member here
      rwa [placeIn, LocalOrder.settle, getElem?_numbered_of_mem here _ _ order.places]
    · rw [LocalOrder.settle, getElem?_numbered_of_not_mem here] at place
      refine h.right b a k ?_ member single place
      rw [LocalOrder.settle, Std.TreeSet.contains_insert, Bool.or_eq_true] at settled
      refine settled.resolve_left fun same => here ?_
      obtain rfl : block = b := by simpa using same
      exact member

theorem settling (h : g.Tallies order) (settling : g.Settling order order') : g.Tallies order' := by
  induction settling with
  | refl => exact h
  | tail _ step ih =>
      obtain ⟨block, rfl⟩ := step
      exact ih.settle block

theorem settled_unsettle (settled : (order.unsettle block).settled.contains b = true) :
    b ≠ block ∧ order.settled.contains b = true := by
  rw [LocalOrder.unsettle, Std.TreeSet.contains_erase, Bool.and_eq_true] at settled
  exact ⟨fun same => by simp [same] at settled, settled.2⟩

theorem relist (h : g.Tallies order) (perm : list.Perm (a :: g.accesses block)) :
    ((g.modifyNode a ({ · with block })).relist n block list defList).Tallies
    (order.unsettle block) := by
  set put := (g.modifyNode a ({ · with block })).relist n block list defList
  have still : ∀ {b x}, x ∈ g.accesses b → x ∈ put.accesses b := by
    intro b x member
    rw [accesses_relist]
    split
    · rename_i here
      rw [perm.mem_iff, ← here]
      exact List.mem_cons_of_mem a member
    · exact member
  refine ⟨fun x k place => ?_, fun b x k settled member single place => ?_⟩
  · obtain ⟨b, member⟩ := h.listed x k place
    exact ⟨b, still member⟩
  · obtain ⟨other, settled⟩ := settled_unsettle settled
    have same : put.accesses b = g.accesses b := by
      rw [accesses_relist, if_neg other]
      rfl
    rw [same] at member
    rw [placeIn, same]
    exact h.right b x k settled member
      (fun b b' member member' => single b b' (still member) (still member')) place

theorem insert (h : g.Tallies g.order) {place : Place} (ran : g.insert a block place = .ok g') :
    g'.Tallies g'.order := by
  obtain ⟨n, list, defList, _, perm, rfl⟩ := insert_perm ran
  rw [order_relist]
  exact h.relist perm

theorem unlisted (h : g.Tallies order) :
    (g.unlisted a block).Tallies ((order.drop a).unsettle block) := by
  have placed : ∀ {x k}, ((order.drop a).unsettle block).places[x]? = some k →
      x ≠ a ∧ order.places[x]? = some k := by
    intro x k place
    change (order.places.erase a)[x]? = some k at place
    rw [Std.TreeMap.getElem?_erase] at place
    split at place
    · cases place
    · rename_i other
      exact ⟨fun same => other (by simp [same]), place⟩
  refine ⟨fun x k place => ?_, fun b x k settled member single place => ?_⟩
  · obtain ⟨other, place⟩ := placed place
    obtain ⟨b, member⟩ := h.listed x k place
    exact ⟨b, (mem_unlisted other).mpr member⟩
  · obtain ⟨other, place⟩ := placed place
    obtain ⟨elsewhere, settled⟩ := settled_unsettle settled
    have same : (g.unlisted a block).accesses b = g.accesses b := by
      rw [accesses_unlisted, if_neg elsewhere]
    rw [same] at member
    rw [placeIn, same]
    exact h.right b x k settled member (fun b b' member member' =>
      single b b' ((mem_unlisted other).mpr member) ((mem_unlisted other).mpr member')) place

theorem keptByRewiring : KeptByRewiring fun g => g.Tallies g.order :=
  keptByRewiring_of_outline fun lists _ _ order _ _ h => by
    rw [order]
    exact h.congr (funext fun b => by rw [accesses, lists]; rfl)

theorem keptByEditing : KeptByEditing fun g => g.Tallies g.order where
  toKeptByRewiring := keptByRewiring
  newAccess? := by
    intro g g' p o inst block a h ran
    obtain ⟨n, next, _, _, _, _, _, rfl⟩ := newAccess?_ok ran
    exact h.congr rfl
  createPhi := by
    intro g g' block a h ran
    obtain ⟨added, listed, _, rfl, rfl, inserted, rfl⟩ := createPhi_ok ran
    have added : Tallies { (g.addNode ⟨g.nextNumber, block, .phi [], []⟩).1 with
        nextNumber := g.nextNumber + 1 } g.order := h.congr rfl
    exact (added.insert inserted).congr rfl
  insert h ran := h.insert ran
  insertBefore := by
    intro g g' a block before h ran
    obtain ⟨n, list, defList, _, perm, rfl⟩ := insertBefore_perm ran
    rw [order_relist]
    exact h.relist perm
  detach := by
    intro g g' a h ran
    obtain ⟨n, kept, _, _, forgot, ran⟩ := detach_ok ran
    obtain ⟨m, _, rfl⟩ := unlist_ok ran
    have kept' : kept.Tallies kept.order := by
      rw [order_of_forget forgot]
      exact h.congr (agrees_of_forget forgot).accesses
    exact kept'.unlisted
  discard := by
    intro g g' a h ran
    obtain ⟨n, nodes, kept, _, _, _, _, forgot, rfl⟩ := discard_ok ran
    obtain ⟨agrees, order⟩ := agrees_of_forget_clear (n := n) forgot
    have outside : (g.unlisted a n.block).Tallies ((g.order.drop a).unsettle n.block) := h.unlisted
    rw [order]
    refine outside.congr ?_
    rw [agrees.accesses, clear_eq]
    rfl

theorem act (h : g.Tallies g.order) {act : Act} (ran : act.apply g = .ok g') :
    g'.Tallies g'.order := by
  cases act with
  | change edit => exact keptByEditing.edit h ran
  | ask inquiry =>
      have searched := searched_of_inquiry ran
      exact (h.settling searched.settling).congr searched.toAgrees.accesses

end Tallies

/-- While a graph is constructed, nothing is asked about the order of accesses. -/
theorem construct_places {flow : FlowGraph} {tree : Tree} {entry : Block}
    (ran : construct p o flow tree entry = .ok g) : ∀ a : Access, g.order.places[a]? = none := by
  have rewiring : KeptByRewiring fun g => ∀ a : Access, g.order.places[a]? = none :=
    keptByRewiring_of_outline fun _ _ _ order _ _ none => order ▸ none
  refine rewiring.construct ?_ ?_ ?_ (fun _ _ none => none) (fun a => rfl) ran
  · intro g g' a none ran x
    obtain ⟨n, nodes, kept, _, _, _, _, forgot, rfl⟩ := discard_ok ran
    rw [(agrees_of_forget_clear (n := n) forgot).2]
    change (g.order.places.erase a)[x]? = _
    rw [Std.TreeMap.getElem?_erase, none x, ite_self]
  · intro g g' inst block a none ran
    obtain ⟨n, next, _, _, _, _, _, rfl⟩ := newAccess?_ok ran
    exact none
  · intro g g' block a none ran x
    obtain ⟨added, listed, _, rfl, rfl, inserted, rfl⟩ := createPhi_ok ran
    obtain ⟨n, list, defList, _, _, rfl⟩ := insert_perm inserted
    change (Graph.relist _ n block list defList).order.places[x]? = _
    rw [order_relist]
    exact none x

theorem build_tallies {config : Config} (built : build p o config = .ok g) : g.Tallies g.order := by
  obtain ⟨tree, entry, base, constructed, finished⟩ := build_ok built
  have searched : Searched { base with config } g := by
    split at finished
    · exact searched_of_refineUses finished
    · cases finished
      exact .refl
  have base' : Tallies { base with config } base.order := .of_empty (construct_places constructed)
  exact (base'.settling searched.settling).congr searched.toAgrees.accesses

/-- Whatever is edited and asked, places tally with the lists, and what is listed is listed in its
block. -/
theorem tallies_of_acts {config : Config} {acts : List Act} (distinct : p.layout.blocks.Nodup)
    (built : build p o config = .ok g) (ran : acts.foldlM Act.apply g = .ok g') :
    g'.Tallies g'.order ∧ g'.Housed none :=
  foldlM_keeps (fun g => g.Tallies g.order ∧ g.Housed none) ran
    ⟨build_tallies built, (build_lockstep distinct built).housed⟩
    fun _ _ _ held ran => ⟨held.1.act ran, held.2.act ran⟩

end MemoryFlow.Graph
