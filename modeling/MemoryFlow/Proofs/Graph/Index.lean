import MemoryFlow.Proofs.Graph.Rewiring

/-! # The index of cached clobbers

For every clobber the index names the accesses it is cached for. Every change to what is cached is
made in both places, so that all that names an access can be forgotten before the access goes:
whatever is cached is in the graph.
-/

namespace MemoryFlow

namespace Graph

variable {g g' kept : Graph} {a c d u x new : Access} {n m : Node} {old : Option Access}
  {f : Node → Node} {block : Block}

def dependents (g : Graph) (c : Access) : List Access :=
  g.cachedBy.getD c []

theorem isLive_iff : g.isLive a = true ↔ ∃ n, g.node? a = some n :=
  Option.isSome_iff_exists

theorem isLive_of_found (found : g.node? a = some n) : g.isLive a = true :=
  isLive_iff.mpr ⟨n, found⟩

theorem Agrees.isLive (agrees : g.Agrees g') : g'.isLive x = g.isLive x := by
  have same := congrArg Option.isSome (agrees.nodes x)
  simpa [Graph.isLive] using same

@[simp] theorem isLive_exchange : (g.exchange a f old new).isLive x = g.isLive x := by
  simp [isLive, node?_exchange]

@[simp] theorem isLive_clear : (g.clear a n).isLive x = (x != a && g.isLive x) := by
  rw [isLive, node?_clear]
  by_cases here : x = a <;> simp [here, isLive]

theorem cached?_exchange (same : ∀ n, (f n).cached? = n.cached?) :
    (g.exchange a f old new).cached? x = g.cached? x := by
  rw [cached?, node?_exchange, cached?]
  cases g.node? x with
  | none => rfl
  | some n =>
      simp only [Option.map_some, Option.bind_some, Node.cached?_mapUsers]
      split
      · exact same n
      · rfl

theorem cached?_of_mapUsers {f : List Access → List Access}
    (same : g'.node? x = (g.node? x).map (·.mapUsers f)) : g'.cached? x = g.cached? x := by
  rw [cached?, same, cached?]
  cases g.node? x <;> rfl

theorem cached?_modifyBlock : (g.modifyNode a ({ · with block })).cached? x = g.cached? x := by
  rw [cached?, node?_modifyNode, cached?]
  split
  · cases g.node? x <;> rfl
  · rfl

theorem cachedBy_exchange : (g.exchange a f old new).cachedBy = g.cachedBy := by
  cases old <;> rfl

theorem cached?_setCached_none :
    (g.setCached a none).cached? x = if x = a then none else g.cached? x := by
  rw [cached?, setCached, node?_modifyNode, cached?]
  split
  · cases g.node? x with
    | none => rfl
    | some n => exact n.cached?_forgotten
  · rfl

theorem mem_named : a ∈ g.named ↔ ∃ c, a ∈ g.dependents c := by
  simp only [named, dependents, Std.TreeMap.getD_eq_getD_getElem?]
  constructor
  · intro member
    obtain ⟨⟨c, list⟩, entry, member⟩ := List.mem_flatMap.mp member
    refine ⟨c, ?_⟩
    rwa [Std.TreeMap.mem_toList_iff_getElem?_eq_some.mp entry]
  · rintro ⟨c, member⟩
    cases held : g.cachedBy[c]? with
    | none => simp [held] at member
    | some list =>
        rw [held] at member
        exact List.mem_flatMap.mpr
          ⟨(c, list), Std.TreeMap.mem_toList_iff_getElem?_eq_some.mpr held, member⟩

@[simp] theorem cached?_clear : (g.clear a n).cached? x = if x = a then none else g.cached? x := by
  rw [cached?, node?_clear, cached?]
  split <;> rfl

theorem cachedBy_clear : (g.clear a n).cachedBy = g.cachedBy := by
  rw [clear_eq]

theorem unindex_eq : g.unindex c a = { g with cachedBy := withoutMember g.cachedBy c a } := by
  unfold unindex withoutMember
  cases g.cachedBy[c]? with
  | none => rfl
  | some list =>
      dsimp only
      cases list.filter (· != a) <;> rfl

theorem mem_dependents_unindex :
    u ∈ (g.unindex c a).dependents x ↔ u ∈ g.dependents x ∧ ¬(x = c ∧ u = a) := by
  rw [unindex_eq, dependents, getD_withoutMember, dependents]
  split <;> simp_all

theorem mem_dependents_index :
    u ∈ (g.index c a).dependents x ↔ u ∈ g.dependents x ∨ x = c ∧ u = a := by
  unfold index dependents
  dsimp only
  split
  · simp_all
  · rw [getD_insert]
    split <;> simp_all

theorem cached?_of_forget (forgot : g.forget a = .ok kept) :
    kept.cached? x = if x = a then none else g.cached? x := by
  obtain ⟨n, read, same⟩ := bind_eq_ok.mp forgot
  split at same
  · rename_i fresh
    cases same
    split
    · rename_i here
      rw [here, cached?_eq (node?_of_node read), fresh]
    · rfl
  · cases same
    rw [unindex_eq]
    exact cached?_setCached_none

theorem cached?_forgetNaming : (g.forgetNaming c).cached? x =
    if x ∈ g.dependents c ∧ g.cached? x = some c then none else g.cached? x := by
  let step := fun (g : Graph) a =>
    if (g.node? a).any (·.cached? == some c) then g.setCached a none else g
  have single : ∀ (g : Graph) a, (step g a).cached? x =
      if x = a ∧ g.cached? x = some c then none else g.cached? x := by
    intro g a
    have asked : (g.node? a).any (·.cached? == some c) = decide (g.cached? a = some c) := by
      rw [cached?]
      cases g.node? a <;> simp [beq_eq_decide]
    dsimp only [step]
    rw [asked]
    by_cases here : x = a
    · subst here
      by_cases names : g.cached? x = some c <;> simp [names, cached?_setCached_none]
    · by_cases names : g.cached? a = some c <;> simp [names, here, cached?_setCached_none]
  -- A graph later in the fold has fewer answers, so the graph is generalised along with the list.
  have all : ∀ (l : List Access) (g : Graph), (l.foldl step g).cached? x =
      if x ∈ l ∧ g.cached? x = some c then none else g.cached? x := by
    intro l
    induction l with
    | nil => simp
    | cons a l ih =>
        intro g
        rw [List.foldl_cons, ih, single]
        by_cases here : x = a <;> by_cases names : g.cached? x = some c <;> simp [here, names]
  exact all (g.dependents c) { g with cachedBy := g.cachedBy.erase c }

theorem cachedBy_forgetNaming : (g.forgetNaming c).cachedBy = g.cachedBy.erase c := by
  unfold forgetNaming
  refine List.foldlRecOn (motive := fun kept : Graph => kept.cachedBy = g.cachedBy.erase c)
    _ _ rfl ?_
  intro kept same a _
  split <;> exact same

theorem mem_dependents_forgetNaming :
    u ∈ (g.forgetNaming c).dependents x ↔ x ≠ c ∧ u ∈ g.dependents x := by
  rw [dependents, cachedBy_forgetNaming, Std.TreeMap.getD_erase, dependents]
  by_cases here : x = c
  · simp [here]
  · simp [here, Ne.symm here]

theorem mem_dependents_cache {link : Link} (found : g.node? a = some n)
    (linked : n.link? = some link) (ran : g.cache a c = .ok g') : u ∈ g'.dependents x ↔
      u ∈ g.dependents x ∧ ¬(link.cached = some x ∧ u = a) ∨ x = c ∧ u = a := by
  rw [cache, node_eq found, ok_bind, linked] at ran
  cases ran
  rw [mem_dependents_index]
  cases link.cached with
  | none => simp [dependents, setCached, modifyNode]
  | some before =>
      by_cases same : before = c
      · subst same
        simp only [if_true, Option.some.injEq, eq_comm (a := before)]
        change u ∈ g.dependents x ∨ _ ↔ _
        tauto
      · have dropped := mem_dependents_unindex (g := g) (c := before) (a := a) (u := u) (x := x)
        simp only [if_neg same, Option.some.injEq]
        rw [eq_comm (a := before), ← dropped]
        rfl

/-- Whether an index has no empty list, and names no access twice for one clobber. -/
structure Trim (m : Std.TreeMap Access (List Access)) : Prop where
  filled : ∀ c : Access, m[c]? ≠ some []
  distinct : ∀ c, (m.getD c []).Nodup

namespace Trim

variable {m : Std.TreeMap Access (List Access)}

theorem empty : Trim {} :=
  ⟨by simp, by simp⟩

theorem erase (trim : Trim m) : Trim (m.erase c) := by
  refine ⟨fun d => ?_, fun d => ?_⟩
  · rw [Std.TreeMap.getElem?_erase]
    split
    · simp
    · exact trim.filled d
  · rw [Std.TreeMap.getD_erase]
    split
    · exact .nil
    · exact trim.distinct d

theorem unindex (trim : Trim g.cachedBy) : Trim (g.unindex c a).cachedBy := by
  rw [unindex_eq]
  refine ⟨filled_withoutMember trim.filled, fun d => ?_⟩
  rw [getD_withoutMember]
  split
  · exact (trim.distinct d).filter _
  · exact trim.distinct d

theorem index (trim : Trim g.cachedBy) : Trim (g.index c a).cachedBy := by
  unfold Graph.index
  dsimp only
  split
  · exact trim
  · rename_i absent
    refine ⟨filled_insert trim.filled (by simp), fun d => ?_⟩
    rw [getD_insert]
    split
    · have other : a ∉ g.cachedBy.getD c [] := by simpa using absent
      exact List.concat_eq_append ▸ (trim.distinct c).concat other
    · exact trim.distinct d

theorem cache (trim : Trim g.cachedBy) (ran : g.cache a c = .ok g') : Trim g'.cachedBy := by
  obtain ⟨n, _, ran⟩ := bind_eq_ok.mp ran
  split at ran
  · cases ran
    exact trim
  · cases ran
    refine Trim.index ?_
    split
    · split
      · exact trim
      · exact trim.unindex
    · exact trim

end Trim

/-- Whether the index is exact and trim, and whatever is cached is in the graph. -/
structure Indexed (g : Graph) : Prop where
  entry : g.isLive .liveOnEntry = true
  live : ∀ {u c}, g.cached? u = some c → g.isLive c = true
  index : ∀ {u c}, u ∈ g.dependents c ↔ g.cached? u = some c
  trim : Trim g.cachedBy

namespace Indexed

theorem of_same (indexed : g.Indexed) (index : g'.cachedBy = g.cachedBy)
    (cached : ∀ x, g'.cached? x = g.cached? x)
    (live : ∀ x, g.isLive x = true → g'.isLive x = true) :
    g'.Indexed where
  entry := live _ indexed.entry
  live := fun names => live _ (indexed.live (cached _ ▸ names))
  index := by
    intro u c
    rw [dependents, index, cached]
    exact indexed.index
  trim := index ▸ indexed.trim

/-- An exact index leads to every answer. -/
theorem cached?_forgetAll (indexed : g.Indexed) : g.forgetAll.cached? x = none := by
  rw [cached?, node?_forgetAll]
  split
  · cases g.node? x <;> simp
  · rename_i unnamed
    refine Option.eq_none_iff_forall_ne_some.mpr fun c cached => ?_
    exact unnamed (mem_named.mpr ⟨c, indexed.index.mpr cached⟩)

theorem forgetAll (indexed : g.Indexed) : g.forgetAll.Indexed where
  entry := g.agrees_forgetAll.isLive.trans indexed.entry
  live := by simp [indexed.cached?_forgetAll]
  index := by
    intro u c
    rw [indexed.cached?_forgetAll]
    simp [dependents, Graph.forgetAll]
  trim := .empty

theorem forget (indexed : g.Indexed) (forgot : g.forget a = .ok kept) : kept.Indexed := by
  have alive : ∀ x, kept.isLive x = g.isLive x := fun x => (agrees_of_forget forgot).isLive
  refine ⟨(alive _).trans indexed.entry, ?_, ?_, ?_⟩
  · intro u c names
    rw [cached?_of_forget forgot] at names
    split at names
    · cases names
    · rw [alive]
      exact indexed.live names
  · intro u c
    rw [cached?_of_forget forgot]
    obtain ⟨n, read, same⟩ := bind_eq_ok.mp forgot
    have here : g.cached? a = n.cached? := cached?_eq (node?_of_node read)
    split at same
    · rename_i fresh
      cases same
      rw [indexed.index]
      by_cases same : u = a <;> simp [same, here, fresh]
    · rename_i old names
      cases same
      rw [mem_dependents_unindex]
      change u ∈ g.dependents c ∧ _ ↔ _
      rw [indexed.index]
      by_cases same : u = a
      · subst same
        simp [here, names, eq_comm]
      · simp [same]
  · obtain ⟨n, _, same⟩ := bind_eq_ok.mp forgot
    split at same
    · cases same
      exact indexed.trim
    · cases same
      exact Trim.unindex (g := g.setCached a none) indexed.trim

theorem forgetNaming (indexed : g.Indexed) : (g.forgetNaming c).Indexed := by
  have alive : ∀ x, (g.forgetNaming c).isLive x = g.isLive x :=
    fun x => (g.agrees_forgetNaming c).isLive
  refine ⟨(alive _).trans indexed.entry, ?_, ?_, ?_⟩
  · intro u d names
    rw [cached?_forgetNaming] at names
    split at names
    · cases names
    · rw [alive]
      exact indexed.live names
  · intro u d
    rw [mem_dependents_forgetNaming, cached?_forgetNaming, indexed.index]
    by_cases names : g.cached? u = some c
    · simp [names, indexed.index.mpr names, eq_comm]
    · simp only [names, and_false, if_false, and_iff_right_iff_imp]
      rintro other rfl
      exact names other
  · rw [cachedBy_forgetNaming]
    exact indexed.trim.erase

theorem clear (indexed : g.Indexed) (other : a ≠ .liveOnEntry) (fresh : g.cached? a = none)
    (unnamed : ∀ x, g.cached? x ≠ some a) : (g.clear a n).Indexed where
  entry := by simp [indexed.entry, Ne.symm other]
  live := by
    intro u c names
    rw [cached?_clear] at names
    split at names
    · cases names
    · have apart : c ≠ a := by
        rintro rfl
        exact unnamed u names
      simp [apart, indexed.live names]
  index := by
    intro u c
    rw [dependents, cachedBy_clear, cached?_clear]
    refine indexed.index.trans ?_
    by_cases gone : u = a <;> simp [gone, fresh]
  trim := by
    rw [cachedBy_clear]
    exact indexed.trim

theorem exchange (indexed : g.Indexed) (same : ∀ n, (f n).cached? = n.cached?) :
    (g.exchange a f old new).Indexed :=
  indexed.of_same cachedBy_exchange (fun _ => cached?_exchange same) (by simp)

theorem setDefining (indexed : g.Indexed) (ran : g.setDefining a d = .ok g') : g'.Indexed := by
  obtain ⟨n, m, link, changed, _, _, _, _, same, forgot⟩ := setDefining_ok ran
  have indexed' : changed.Indexed := by
    rw [same]
    exact indexed.exchange fun n => n.cached?_mapLink_defining (some d)
  split at forgot
  · exact indexed'.forget forgot
  · cases forgot
    exact indexed'.forgetAll

theorem addIncoming (indexed : g.Indexed) {phi value : Access} {pred : Block}
    (ran : g.addIncoming phi pred value = .ok g') : g'.Indexed := by
  obtain ⟨n, m, _, _, _, _, rfl⟩ := addIncoming_ok ran
  exact (indexed.exchange fun n => n.cached?_mapIncoming _).forgetAll

theorem setIncoming (indexed : g.Indexed) {phi value : Access} {edge : Nat}
    (ran : g.setIncoming phi edge value = .ok g') : g'.Indexed := by
  obtain ⟨n, m, pred, replaced, _, _, _, _, _, rfl⟩ := setIncoming_ok ran
  exact (indexed.exchange fun n => n.cached?_mapIncoming _).forgetAll

theorem modifyBlock (indexed : g.Indexed) : (g.modifyNode a ({ · with block })).Indexed := by
  refine indexed.of_same rfl (fun x => cached?_modifyBlock) fun x live => ?_
  rw [isLive, node?_modifyNode]
  split
  · simpa [isLive] using live
  · exact live

theorem relist (indexed : g.Indexed) {list defList : List Access} :
    (g.relist n block list defList).Indexed := by
  unfold Graph.relist
  cases n.isUse with
  | true => exact indexed.of_same rfl (fun _ => rfl) fun _ live => live
  | false =>
      have relisted : Indexed { g with
          lists := g.lists.insert block list, defLists := g.defLists.insert block defList } :=
        indexed.of_same rfl (fun _ => rfl) fun _ live => live
      exact relisted.forgetAll.of_same rfl (fun _ => rfl) fun _ live => live

theorem insert (indexed : g.Indexed) {place : Place} (ran : g.insert a block place = .ok g') :
    g'.Indexed := by
  obtain ⟨n, moved, list, defList, _, rfl, _, _, rfl⟩ := insert_ok ran
  exact indexed.modifyBlock.relist

theorem insertBefore (indexed : g.Indexed) {before : Option Access}
    (ran : g.insertBefore a block before = .ok g') : g'.Indexed := by
  obtain ⟨n, list, defList, _, rfl⟩ := insertBefore_ok ran
  exact indexed.modifyBlock.relist

theorem unlisted (indexed : g.Indexed) : (g.unlisted a block).Indexed :=
  indexed.of_same rfl (fun _ => rfl) fun _ live => live

theorem detach (indexed : g.Indexed) (ran : g.detach a = .ok g') : g'.Indexed := by
  obtain ⟨n, kept, _, _, forgot, ran⟩ := detach_ok ran
  obtain ⟨m, _, rfl⟩ := unlist_ok ran
  exact (indexed.forget forgot).unlisted

theorem addNode (indexed : g.Indexed) (plain : n.cached? = none) : (g.addNode n).1.Indexed := by
  have fresh : g.node? (g.addNode n).2 = none := by simp [node?, Graph.addNode]
  refine indexed.of_same rfl (fun x => ?_) fun x live => ?_
  · rw [cached?, node?_addNode, cached?]
    split
    · rename_i here
      rw [here, fresh]
      exact plain
    · rfl
  · rw [isLive, node?_addNode]
    split
    · rfl
    · exact live

theorem newAccess? (indexed : g.Indexed) {p : Procedure} {o : Oracle} {inst : Inst}
    (ran : g.newAccess? p o inst block = .ok (some (g', a))) : g'.Indexed := by
  obtain ⟨n, next, _, _, linked, _, _, rfl⟩ := newAccess?_ok ran
  have plain : n.cached? = none := by simp [Node.cached?, linked]
  exact (indexed.addNode plain).of_same rfl (fun _ => rfl) fun _ live => live

theorem createPhi (indexed : g.Indexed) (ran : g.createPhi block = .ok (g', a)) : g'.Indexed := by
  obtain ⟨added, listed, _, rfl, rfl, inserted, rfl⟩ := createPhi_ok ran
  have added : Indexed { (g.addNode ⟨g.nextNumber, block, .phi [], []⟩).1 with
      nextNumber := g.nextNumber + 1 } :=
    (indexed.addNode rfl).of_same rfl (fun _ => rfl) fun _ live => live
  exact (added.insert inserted).of_same rfl (fun _ => rfl) fun _ live => live

theorem discard (indexed : g.Indexed) (ran : g.discard a = .ok g') : g'.Indexed := by
  obtain ⟨n, nodes, kept, _, other, _, node?_eq, forgot, rfl⟩ := discard_ok ran
  have dropped : Indexed { g with nodes } := by
    refine indexed.of_same rfl (fun x => cached?_of_mapUsers (node?_eq x)) fun x live => ?_
    rw [isLive, node?_eq]
    simpa [isLive] using live
  -- First its own answer goes, so what the index still names for it are answers of others.
  have kept' : kept.Indexed := dropped.unlisted.forget forgot
  have fresh : kept.cached? a = none := by simp [cached?_of_forget forgot]
  refine kept'.forgetNaming.clear other ?_ fun x => ?_
  · simp [cached?_forgetNaming, fresh]
  · rw [cached?_forgetNaming]
    split
    · exact nofun
    · rename_i unnamed
      exact fun names => unnamed ⟨kept'.index.mpr names, names⟩

theorem keptByEditing : KeptByEditing Indexed where
  setDefining := fun indexed => indexed.setDefining
  addIncoming := fun indexed => indexed.addIncoming
  setIncoming := fun indexed => indexed.setIncoming
  newAccess? := fun indexed => indexed.newAccess?
  createPhi := fun indexed => indexed.createPhi
  insert := fun indexed => indexed.insert
  insertBefore := fun indexed => indexed.insertBefore
  detach := fun indexed => indexed.detach
  discard := fun indexed => indexed.discard

theorem cache (indexed : g.Indexed) (live : g.isLive c = true) (ran : g.cache a c = .ok g') :
    g'.Indexed := by
  obtain ⟨n, read, rest⟩ := bind_eq_ok.mp ran
  have found := node?_of_node read
  cases linked : n.link? with
  | none =>
      rw [linked] at rest
      cases rest
      exact indexed
  | some link =>
      have notPhi : n.isPhi = false := by
        obtain ⟨_, _, role, _⟩ := n
        cases role with
        | definition | use => rfl
        | phi => cases linked
      obtain ⟨_, ran', agrees, _, _, cached⟩ := cache_agrees found notPhi c
      cases ran.symm.trans ran'
      refine ⟨agrees.isLive.trans indexed.entry, fun {u d} names => ?_, fun {u d} => ?_,
        indexed.trim.cache ran⟩
      · rw [agrees.isLive]
        rw [cached] at names
        split at names
        · cases names
          exact live
        · exact indexed.live names
      · rw [cached, mem_dependents_cache found linked ran, indexed.index]
        by_cases here : u = a
        · subst here
          simp [cached?_eq found, Node.cached?, linked, eq_comm]
        · simp [here]

end Indexed

end Graph

end MemoryFlow
