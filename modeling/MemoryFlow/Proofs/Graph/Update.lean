import MemoryFlow.Graph.Update
import MemoryFlow.Proofs.Graph.Cache

/-! # What changes to a graph change

One lemma for each operation says all that it changes if it succeeds, down to the answers that it
forgets.
-/

namespace MemoryFlow

namespace Graph

variable {g g' : Graph} {a d x phi value new : Access} {n m : Node} {old : Option Access}
  {f : Node → Node} {block : Block}

/-- The graph in which `a` refers to `new` once more, and to `old` once less if one is given. -/
def exchange (g : Graph) (a : Access) (f : Node → Node) (old : Option Access)
    (new : Access) : Graph :=
  let g := g.modifyNode a f
  let g := match old with
    | some old => g.modifyNode old (·.mapUsers (·.erase a))
    | none => g
  g.modifyNode new (·.mapUsers (· ++ [a]))

theorem node?_exchange : (g.exchange a f old new).node? x = (g.node? x).map fun n =>
    (if x = a then f n else n).mapUsers fun users =>
      (if old = some x then users.erase a else users) ++ if x = new then [a] else [] := by
  have appended : ∀ n : Node, n.mapUsers (· ++ []) = n := by simp [Node.mapUsers]
  cases old with
  | none =>
      simp only [exchange, node?_modifyNode]
      cases g.node? x <;> split_ifs <;> simp_all
  | some old =>
      simp only [exchange, node?_modifyNode, Option.some.injEq, eq_comm (a := old)]
      cases g.node? x <;> split_ifs <;> simp_all [Node.mapUsers]

theorem order_exchange : (g.exchange a f old new).order = g.order := by
  cases old <;> rfl

theorem agrees_of_forgets {isUse : Bool}
    (forgot : (if isUse then g.forget a else pure g.forgetAll) = .ok g') :
    g.Agrees g' ∧ g'.order = g.order := by
  split at forgot
  · exact ⟨agrees_of_forget forgot, order_of_forget forgot⟩
  · cases forgot
    exact ⟨g.agrees_forgetAll, rfl⟩

/-- What a new defining access changes: for a use its own answer is forgotten, else every answer. -/
theorem setDefining_ok (ran : g.setDefining a d = .ok g') :
    ∃ n m link changed, g.node? a = some n ∧ n.link? = some link ∧ g.node? d = some m ∧
      m.isUse = false ∧
      changed = g.exchange a (·.mapLink ({ · with defining := some d })) link.defining d ∧
      (if n.isUse then changed.forget a else pure changed.forgetAll) = .ok g' := by
  obtain ⟨m, readD, ran⟩ := bind_eq_ok.mp ran
  split at ran
  · cases ran
  rename_i notUse
  obtain ⟨n, readA, ran⟩ := bind_eq_ok.mp ran
  split at ran
  · cases ran
  rename_i link linked
  refine ⟨n, m, link, _, node?_of_node readA, linked, node?_of_node readD,
    by simpa using notUse, rfl, ?_⟩
  cases old : link.defining with
  | none =>
      simp only [old, pure_bind] at ran
      obtain ⟨added, added', ran⟩ := bind_eq_ok.mp ran
      obtain ⟨_, _, same⟩ := bind_eq_ok.mp added'
      cases same
      exact ran
  | some old' =>
      simp only [old] at ran
      obtain ⟨dropped, dropped', ran⟩ := bind_eq_ok.mp ran
      obtain ⟨_, _, same⟩ := bind_eq_ok.mp dropped'
      cases same
      obtain ⟨added, added', ran⟩ := bind_eq_ok.mp ran
      obtain ⟨_, _, same⟩ := bind_eq_ok.mp added'
      cases same
      exact ran

theorem phiFor_ok (read : g.phiFor phi value = .ok n) :
    g.node? phi = some n ∧ n.isPhi = true ∧ ∃ m, g.node? value = some m ∧ m.isUse = false := by
  obtain ⟨m, readV, read⟩ := bind_eq_ok.mp read
  split at read
  · cases read
  rename_i notUse
  obtain ⟨n', readP, read⟩ := bind_eq_ok.mp read
  split at read
  · rename_i isPhi
    cases read
    exact ⟨node?_of_node readP, isPhi, m, node?_of_node readV, by simpa using notUse⟩
  · cases read

theorem addIncoming_ok {pred : Block} (ran : g.addIncoming phi pred value = .ok g') :
    ∃ n m, g.node? phi = some n ∧ n.isPhi = true ∧ g.node? value = some m ∧ m.isUse = false ∧
      g' = (g.exchange phi (·.mapIncoming (· ++ [(pred, value)])) none value).forgetAll := by
  obtain ⟨n, read, ran⟩ := bind_eq_ok.mp ran
  obtain ⟨foundP, isPhi, m, foundV, notUse⟩ := phiFor_ok read
  obtain ⟨added, added', ran⟩ := bind_eq_ok.mp ran
  obtain ⟨_, _, same⟩ := bind_eq_ok.mp added'
  cases same
  cases ran
  exact ⟨n, m, foundP, isPhi, foundV, notUse, rfl⟩

theorem setIncoming_ok {edge : Nat} (ran : g.setIncoming phi edge value = .ok g') :
    ∃ n m pred old, g.node? phi = some n ∧ n.isPhi = true ∧ g.node? value = some m ∧
      m.isUse = false ∧ n.incoming[edge]? = some (pred, old) ∧
      g' = (g.exchange phi (·.mapIncoming (·.set edge (pred, value))) (some old)
        value).forgetAll := by
  obtain ⟨n, read, ran⟩ := bind_eq_ok.mp ran
  obtain ⟨foundP, isPhi, m, foundV, notUse⟩ := phiFor_ok read
  split at ran
  · cases ran
  rename_i pred old here
  obtain ⟨dropped, dropped', ran⟩ := bind_eq_ok.mp ran
  obtain ⟨_, _, same⟩ := bind_eq_ok.mp dropped'
  cases same
  obtain ⟨added, added', ran⟩ := bind_eq_ok.mp ran
  obtain ⟨_, _, same⟩ := bind_eq_ok.mp added'
  cases same
  cases ran
  exact ⟨n, m, pred, old, foundP, isPhi, foundV, notUse, here, rfl⟩

theorem node?_relist {list defList : List Access} : (g.relist n block list defList).node? x =
    if n.isUse = false ∧ x ∈ g.named then (g.node? x).map Node.forgotten else g.node? x := by
  rw [relist]
  cases n.isUse with
  | true => rfl
  | false =>
      rw [if_congr (and_iff_right rfl) rfl rfl]
      exact node?_forgetAll
        { g with lists := g.lists.insert block list, defLists := g.defLists.insert block defList } x

theorem insert_ok {place : Place} (ran : g.insert a block place = .ok g') :
    ∃ n moved list defList, g.node? a = some n ∧ moved = g.modifyNode a ({ · with block }) ∧
      moved.placed a n.isPhi place (g.accesses block) = .ok list ∧
      (n.isUse = false → moved.placed a n.isPhi place (g.definitions block) = .ok defList) ∧
      g' = moved.relist n block list defList := by
  obtain ⟨n, read, ran⟩ := bind_eq_ok.mp ran
  obtain ⟨list, listed, ran⟩ := bind_eq_ok.mp ran
  have found := node?_of_node read
  split at ran
  · rename_i isUse
    cases ran
    exact ⟨n, _, list, [], found, rfl, listed, by simp [isUse], rfl⟩
  · obtain ⟨defList, defined, same⟩ := bind_eq_ok.mp ran
    cases same
    exact ⟨n, _, list, defList, found, rfl, listed, fun _ => defined, rfl⟩

theorem insertBefore_some_ok {before : Access}
    (ran : g.insertBefore a block (some before) = .ok g') :
    ∃ n moved next, g.node? a = some n ∧ moved = g.modifyNode a ({ · with block }) ∧
      before ∈ g.accesses block ∧
      (n.isUse = false →
        moved.firstDefinition? ((g.accesses block).dropWhile (· != before)) = .ok next) ∧
      g' = moved.relist n block (insertAhead a before (g.accesses block)) (match next with
        | some next => insertAhead a next (g.definitions block)
        | none => g.definitions block ++ [a]) := by
  obtain ⟨n, read, ran⟩ := bind_eq_ok.mp ran
  have found := node?_of_node read
  dsimp only at ran
  split at ran
  · cases ran
  · rename_i contained
    have member : before ∈ g.accesses block := by
      change ¬(!(g.accesses block).contains before) = true at contained
      simpa using contained
    split at ran
    · rename_i isUse
      cases ran
      exact ⟨n, _, none, found, rfl, member, by simp [isUse], rfl⟩
    · obtain ⟨next, first, same⟩ := bind_eq_ok.mp ran
      cases same
      exact ⟨n, _, next, found, rfl, member, fun _ => first, rfl⟩

theorem insertBefore_ok {before : Option Access} (ran : g.insertBefore a block before = .ok g') :
    ∃ n list defList, g.node? a = some n ∧
      g' = (g.modifyNode a ({ · with block })).relist n block list defList := by
  cases before with
  | none =>
      obtain ⟨n, moved, list, defList, found, rfl, _, _, same⟩ := insert_ok ran
      exact ⟨n, list, defList, found, same⟩
  | some before =>
      obtain ⟨n, moved, next, found, rfl, _, _, same⟩ := insertBefore_some_ok ran
      exact ⟨n, _, _, found, same⟩

/-- The lists of a map, without `a` in the one at `key`. A list left empty goes too. -/
def withoutMember {kind : Kind} (m : Std.TreeMap (Entity kind) (List Access)) (key : Entity kind)
    (a : Access) : Std.TreeMap (Entity kind) (List Access) :=
  match m[key]? with
  | none => m
  | some list =>
      match list.filter (· != a) with
      | [] => m.erase key
      | rest => m.insert key rest

theorem getElem?_withoutMember {kind : Kind} (m : Std.TreeMap (Entity kind) (List Access))
    (key k : Entity kind) (a : Access) : (withoutMember m key a)[k]? =
      if k = key then (m[k]?.map (·.filter (· != a))).filter (· ≠ []) else m[k]? := by
  unfold withoutMember
  split
  · rename_i absent
    split
    · rename_i here
      simp [here, absent]
    · rfl
  · rename_i list listed
    split
    · rename_i empty
      rw [Std.TreeMap.getElem?_erase]
      by_cases here : k = key
      · subst here
        simp [listed, empty, Option.filter_some]
      · simp [here, Ne.symm here]
    · rename_i filled
      rw [getElem?_insert]
      split
      · rename_i here
        subst here
        rw [listed, Option.map_some, Option.filter_some,
          if_pos (decide_eq_true (p := _ ≠ _) filled)]
      · rfl

theorem getD_withoutMember {kind : Kind} (m : Std.TreeMap (Entity kind) (List Access))
    (key k : Entity kind) (a : Access) : (withoutMember m key a).getD k [] =
      if k = key then (m.getD k []).filter (· != a) else m.getD k [] := by
  simp only [Std.TreeMap.getD_eq_getD_getElem?, getElem?_withoutMember]
  split
  · cases m[k]? with
    | none => rfl
    | some list => by_cases empty : list.filter (· != a) = [] <;> simp [empty, Option.filter_some]
  · rfl

theorem filled_insert {kind : Kind} {m : Std.TreeMap (Entity kind) (List Access)}
    (filled : ∀ k : Entity kind, m[k]? ≠ some []) {key : Entity kind} {l : List Access}
    (some' : l ≠ []) (k : Entity kind) : (m.insert key l)[k]? ≠ some [] := by
  rw [getElem?_insert]
  split
  · simpa using some'
  · exact filled k

theorem filled_withoutMember {kind : Kind} {m : Std.TreeMap (Entity kind) (List Access)}
    (filled : ∀ k : Entity kind, m[k]? ≠ some []) {key : Entity kind} {a : Access}
    (k : Entity kind) : (withoutMember m key a)[k]? ≠ some [] := by
  rw [getElem?_withoutMember]
  split
  · intro empty
    have kept := (Option.filter_eq_some_iff.mp empty).2
    simp at kept
  · exact filled k

theorem getD_unlistFrom (lists : Std.TreeMap Block (List Access)) (block b : Block) (a : Access) :
    (unlistFrom lists block a).getD b [] =
      if b = block then (lists.getD b []).filter (· != a) else lists.getD b [] :=
  getD_withoutMember lists block b a

/-- Where an access is in no list but that of its block, it is taken out of all of them. -/
theorem getD_unlistFrom_eq {b : Block} (lists : Std.TreeMap Block (List Access))
    (elsewhere : b ≠ block → a ∉ lists.getD b []) :
    (unlistFrom lists block a).getD b [] = (lists.getD b []).filter (· != a) := by
  rw [getD_unlistFrom]
  split
  · rfl
  · rename_i other
    refine (List.filter_eq_self.mpr fun x member => ?_).symm
    rw [bne_iff_ne]
    rintro rfl
    exact elsewhere other member

def unlisted (g : Graph) (a : Access) (block : Block) : Graph :=
  { g with
    lists := unlistFrom g.lists block a
    defLists := unlistFrom g.defLists block a
    order := (g.order.drop a).unsettle block }

theorem unlist_ok (ran : g.unlist a = .ok g') :
    ∃ n, g.node? a = some n ∧ g' = g.unlisted a n.block := by
  obtain ⟨n, read, same⟩ := bind_eq_ok.mp ran
  cases same
  exact ⟨n, node?_of_node read, rfl⟩

theorem detach_ok (ran : g.detach a = .ok g') :
    ∃ n kept, g.node? a = some n ∧ n.isPhi = false ∧ g.forget a = .ok kept ∧
      kept.unlist a = .ok g' := by
  obtain ⟨n, read, ran⟩ := bind_eq_ok.mp ran
  split at ran
  · cases ran
  · rename_i notPhi
    obtain ⟨kept, forgot, ran⟩ := bind_eq_ok.mp ran
    exact ⟨n, kept, node?_of_node read, by simpa using notPhi, forgot, ran⟩

theorem newAccess?_ok {p : Procedure} {o : Oracle} {inst : Inst}
    (ran : g.newAccess? p o inst block = .ok (some (g', a))) :
    ∃ n next, n.inst? = some inst ∧ n.block = block ∧ n.link? = some {} ∧ n.users = [] ∧
      a = (g.addNode n).2 ∧
      g' = { (g.addNode n).1 with
        nextNumber := next, instAccess := g.instAccess.insert inst a } := by
  obtain ⟨role, known⟩ := roleOf_of_newAccess? ran
  cases role with
  | none => cases ran.symm.trans (newAccess?_none known)
  | some role =>
      obtain ⟨number, next, created⟩ := newAccess?_some g block known
      cases ran.symm.trans created
      refine ⟨⟨number, block, role, []⟩, next, ?_, rfl, ?_, rfl, rfl, rfl⟩
      · rcases Oracle.roleOf_cases known with rfl | rfl <;> rfl
      · rcases Oracle.roleOf_cases known with rfl | rfl <;> rfl

theorem createAccess_ok {p : Procedure} {o : Oracle} {inst : Inst}
    (ran : g.createAccess p o inst d = .ok (g', a)) :
    ∃ block created, p.layout.blockOf inst = some block ∧
      g.newAccess? p o inst block = .ok (some (created, a)) ∧ created.setDefining a d = .ok g' := by
  obtain ⟨m, _, ran⟩ := bind_eq_ok.mp ran
  by_cases isUse : m.isUse
  · rw [if_pos isUse] at ran
    cases ran
  · rw [if_neg isUse] at ran
    split at ran
    · cases ran
    · rename_i block placed
      obtain ⟨created, ran', ran⟩ := bind_eq_ok.mp ran
      split at ran
      · cases ran
      · obtain ⟨linked, ran, same⟩ := bind_eq_ok.mp ran
        cases same
        exact ⟨block, _, placed, ran', ran⟩

theorem createPhi_ok (ran : g.createPhi block = .ok (g', a)) :
    ∃ added listed, g.blockPhi.contains block = false ∧
      added = (g.addNode ⟨g.nextNumber, block, .phi [], []⟩).1 ∧
      a = (g.addNode ⟨g.nextNumber, block, .phi [], []⟩).2 ∧
      { added with nextNumber := g.nextNumber + 1 }.insert a block .beginning = .ok listed ∧
      g' = { listed with blockPhi := listed.blockPhi.insert block a } := by
  rw [createPhi] at ran
  split at ran
  · cases ran
  · rename_i free
    obtain ⟨listed, inserted, same⟩ := bind_eq_ok.mp ran
    cases same
    exact ⟨_, listed, Bool.eq_false_iff.mpr free, rfl, rfl, inserted, rfl⟩

theorem remove_ok (ran : g.remove a = .ok g') :
    g.discard a = .ok g' ∨
      ∃ replacement kept, g.replaceAll a replacement = .ok kept ∧ kept.discard a = .ok g' := by
  rw [remove] at ran
  split at ran
  · cases ran
  · obtain ⟨n, _, ran⟩ := bind_eq_ok.mp ran
    dsimp only at ran
    split at ran
    · exact .inl ran
    · split at ran
      · cases ran
      · obtain ⟨kept, replaced, ran⟩ := bind_eq_ok.mp ran
        exact .inr ⟨_, kept, replaced, ran⟩

theorem removeUsers_ok {operands : List Access}
    (ran : operands.foldlM (·.removeUser · a) g = .ok g') :
    ∃ nodes, g' = { g with nodes } ∧ ∀ x, g'.node? x =
      (g.node? x).map (·.mapUsers (·.diff (List.replicate (operands.count x) a))) := by
  induction operands generalizing g with
  | nil =>
      cases ran
      exact ⟨g'.nodes, rfl, fun x => by simp [Node.mapUsers]⟩
  | cons d operands ih =>
      rw [List.foldlM_cons] at ran
      obtain ⟨dropped, ran', ran⟩ := bind_eq_ok.mp ran
      obtain ⟨_, _, same⟩ := bind_eq_ok.mp ran'
      cases same
      obtain ⟨nodes, same, node?_eq⟩ := ih ran
      refine ⟨nodes, same, fun x => ?_⟩
      rw [node?_eq, node?_modifyNode, List.count_cons]
      by_cases here : x = d
      · subst here
        rw [if_pos rfl, Option.map_map, if_pos (beq_self_eq_true x), List.replicate_succ]
        simp only [Function.comp_def, Node.mapUsers, List.diff_cons]
      · rw [if_neg here, if_neg (by simpa using Ne.symm here), Nat.add_zero]

/-- The entries of a map without the one at `key`, if that is `a`. -/
def withoutEntry {kind : Kind} (m : Std.TreeMap (Entity kind) Access) (key : Entity kind)
    (a : Access) : Std.TreeMap (Entity kind) Access :=
  if m[key]? = some a then m.erase key else m

theorem filter_ne {v : Option Access} (other : v ≠ some a) : v.filter (· != a) = v := by
  cases v with
  | none => rfl
  | some c =>
      have apart : c ≠ a := by
        rintro rfl
        exact other rfl
      rw [Option.filter_some, if_pos (by simpa using apart)]

theorem getElem?_withoutEntry {kind : Kind} {m : Std.TreeMap (Entity kind) Access}
    {key : Entity kind} (only : ∀ k, m[k]? = some a → k = key) (k : Entity kind) :
    (withoutEntry m key a)[k]? = m[k]?.filter (· != a) := by
  by_cases here : k = key
  · subst here
    rw [withoutEntry]
    split
    · rename_i held
      rw [Std.TreeMap.getElem?_erase_self, held, Option.filter_some]
      simp
    · rename_i other
      rw [filter_ne other]
  · rw [filter_ne fun held => here (only k held), withoutEntry]
    split
    · rw [Std.TreeMap.getElem?_erase, if_neg]
      rw [Std.compare_eq_iff_eq]
      exact Ne.symm here
    · rfl

theorem clear_eq (g : Graph) (a : Access) (n : Node) : g.clear a n = { g with
    nodes := g.nodes.setIfInBounds a.index none
    instAccess := n.inst?.elim g.instAccess (withoutEntry g.instAccess · a)
    blockPhi := n.inst?.elim (withoutEntry g.blockPhi n.block a) fun _ => g.blockPhi } := by
  rw [clear]
  cases n.inst? with
  | none => by_cases held : g.blockPhi[n.block]? = some a <;> simp [phi?, withoutEntry, held]
  | some inst => by_cases held : g.instAccess[inst]? = some a <;> simp [access?, withoutEntry, held]

theorem node?_clear : (g.clear a n).node? x = if x = a then none else g.node? x := by
  rw [clear_eq, node?, Array.getElem?_setIfInBounds, node?]
  by_cases here : x = a
  · subst here
    rw [if_pos rfl, if_pos rfl]
    split <;> rfl
  · rw [if_neg fun index => here (Entity.ext index.symm), if_neg here]

theorem Agrees.clear (agrees : g.Agrees g') (a : Access) (n : Node) :
    (g.clear a n).Agrees (g'.clear a n) := by
  have nodes : ∀ x, ((g'.clear a n).node? x).map Node.forgotten =
      ((g.clear a n).node? x).map Node.forgotten := by
    intro x
    rw [node?_clear, node?_clear]
    split
    · rfl
    · exact agrees.nodes x
  rw [clear_eq, clear_eq] at nodes ⊢
  exact ⟨agrees.flow, agrees.tree, agrees.lists, agrees.defLists, by rw [agrees.instAccess],
    by rw [agrees.blockPhi], agrees.nextNumber, by simp [agrees.size], nodes⟩

theorem discard_ok (ran : g.discard a = .ok g') :
    ∃ n nodes kept, g.node? a = some n ∧ a ≠ .liveOnEntry ∧ n.users = [] ∧
      (∀ x, node? { g with nodes } x =
        (g.node? x).map (·.mapUsers (·.diff (List.replicate (n.operands.count x) a)))) ∧
      ({ g with nodes }.unlisted a n.block).forget a = .ok kept ∧
      g' = (kept.forgetNaming a).clear a n := by
  rw [discard] at ran
  split at ran
  · cases ran
  rename_i notEntry
  obtain ⟨n, read, ran⟩ := bind_eq_ok.mp ran
  dsimp only at ran
  split at ran
  · cases ran
  rename_i unused
  obtain ⟨outside, unlisted', ran⟩ := bind_eq_ok.mp ran
  obtain ⟨_, found', rfl⟩ := unlist_ok unlisted'
  have found := node?_of_node read
  cases found.symm.trans found'
  obtain ⟨dropped, ran', ran⟩ := bind_eq_ok.mp ran
  obtain ⟨nodes, rfl, node?_eq⟩ := removeUsers_ok ran'
  obtain ⟨kept, forgot, same⟩ := bind_eq_ok.mp ran
  cases same
  exact ⟨n, nodes, kept, found, notEntry, by simpa using unused, node?_eq, forgot, rfl⟩

/-- But for answers, an access that is forgotten and taken away is taken away. -/
theorem agrees_of_forget_clear {kept : Graph} (forgot : g.forget a = .ok kept) :
    (g.clear a n).Agrees ((kept.forgetNaming a).clear a n) ∧
      ((kept.forgetNaming a).clear a n).order = g.order := by
  constructor
  · exact ((agrees_of_forget forgot).trans (kept.agrees_forgetNaming a)).clear a n
  · rw [clear_eq]
    exact (order_forgetNaming kept a).trans (order_of_forget forgot)

end Graph

end MemoryFlow
