import MemoryFlow.Proofs.Graph.Edit

/-! # The lists of a block

The definitions and phi of a block are listed apart from its other accesses, and the phi is recorded
once more. Every edit keeps the three in step: it puts an access that was in no list somewhere
behind the phi in both lists, takes it out of both, or adds or removes the phi at their heads.
-/

namespace MemoryFlow.Graph

variable {g g' : Graph} {p : Procedure} {o : Oracle} {a x before : Access} {n : Node}
  {b block : Block} {l front back : List Access}

def isPhi (g : Graph) (a : Access) : Bool :=
  (g.outline? a).any (·.isPhi)

def Loose (g : Graph) (a : Access) : Prop :=
  ∀ b, a ∉ g.accesses b

/-- Whether the lists of a block agree with each other and with its phi. -/
structure InStep (g : Graph) (b : Block) : Prop where
  /-- The phi comes first, and after it no other. -/
  program : ∃ rest, g.accesses b = (g.phi? b).toList ++ rest ∧ ∀ x ∈ rest, g.isPhi x = false
  definitions : g.definitions b = g.defining (g.accesses b)
  placed : ∀ x ∈ g.accesses b, ∃ n, g.outline? x = some n ∧ n.block = b
  distinct : (g.accesses b).Nodup

/-- Whether the lists of all blocks are in step, none is empty, and every phi is recorded. -/
structure Lockstep (g : Graph) : Prop where
  lists : ∀ b, g.InStep b
  phi : ∀ b x, g.phi? b = some x ↔ ∃ n, g.outline? x = some n ∧ n.isPhi = true ∧ n.block = b
  filled : ∀ b : Block, g.lists[b]? ≠ some []
  filledDefs : ∀ b : Block, g.defLists[b]? ≠ some []

theorem isPhi_eq (found : g.node? a = some n) : g.isPhi a = n.isPhi := by
  simp [isPhi, outline?_eq found]

theorem isPhi_of_outline (same : g'.outline? x = g.outline? x) : g'.isPhi x = g.isPhi x := by
  rw [isPhi, same, isPhi]

theorem defining_append : g.defining (front ++ back) = g.defining front ++ g.defining back :=
  List.filter_append ..

theorem defining_congr (same : ∀ x ∈ l, g'.outline? x = g.outline? x) :
    g'.defining l = g.defining l :=
  List.filter_congr fun x member => by rw [same x member]

theorem split_at_first (fresh : x ∉ front) :
    (front ++ x :: back).takeWhile (· != x) = front ∧
    (front ++ x :: back).dropWhile (· != x) = x :: back := by
  have passes : ∀ y ∈ front, (y != x) = true := by
    intro y member
    rw [bne_iff_ne]
    rintro rfl
    exact fresh member
  simp [List.takeWhile_append_of_pos passes, List.dropWhile_append_of_pos passes]

theorem insertAhead_append (fresh : x ∉ front) :
    insertAhead a x (front ++ x :: back) = front ++ a :: x :: back := by
  rw [insertAhead, (split_at_first fresh).1, (split_at_first fresh).2]

/-- What is put after the phis of a list is put after all that begin it. -/
theorem insertAfterPhis_ok (ran : g.insertAfterPhis a l = .ok front) :
    front = l.takeWhile g.isPhi ++ a :: l.dropWhile g.isPhi := by
  induction l generalizing front with
  | nil =>
      cases ran
      rfl
  | cons x l ih =>
      obtain ⟨n, read, ran⟩ := bind_eq_ok.mp ran
      have here := isPhi_eq (node?_of_node read)
      cases isPhi : n.isPhi with
      | true =>
          rw [isPhi] at here ran
          obtain ⟨rest, ran', same⟩ := bind_eq_ok.mp ran
          cases same
          simp [here, ih ran']
      | false =>
          rw [isPhi] at here ran
          cases ran
          simp [here]

theorem firstDefinition?_ok {next : Option Access} (ran : g.firstDefinition? l = .ok next) :
    next = (g.defining l).head? := by
  induction l with
  | nil =>
      cases ran
      rfl
  | cons x l ih =>
      obtain ⟨n, read, ran⟩ := bind_eq_ok.mp ran
      have here := outline?_eq (node?_of_node read)
      cases isUse : n.isUse with
      | true =>
          rw [isUse] at ran
          rw [ih ran]
          simp [defining, here, isUse]
      | false =>
          rw [isUse] at ran
          cases ran
          simp [defining, here, isUse]

theorem outline?_modifyBlock : (g.modifyNode a ({ · with block })).outline? x =
    if x = a then (g.outline? x).map ({ · with block }) else g.outline? x := by
  rw [outline?, node?_modifyNode, outline?]
  split
  · rw [Option.map_map, Option.map_map]
    rfl
  · rfl

theorem isPhi_modifyBlock : (g.modifyNode a ({ · with block })).isPhi = g.isPhi := by
  funext x
  rw [isPhi, outline?_modifyBlock, isPhi]
  split
  · cases g.outline? x <;> rfl
  · rfl

theorem defining_modifyBlock : (g.modifyNode a ({ · with block })).defining l = g.defining l := by
  refine List.filter_congr fun x _ => ?_
  rw [outline?_modifyBlock]
  split
  · cases g.outline? x <;> rfl
  · rfl

theorem outline?_relist {list defList : List Access} :
    (g.relist n block list defList).outline? x = g.outline? x := by
  rw [outline?, node?_relist, outline?]
  split
  · simp [Option.map_map, Function.comp_def]
  · rfl

theorem outline?_exchange {old : Option Access} {new : Access} {f : Node → Node}
    (same : ∀ n, (f n).outline = n.outline) :
    (g.exchange a f old new).outline? x = g.outline? x := by
  rw [outline?, node?_exchange, Option.map_map, outline?]
  congr 1
  funext n
  dsimp only [Function.comp_def]
  split
  · exact same n
  · rfl

theorem outline?_discarded {m : Node} {nodes : Array (Option Node)}
    {f : Access → List Access → List Access}
    (kept : ∀ x, node? { g with nodes } x = (g.node? x).map (·.mapUsers (f x))) :
    (({ g with nodes }.unlisted a block).clear a m).outline? x =
      if x = a then none else g.outline? x := by
  rw [outline?, node?_clear]
  split
  · rfl
  · refine (congrArg (Option.map Node.outline) (kept x)).trans ?_
    rw [Option.map_map, outline?]
    rfl

theorem outline?_addNode : (g.addNode n).1.outline? x =
    if x = (g.addNode n).2 then some n.outline else g.outline? x := by
  rw [outline?, node?_addNode, outline?]
  split <;> rfl

theorem outline?_fresh : g.outline? (g.addNode n).2 = none := by
  simp [outline?, node?, Graph.addNode]

namespace ListedOnce

theorem congr (h : g.ListedOnce) (lists : g'.lists = g.lists)
    (outline : ∀ b, ∀ x ∈ g.accesses b, g'.outline? x = g.outline? x) : g'.ListedOnce := by
  have same : ∀ b, g'.accesses b = g.accesses b := fun b => by rw [accesses, lists]; rfl
  refine ⟨fun b x member => ?_, fun b => ?_⟩
  · rw [same] at member
    rw [outline b x member]
    exact h.home b x member
  · rw [same]
    exact h.distinct b

theorem of_agrees (h : g.ListedOnce) (agrees : g.Agrees g') : g'.ListedOnce :=
  h.congr agrees.lists fun _ x _ => agrees.outline? x

theorem loose_of_fresh (h : g.ListedOnce) (fresh : g.outline? a = none) : g.Loose a := by
  intro b member
  obtain ⟨n, found, _⟩ := h.home b a member
  simp [fresh] at found

theorem addNode (h : g.ListedOnce) : (g.addNode n).1.ListedOnce := by
  refine h.congr rfl fun b x member => ?_
  rw [outline?_addNode, if_neg]
  rintro rfl
  exact h.loose_of_fresh outline?_fresh b member

theorem newAccess? (h : g.ListedOnce) {inst : Inst}
    (ran : g.newAccess? p o inst block = .ok (some (g', a))) : g'.ListedOnce := by
  obtain ⟨n, next, _, _, _, _, _, rfl⟩ := newAccess?_ok ran
  exact (h.addNode (n := n)).congr rfl fun _ _ _ => rfl

end ListedOnce

/-- What only depends on the lists, their order and which accesses there are survives rewiring. -/
theorem keptByRewiring_of_outline {P : Graph → Prop}
    (congr : ∀ {g g' : Graph}, g'.lists = g.lists → g'.defLists = g.defLists →
      g'.blockPhi = g.blockPhi →
      g'.order = g.order → g'.nodes.size = g.nodes.size → (∀ x, g'.outline? x = g.outline? x) →
      P g → P g') : KeptByRewiring P := by
  have step : ∀ {g kept : Graph} {a new : Access} {old : Option Access} {f : Node → Node}, P g →
      (∀ n, (f n).outline = n.outline) → (g.exchange a f old new).Agrees kept →
      kept.order = (g.exchange a f old new).order → P kept := by
    intro g kept a new old f holds same agrees order
    refine congr ?_ ?_ ?_ (order.trans order_exchange) ?_
      (fun x => (agrees.outline? x).trans (outline?_exchange same)) holds
    · rw [agrees.lists]
      cases old <;> rfl
    · rw [agrees.defLists]
      cases old <;> rfl
    · rw [agrees.blockPhi]
      cases old <;> rfl
    · rw [agrees.size]
      cases old <;> simp [exchange, modifyNode]
  refine ⟨fun holds ran => ?_, fun holds ran => ?_, fun holds ran => ?_⟩
  · obtain ⟨_, _, _, _, _, _, _, _, rfl, forgot⟩ := setDefining_ok ran
    refine step holds (fun n => ?_) (agrees_of_forgets forgot).1 (agrees_of_forgets forgot).2
    obtain ⟨_, _, role, _⟩ := n
    cases role <;> rfl
  · obtain ⟨_, _, _, _, _, _, rfl⟩ := addIncoming_ok ran
    refine step holds (fun n => ?_) (agrees_forgetAll _) rfl
    obtain ⟨_, _, role, _⟩ := n
    cases role <;> rfl
  · obtain ⟨_, _, _, _, _, _, _, _, _, rfl⟩ := setIncoming_ok ran
    refine step holds (fun n => ?_) (agrees_forgetAll _) rfl
    obtain ⟨_, _, role, _⟩ := n
    cases role <;> rfl

theorem InStep.congr (h : g.InStep b) (accesses : g'.accesses b = g.accesses b)
    (definitions : g'.definitions b = g.definitions b) (phi? : g'.phi? b = g.phi? b)
    (outline : ∀ x ∈ g.accesses b, g'.outline? x = g.outline? x) : g'.InStep b := by
  obtain ⟨⟨rest, program, plain⟩, defines, placed, distinct⟩ := h
  refine ⟨⟨rest, by rw [accesses, phi?, program], fun x member => ?_⟩, ?_, fun x member => ?_, ?_⟩
  · rw [isPhi_of_outline (outline x (by simp [program, member]))]
    exact plain x member
  · rw [definitions, accesses, defines, defining_congr outline]
  · rw [accesses] at member
    rw [outline x member]
    exact placed x member
  · rwa [accesses]

theorem InStep.put (h : g.InStep b) (unlisted : a ∉ g.accesses b)
    (program : g.accesses b = (g.phi? b).toList ++ front ++ back)
    (plain : ∀ x ∈ front ++ back, g.isPhi x = false)
    (old : ∀ x, x ≠ a → g'.outline? x = g.outline? x)
    (found : g'.outline? a = some n) (notPhi : n.isPhi = false) (here : n.block = b)
    (accesses : g'.accesses b = (g.phi? b).toList ++ front ++ a :: back)
    (definitions : g'.definitions b = if n.isUse then g.definitions b else
      g.defining ((g.phi? b).toList ++ front) ++ a :: g.defining back)
    (phi? : g'.phi? b = g.phi? b) : g'.InStep b := by
  have other : ∀ x ∈ g.accesses b, g'.outline? x = g.outline? x := by
    intro x member
    refine old x ?_
    rintro rfl
    exact unlisted member
  refine ⟨⟨front ++ a :: back, by simp [accesses, phi?], fun x member => ?_⟩, ?_,
    fun x member => ?_, ?_⟩
  · by_cases same : x = a
    · simpa [Graph.isPhi, same, found] using notPhi
    · rw [isPhi_of_outline (old x same)]
      exact plain x (by simpa [same] using member)
  · rw [program] at other
    have before : g'.defining ((g.phi? b).toList ++ front) =
        g.defining ((g.phi? b).toList ++ front) :=
      defining_congr fun x member => other x (List.mem_append_left back member)
    have behind : g'.defining back = g.defining back :=
      defining_congr fun x member => other x (List.mem_append_right _ member)
    have whole : g'.defining ((g.phi? b).toList ++ front ++ a :: back) =
        g.defining ((g.phi? b).toList ++ front) ++ if n.isUse then g.defining back else
          a :: g.defining back := by
      rw [defining_append, before, ← behind]
      cases isUse : n.isUse <;> simp [defining, found, isUse]
    rw [definitions, accesses, whole]
    split
    · rw [h.definitions, program, defining_append]
    · rfl
  · by_cases same : x = a
    · exact ⟨n, same ▸ found, here⟩
    · rw [old x same]
      refine h.placed x ?_
      rw [accesses] at member
      rw [program]
      simpa [same] using member
  · rw [accesses, List.nodup_middle, ← program]
    exact List.nodup_cons.mpr ⟨unlisted, h.distinct⟩

theorem InStep.putPhi (h : g.InStep b) (free : g.phi? b = none) (unlisted : a ∉ g.accesses b)
    (old : ∀ x ∈ g.accesses b, g'.outline? x = g.outline? x) (found : g'.outline? a = some n)
    (isPhi : n.isPhi = true) (here : n.block = b) (accesses : g'.accesses b = a :: g.accesses b)
    (definitions : g'.definitions b = a :: g.definitions b) (phi? : g'.phi? b = some a) :
    g'.InStep b := by
  obtain ⟨⟨rest, program, plain⟩, defines, placed, distinct⟩ := h
  refine ⟨⟨rest, by simp [accesses, phi?, program, free], fun x member => ?_⟩, ?_,
    fun x member => ?_, ?_⟩
  · rw [isPhi_of_outline (old x (by simp [program, member]))]
    exact plain x member
  · have known : g'.defining (g.accesses b) = g.definitions b := by rw [defining_congr old, defines]
    rw [definitions, accesses, ← known]
    simp [defining, found, n.isUse_of_isPhi isPhi]
  · rw [accesses] at member
    rcases List.mem_cons.mp member with rfl | member
    · exact ⟨n, found, here⟩
    · rw [old x member]
      exact placed x member
  · rw [accesses]
    exact List.nodup_cons.mpr ⟨unlisted, distinct⟩

theorem InStep.without (h : g.InStep b) (accesses : g'.accesses b = (g.accesses b).filter (· != a))
    (definitions : g'.definitions b = (g.definitions b).filter (· != a))
    (phi? : g'.phi? b = (g.phi? b).filter (· != a))
    (old : ∀ x, x ≠ a → g'.outline? x = g.outline? x) :
    g'.InStep b := by
  obtain ⟨⟨rest, program, plain⟩, defines, placed, distinct⟩ := h
  refine ⟨⟨rest.filter (· != a), ?_, fun x member => ?_⟩, ?_, fun x member => ?_, ?_⟩
  · rw [accesses, program, List.filter_append, phi?]
    cases g.phi? b with
    | none => rfl
    | some phi => by_cases here : phi = a <;> simp [here, Option.filter_some]
  · obtain ⟨member, other⟩ := List.mem_filter.mp member
    rw [isPhi_of_outline (old x (bne_iff_ne.mp other))]
    exact plain x member
  · rw [definitions, accesses, defines, defining, defining, List.filter_filter, List.filter_filter]
    refine List.filter_congr fun x _ => ?_
    by_cases here : x = a
    · simp [here]
    · rw [old x here, Bool.and_comm]
  · rw [accesses] at member
    obtain ⟨member, other⟩ := List.mem_filter.mp member
    rw [old x (bne_iff_ne.mp other)]
    exact placed x member
  · rw [accesses]
    exact distinct.filter _

theorem InStep.isPhi_of_tail (h : g.InStep b) (member : a ∈ (g.accesses b).tail) :
    g.isPhi a = false := by
  obtain ⟨rest, program, plain⟩ := h.program
  apply plain
  rw [program] at member
  cases held : g.phi? b with
  | none =>
      rw [held] at member
      exact List.mem_of_mem_tail member
  | some phi =>
      rw [held] at member
      exact member

theorem InStep.phi?_of_head (h : g.InStep b) (head : (g.accesses b).head? = some a)
    (isPhi : g.isPhi a = true) : g.phi? b = some a := by
  obtain ⟨rest, program, plain⟩ := h.program
  rw [program] at head
  cases held : g.phi? b with
  | none =>
      have early : a ∈ rest := List.mem_of_head? (by simpa [held] using head)
      simp [plain a early] at isPhi
  | some phi => simpa [held] using head

namespace Lockstep

theorem of_outline (h : g.Lockstep) (lists : g'.lists = g.lists)
    (defLists : g'.defLists = g.defLists) (blockPhi : g'.blockPhi = g.blockPhi)
    (outline : ∀ x, g'.outline? x = g.outline? x) : g'.Lockstep := by
  have phi? : ∀ b, g'.phi? b = g.phi? b := fun b => by rw [Graph.phi?, blockPhi]; rfl
  refine ⟨fun b => (h.lists b).congr ?_ ?_ (phi? b) fun x _ => outline x, ?_, ?_, ?_⟩
  · rw [accesses, lists]
    rfl
  · rw [definitions, defLists]
    rfl
  · simpa only [phi?, outline] using h.phi
  · simpa only [lists] using h.filled
  · simpa only [defLists] using h.filledDefs

theorem of_agrees (h : g.Lockstep) (agrees : g.Agrees g') : g'.Lockstep :=
  h.of_outline agrees.lists agrees.defLists agrees.blockPhi agrees.outline?

theorem phi_listed (h : g.Lockstep) (held : g.phi? b = some x) : x ∈ g.accesses b := by
  obtain ⟨rest, program, _⟩ := (h.lists b).program
  simp [program, held]

theorem phi_isPhi (h : g.Lockstep) (held : g.phi? b = some x) : g.isPhi x = true := by
  obtain ⟨n, found, isPhi, _⟩ := (h.phi b x).mp held
  simpa [Graph.isPhi, found] using isPhi

theorem isPhi_of_loose (h : g.Lockstep) (loose : g.Loose a) (found : g.outline? a = some n) :
    n.isPhi = false := by
  by_contra isPhi
  have held : g.phi? n.block = some a := (h.phi n.block a).mpr ⟨n, found, by simpa using isPhi, rfl⟩
  exact loose n.block (h.phi_listed held)

theorem listedOnce (h : g.Lockstep) : g.ListedOnce :=
  ⟨fun b => (h.lists b).placed, fun b => (h.lists b).distinct⟩

theorem block_unique (h : g.Lockstep) (member : x ∈ g.accesses b) (member' : x ∈ g.accesses block) :
    b = block :=
  h.listedOnce.block_unique member member'

theorem put (h : g.Lockstep) (loose : g.Loose a) (found : g.outline? a = some n)
    (program : g.accesses block = (g.phi? block).toList ++ front ++ back)
    (plain : ∀ x ∈ front ++ back, g.isPhi x = false)
    (lists : g'.lists = g.lists.insert block ((g.phi? block).toList ++ front ++ a :: back))
    (defLists : g'.defLists = if n.isUse then g.defLists else g.defLists.insert block
      (g.defining ((g.phi? block).toList ++ front) ++ a :: g.defining back))
    (blockPhi : g'.blockPhi = g.blockPhi)
    (outline : ∀ x, g'.outline? x = if x = a then some { n with block } else g.outline? x) :
    g'.Lockstep := by
  have notPhi := h.isPhi_of_loose loose found
  have moved : ({ n with block } : Node).isPhi = false := notPhi
  have phi? : ∀ b, g'.phi? b = g.phi? b := fun b => by rw [Graph.phi?, blockPhi]; rfl
  have old : ∀ x, x ≠ a → g'.outline? x = g.outline? x :=
    fun x apart => by rw [outline, if_neg apart]
  refine ⟨fun b => ?_, fun b x => ?_, fun b => ?_, fun b => ?_⟩
  · by_cases same : b = block
    · subst same
      refine (h.lists b).put (loose b) program plain old (by rw [outline, if_pos rfl]) moved rfl
        ?_ ?_ (phi? b)
      · rw [accesses, lists, getD_insert, if_pos rfl]
      · rw [definitions, defLists]
        change _ = if n.isUse then _ else _
        split
        · rfl
        · rw [getD_insert, if_pos rfl]
    · refine (h.lists b).congr ?_ ?_ (phi? b) fun x member => old x ?_
      · rw [accesses, lists, getD_insert, if_neg same]
        rfl
      · rw [definitions, defLists]
        split
        · rfl
        · rw [getD_insert, if_neg same]
          rfl
      · rintro rfl
        exact loose b member
  · rw [phi?, h.phi]
    by_cases same : x = a
    · simp [same, outline, found, notPhi, moved]
    · rw [old x same]
  · rw [lists]
    exact filled_insert h.filled (by simp) b
  · rw [defLists]
    split
    · exact h.filledDefs b
    · exact filled_insert h.filledDefs (by simp) b

/-- The phi of a block is all of its list that is put before anything else. -/
theorem split_phis (h : g.Lockstep) (plain : ∀ x ∈ l, g.isPhi x = false) :
    ((g.phi? b).toList ++ l).takeWhile g.isPhi = (g.phi? b).toList ∧
      ((g.phi? b).toList ++ l).dropWhile g.isPhi = l := by
  have phis : ∀ x ∈ (g.phi? b).toList, g.isPhi x = true :=
    fun x member => h.phi_isPhi (Option.mem_toList.mp member)
  rw [List.takeWhile_append_of_pos phis, List.dropWhile_append_of_pos phis]
  cases l with
  | nil => simp
  | cons x l => simp [plain x List.mem_cons_self]

theorem defining_phi (h : g.Lockstep) : g.defining (g.phi? b).toList = (g.phi? b).toList := by
  cases held : g.phi? b with
  | none => rfl
  | some phi =>
      obtain ⟨n, found, isPhi, _⟩ := (h.phi b phi).mp held
      simp [defining, found, n.isUse_of_isPhi isPhi]

theorem relist (h : g.Lockstep) (loose : g.Loose a) (found : g.node? a = some n)
    {list defList : List Access}
    (program : g.accesses block = (g.phi? block).toList ++ front ++ back)
    (plain : ∀ x ∈ front ++ back, g.isPhi x = false)
    (listed : list = (g.phi? block).toList ++ front ++ a :: back)
    (defined : n.isUse = false →
      defList = g.defining ((g.phi? block).toList ++ front) ++ a :: g.defining back) :
    ((g.modifyNode a ({ · with block })).relist n block list defList).Lockstep := by
  have outline := outline?_eq found
  refine h.put loose outline program plain ?_ ?_ ?_ fun x => ?_
  · rw [← listed, Graph.relist]
    cases n.isUse <;> rfl
  · rw [Graph.relist, n.isUse_outline]
    cases isUse : n.isUse with
    | true => rfl
    | false =>
        rw [← defined isUse]
        rfl
  · rw [Graph.relist]
    cases n.isUse <;> rfl
  · rw [outline?_relist, outline?_modifyBlock]
    split
    · rename_i here
      rw [here, outline]
      rfl
    · rfl

theorem insert (h : g.Lockstep) (loose : g.Loose a) {place : Place}
    (ran : g.insert a block place = .ok g') : g'.Lockstep := by
  obtain ⟨n, moved, list, defList, found, rfl, listed, defined, rfl⟩ := insert_ok ran
  have notPhi : n.isPhi = false := by simpa using h.isPhi_of_loose loose (outline?_eq found)
  obtain ⟨rest, program, plain⟩ := (h.lists block).program
  rw [notPhi] at listed defined
  cases place with
  | beginning =>
      -- In both lists just the phi of the block is passed over.
      have program' : g.accesses block = (g.phi? block).toList ++ [] ++ rest := by
        simpa using program
      refine h.relist loose found program' plain ?_ fun notUse => ?_
      · have same := insertAfterPhis_ok listed
        rw [isPhi_modifyBlock, program, (h.split_phis plain).1, (h.split_phis plain).2] at same
        simpa using same
      · have same := insertAfterPhis_ok (defined notUse)
        have plain' : ∀ x ∈ g.defining rest, g.isPhi x = false :=
          fun x member => plain x (List.mem_filter.mp member).1
        rw [isPhi_modifyBlock, (h.lists block).definitions, program, defining_append,
          h.defining_phi, (h.split_phis plain').1, (h.split_phis plain').2] at same
        rw [same, List.append_nil, h.defining_phi]
  | ending =>
      have program' : g.accesses block = (g.phi? block).toList ++ rest ++ [] := by
        simpa using program
      refine h.relist loose found program' (by simpa using plain) ?_ fun notUse => ?_
      · cases listed
        rw [program]
      · cases defined notUse
        rw [(h.lists block).definitions, program]
        rfl

theorem insertBefore (h : g.Lockstep) (loose : g.Loose a) {before : Option Access}
    (late : before.any g.isPhi = false) (ran : g.insertBefore a block before = .ok g') :
    g'.Lockstep := by
  cases before with
  | none => exact h.insert loose ran
  | some before =>
      obtain ⟨n, moved, next, found, rfl, member, first, rfl⟩ := insertBefore_some_ok ran
      obtain ⟨rest, program, plain⟩ := (h.lists block).program
      have inside : before ∈ rest := by
        rw [program, List.mem_append, Option.mem_toList] at member
        refine member.resolve_left fun held => ?_
        simp [h.phi_isPhi held] at late
      obtain ⟨front, back, rfl, _⟩ := List.eq_append_cons_of_mem inside
      rw [← List.append_assoc] at program
      have apart : ∀ x ∈ (g.phi? block).toList ++ front, x ∉ before :: back := by
        have distinct := (h.lists block).distinct
        rw [program] at distinct
        exact fun x early late => (List.nodup_append.mp distinct).2.2 x early x late rfl
      have fresh : before ∉ (g.phi? block).toList ++ front :=
        fun early => apart before early List.mem_cons_self
      refine h.relist loose found program plain ?_ fun notUse => ?_
      · rw [program, insertAhead_append fresh]
      · have next_eq := firstDefinition?_ok (first notUse)
        rw [program, (split_at_first fresh).2, defining_modifyBlock] at next_eq
        rw [next_eq, (h.lists block).definitions, program, defining_append]
        cases later : g.defining (before :: back) with
        | nil => simp
        | cons y tail =>
            have member : y ∈ g.defining (before :: back) := later ▸ List.mem_cons_self
            refine insertAhead_append fun early => ?_
            exact apart y (List.mem_filter.mp early).1 (List.mem_filter.mp member).1

theorem without (h : g.Lockstep) (found : g.outline? a = some n)
    (lists : g'.lists = unlistFrom g.lists n.block a)
    (defLists : g'.defLists = unlistFrom g.defLists n.block a)
    (phi? : ∀ b, g'.phi? b = (g.phi? b).filter (· != a))
    (outline : ∀ x, x ≠ a → g'.outline? x = g.outline? x) (gone : g'.isPhi a = false) :
    g'.Lockstep ∧ g'.Loose a := by
  have elsewhere : ∀ b, b ≠ n.block → a ∉ g.accesses b := by
    intro b other member
    obtain ⟨m, found', rfl⟩ := (h.lists b).placed a member
    exact other (by rw [Option.some.inj (found.symm.trans found')])
  have accesses : ∀ b, g'.accesses b = (g.accesses b).filter (· != a) := by
    intro b
    rw [Graph.accesses, lists]
    exact getD_unlistFrom_eq g.lists (elsewhere b)
  have definitions : ∀ b, g'.definitions b = (g.definitions b).filter (· != a) := by
    intro b
    rw [Graph.definitions, defLists]
    refine getD_unlistFrom_eq g.defLists fun other member => elsewhere b other ?_
    have listed : a ∈ g.definitions b := member
    rw [(h.lists b).definitions] at listed
    exact (List.mem_filter.mp listed).1
  refine ⟨⟨fun b => (h.lists b).without (accesses b) (definitions b) (phi? b) outline,
    fun b x => ?_, fun b => ?_, fun b => ?_⟩, fun b member => ?_⟩
  · rw [phi?]
    by_cases here : x = a
    · subst here
      constructor
      · intro held
        simpa using (Option.filter_eq_some_iff.mp held).2
      · rintro ⟨m, found', isPhi, _⟩
        simp [Graph.isPhi, found', isPhi] at gone
    · rw [outline x here, ← h.phi]
      simp [Option.filter_eq_some_iff, here]
  · rw [lists]
    exact filled_withoutMember h.filled b
  · rw [defLists]
    exact filled_withoutMember h.filledDefs b
  · rw [accesses] at member
    simp at member

theorem phi_other (h : g.Lockstep) (notPhi : g.isPhi a = false) (b : Block) :
    (g.phi? b).filter (· != a) = g.phi? b := by
  refine filter_ne fun held => ?_
  simp [h.phi_isPhi held] at notPhi

theorem detach (h : g.Lockstep) (ran : g.detach a = .ok g') :
    g'.Lockstep ∧ g'.Loose a ∧ g'.isPhi = g.isPhi := by
  obtain ⟨n, kept, found, notPhi, forgot, ran⟩ := detach_ok ran
  obtain ⟨m, found', rfl⟩ := unlist_ok ran
  have agrees := agrees_of_forget forgot
  have h' := h.of_agrees agrees
  have plain : kept.isPhi a = false := by
    rw [isPhi_of_outline (agrees.outline? a), isPhi_eq found, notPhi]
  have left : (kept.unlisted a m.block).Lockstep ∧ (kept.unlisted a m.block).Loose a :=
    h'.without (outline?_eq found') rfl rfl (fun b => (h'.phi_other plain b).symm)
      (fun _ _ => rfl) plain
  exact ⟨left.1, left.2, funext fun x => isPhi_of_outline (agrees.outline? x)⟩

theorem discard (h : g.Lockstep) (ran : g.discard a = .ok g') : g'.Lockstep := by
  obtain ⟨n, nodes, kept, found, _, _, node?_eq, forgot, rfl⟩ := discard_ok ran
  refine of_agrees ?_ (agrees_of_forget_clear forgot).1
  have outline := outline?_eq found
  have gone : ∀ x, (({ g with nodes }.unlisted a n.block).clear a n).outline? x =
      if x = a then none else g.outline? x := fun _ => outline?_discarded node?_eq
  have phi? : ∀ b, (({ g with nodes }.unlisted a n.block).clear a n).phi? b =
      (g.phi? b).filter (· != a) := by
    intro b
    rw [clear_eq]
    change (n.inst?.elim (withoutEntry g.blockPhi n.block a) fun _ => g.blockPhi)[b]? = _
    cases inst : n.inst? with
    | none =>
        refine getElem?_withoutEntry (fun k held => ?_) b
        obtain ⟨m, found', _, rfl⟩ := (h.phi k a).mp held
        cases outline.symm.trans found'
        rfl
    | some inst' =>
        refine (h.phi_other ?_ b).symm
        rw [isPhi_eq found, n.isPhi_of_inst? inst]
  refine (h.without outline ?_ ?_ phi? (fun x other => ?_) ?_).1
  · rw [clear_eq]
    rfl
  · rw [clear_eq]
    rfl
  · rw [gone, if_neg other]
  · simp [Graph.isPhi, gone]

theorem keptByRewiring : KeptByRewiring Lockstep :=
  keptByRewiring_of_outline fun lists defLists blockPhi _ _ outline h =>
    h.of_outline lists defLists blockPhi outline

theorem grow (h : g.Lockstep) (fresh : g.outline? a = none) (notPhi : n.isPhi = false)
    (lists : g'.lists = g.lists) (defLists : g'.defLists = g.defLists)
    (blockPhi : g'.blockPhi = g.blockPhi)
    (outline : ∀ x, g'.outline? x = if x = a then some n else g.outline? x) : g'.Lockstep := by
  have phi? : ∀ b, g'.phi? b = g.phi? b := fun b => by rw [Graph.phi?, blockPhi]; rfl
  refine ⟨fun b => (h.lists b).congr ?_ ?_ (phi? b) fun x member => ?_, fun b x => ?_, ?_, ?_⟩
  · rw [accesses, lists]
    rfl
  · rw [definitions, defLists]
    rfl
  · rw [outline, if_neg]
    rintro rfl
    exact h.listedOnce.loose_of_fresh fresh b member
  · rw [phi?, h.phi, outline]
    by_cases here : x = a
    · simp [here, fresh, notPhi]
    · rw [if_neg here]
  · rw [lists]
    exact h.filled
  · rw [defLists]
    exact h.filledDefs

theorem growPhi (h : g.Lockstep) (fresh : g.outline? a = none) (free : g.phi? block = none)
    (isPhi : n.isPhi = true) (here : n.block = block)
    (lists : g'.lists = g.lists.insert block (a :: g.accesses block))
    (defLists : g'.defLists = g.defLists.insert block (a :: g.definitions block))
    (blockPhi : g'.blockPhi = g.blockPhi.insert block a)
    (outline : ∀ x, g'.outline? x = if x = a then some n else g.outline? x) : g'.Lockstep := by
  have loose := h.listedOnce.loose_of_fresh fresh
  have phi? : ∀ b, g'.phi? b = if b = block then some a else g.phi? b := by
    intro b
    rw [Graph.phi?, blockPhi, getElem?_insert]
    rfl
  have old : ∀ b, ∀ x ∈ g.accesses b, g'.outline? x = g.outline? x := by
    intro b x member
    rw [outline, if_neg]
    rintro rfl
    exact loose b member
  refine ⟨fun b => ?_, fun b x => ?_, fun b => ?_, fun b => ?_⟩
  · by_cases same : b = block
    · subst same
      refine (h.lists b).putPhi free (loose b) (old b) (by rw [outline, if_pos rfl]) isPhi
        here ?_ ?_ ?_
      · rw [accesses, lists, getD_insert, if_pos rfl]
      · rw [definitions, defLists, getD_insert, if_pos rfl]
      · rw [phi?, if_pos rfl]
    · refine (h.lists b).congr ?_ ?_ (by rw [phi?, if_neg same]) (old b)
      · rw [accesses, lists, getD_insert, if_neg same]
        rfl
      · rw [definitions, defLists, getD_insert, if_neg same]
        rfl
  · rw [phi?, outline]
    by_cases same : x = a
    · subst same
      have unlisted : g.phi? b ≠ some x := fun held => loose b (h.phi_listed held)
      by_cases there : b = block
      · simp [there, here, isPhi]
      · simp [there, here, unlisted, Ne.symm there]
    · rw [if_neg same, ← h.phi]
      split
      · rename_i there
        simp [there, free, Ne.symm same]
      · rfl
  · rw [lists]
    exact filled_insert h.filled (by simp) b
  · rw [defLists]
    exact filled_insert h.filledDefs (by simp) b

theorem newAccess? (h : g.Lockstep) {inst : Inst}
    (ran : g.newAccess? p o inst block = .ok (some (g', a))) : g'.Lockstep := by
  obtain ⟨n, next, inst?, _, _, _, rfl, rfl⟩ := newAccess?_ok ran
  refine h.grow (outline?_fresh (n := n)) (n := n.outline) ?_ rfl rfl rfl fun x => outline?_addNode
  rw [n.isPhi_outline, n.isPhi_of_inst? inst?]

theorem createPhi (h : g.Lockstep) (ran : g.createPhi block = .ok (g', a)) : g'.Lockstep := by
  obtain ⟨added, listed, free, rfl, rfl, inserted, rfl⟩ := createPhi_ok ran
  obtain ⟨n, moved, list, defList, found, rfl, listed, defined, rfl⟩ := insert_ok inserted
  let phi : Node := ⟨g.nextNumber, block, .phi [], []⟩
  have here : (g.addNode phi).1.node? (g.addNode phi).2 = some n := found
  rw [node?_addNode, if_pos rfl] at here
  obtain rfl : n = phi := (Option.some.inj here).symm
  cases listed
  cases defined rfl
  have free : g.phi? block = none := Std.TreeMap.getElem?_eq_none_of_contains_eq_false free
  refine h.growPhi (outline?_fresh (n := phi)) (n := phi.outline) free rfl rfl rfl rfl rfl ?_
  intro x
  refine outline?_relist.trans (outline?_modifyBlock.trans ?_)
  change (if x = (g.addNode phi).2 then ((g.addNode phi).1.outline? x).map ({ · with block })
    else (g.addNode phi).1.outline? x) = _
  rw [outline?_addNode]
  split <;> rfl

end Lockstep

end MemoryFlow.Graph
