import MemoryFlow.Proofs.Graph.Stack

/-! # Cached clobbers

Two graphs agree if they differ only in how they are searched and in what is cached and settled.
Nothing about the accesses and what is above them tells agreeing graphs apart, and keeping an answer
leaves a graph that agrees.
-/

namespace MemoryFlow

namespace Graph

variable {g g' : Graph} {p : Procedure} {entry b : Block} {a c x : Access} {n : Node}
  {l : List Access}

/-- Whether two graphs differ only in how they are searched and in what is cached and settled. -/
structure Agrees (g g' : Graph) : Prop where
  flow : g'.flow = g.flow
  tree : g'.tree = g.tree
  lists : g'.lists = g.lists
  defLists : g'.defLists = g.defLists
  instAccess : g'.instAccess = g.instAccess
  blockPhi : g'.blockPhi = g.blockPhi
  nextNumber : g'.nextNumber = g.nextNumber
  size : g'.nodes.size = g.nodes.size
  nodes : ∀ a, (g'.node? a).map Node.forgotten = (g.node? a).map Node.forgotten

namespace Agrees

theorem refl : g.Agrees g := ⟨rfl, rfl, rfl, rfl, rfl, rfl, rfl, rfl, fun _ => rfl⟩

theorem symm (agrees : g.Agrees g') : g'.Agrees g :=
  ⟨agrees.flow.symm, agrees.tree.symm, agrees.lists.symm, agrees.defLists.symm,
    agrees.instAccess.symm, agrees.blockPhi.symm, agrees.nextNumber.symm, agrees.size.symm, fun a =>
      (agrees.nodes a).symm⟩

theorem trans {g'' : Graph} (first : g.Agrees g') (second : g'.Agrees g'') : g.Agrees g'' :=
  ⟨second.flow.trans first.flow, second.tree.trans first.tree, second.lists.trans first.lists,
    second.defLists.trans first.defLists, second.instAccess.trans first.instAccess,
    second.blockPhi.trans first.blockPhi, second.nextNumber.trans first.nextNumber,
    second.size.trans first.size, fun a => (second.nodes a).trans (first.nodes a)⟩

variable (agrees : g.Agrees g')
include agrees

theorem read (found : g.node? a = some n) : ∃ m, g'.node? a = some m ∧ n.Alike m := by
  have same := agrees.nodes a
  rw [found] at same
  obtain ⟨m, found', equal⟩ := Option.map_eq_some_iff.mp same
  exact ⟨m, found', .of_forgotten equal⟩

theorem outline? (a : Access) : g'.outline? a = g.outline? a := by
  have same := congrArg (Option.map Node.outline) (agrees.nodes a)
  simp only [Option.map_map, Function.comp_def, Node.outline_forgotten] at same
  exact same

theorem accesses : g'.accesses = g.accesses := by
  funext b
  rw [Graph.accesses, agrees.lists]
  rfl

theorem definitions : g'.definitions = g.definitions := by
  funext b
  rw [Graph.definitions, agrees.defLists]
  rfl

theorem reachIn : g'.reachIn = g.reachIn := by
  funext b
  rw [Graph.reachIn, agrees.tree, agrees.definitions]
  rfl

theorem above (up : g.Above a c) : g'.Above a c := by
  obtain ⟨n, found, step⟩ := up
  obtain ⟨m, found', alike⟩ := agrees.read found
  refine ⟨m, found', ?_⟩
  rw [alike.isDefinition, alike.defining?, alike.incoming, agrees.tree]
  exact step

theorem stack (stack : g.Stack l) : g'.Stack l := by
  induction stack with
  | entry => exact .entry
  | definition found isDefinition link _ ih =>
      obtain ⟨m, found', alike⟩ := agrees.read found
      exact .definition found' (alike.isDefinition.trans isDefinition)
        (alike.defining?.trans link) ih
  | phi found isPhi _ ih =>
      obtain ⟨m, found', alike⟩ := agrees.read found
      rw [← agrees.reachIn, ← alike.block] at ih ⊢
      exact .phi found' (alike.isPhi.trans isPhi) ih

theorem keeps_over (precedes : g.Over entry a c) : g'.Over entry a c := by
  obtain ⟨other, above⟩ := precedes
  refine ⟨other, above.imp_right fun ⟨n, m, foundA, foundC, places⟩ => ?_⟩
  obtain ⟨n', foundA', alikeA⟩ := agrees.read foundA
  obtain ⟨m', foundC', alikeC⟩ := agrees.read foundC
  refine ⟨n', m', foundA', foundC', ?_⟩
  rw [alikeA.block, alikeC.block, agrees.accesses, agrees.flow]
  exact places

theorem places {order : LocalOrder} (right : g.Places order) : g'.Places order := by
  rw [Places, agrees.accesses]
  exact right

theorem settling {order order' : LocalOrder} (settling : g'.Settling order order') :
    g.Settling order order' := by
  rw [Settling, agrees.accesses] at settling
  exact settling

theorem arranged (h : g.Arranged p entry) : g'.Arranged p entry :=
  h.transfer agrees.tree agrees.flow agrees.lists agrees.defLists agrees.instAccess agrees.blockPhi
    agrees.outline?

theorem wired (h : g.Wired p entry) : g'.Wired p entry := by
  have holdsAfter := holdsAfter_congr agrees.tree agrees.defLists agrees.outline?
  refine { agrees.arranged h.toArranged with
    entryLink := ?_, defined := ?_, flows := ?_, once := ?_ }
  · intro n found
    obtain ⟨m, found', alike⟩ := agrees.symm.read found
    rw [← alike.defining?]
    exact h.entryLink m found'
  · intro b before a after n place found notPhi
    obtain ⟨m, found', alike⟩ := agrees.symm.read found
    rw [agrees.accesses] at place
    rw [← alike.defining?, holdsAfter]
    exact h.defined b before a after m place found' (alike.isPhi.trans notPhi)
  · intro phi n pred value found isPhi
    obtain ⟨m, found', alike⟩ := agrees.symm.read found
    rw [← alike.incoming, ← alike.block, agrees.flow, holdsAfter, agrees.accesses]
    exact h.flows phi m pred value found' (alike.isPhi.trans isPhi)
  · intro phi n found
    obtain ⟨m, found', alike⟩ := agrees.symm.read found
    rw [← alike.incoming]
    exact h.once phi m found'

theorem shaped (h : g.Shaped p entry) : g'.Shaped p entry :=
  h.transfer agrees.tree agrees.flow agrees.lists agrees.defLists agrees.instAccess agrees.blockPhi
    agrees.outline?

theorem linked (h : g.Linked p entry) : g'.Linked p entry :=
  { agrees.shaped h.toShaped, agrees.wired h.toWired with first := agrees.flow ▸ h.first }

end Agrees

theorem agrees_configured (g : Graph) (config : Config) (order : LocalOrder) :
    g.Agrees { g with config, order } :=
  ⟨rfl, rfl, rfl, rfl, rfl, rfl, rfl, rfl, fun _ => rfl⟩

def cached? (g : Graph) (a : Access) : Option Access :=
  (g.node? a).bind Node.cached?

theorem cached?_eq (found : g.node? a = some n) : g.cached? a = n.cached? := by
  rw [cached?, found]
  rfl

theorem unindex_frame (g : Graph) (c a : Access) :
    ∃ cachedBy, g.unindex c a = { g with cachedBy } := by
  rw [unindex]
  split
  · exact ⟨g.cachedBy, rfl⟩
  · split
    · exact ⟨_, rfl⟩
    · exact ⟨_, rfl⟩

theorem index_frame (g : Graph) (c a : Access) : ∃ cachedBy, g.index c a = { g with cachedBy } := by
  rw [index]
  split
  · exact ⟨g.cachedBy, rfl⟩
  · exact ⟨_, rfl⟩

theorem cache_frame (found : g.node? a = some n) (notPhi : n.isPhi = false) (c : Access) :
    ∃ cachedBy, g.cache a c = .ok { g.setCached a (some c) with cachedBy } := by
  rw [cache, node_eq found, ok_bind]
  cases linked : n.link? with
  | none =>
      obtain ⟨_, _, role, _⟩ := n
      cases role with
      | definition | use => cases linked
      | phi => cases notPhi
  | some link =>
      have kept : ∀ start, ∃ cachedBy,
          (setCached { g with cachedBy := start } a (some c)).index c a =
          { g.setCached a (some c) with cachedBy } := fun start => index_frame _ c a
      dsimp only
      cases link.cached with
      | none =>
          obtain ⟨cachedBy, same⟩ := kept g.cachedBy
          exact ⟨cachedBy, congrArg Except.ok same⟩
      | some old =>
          obtain ⟨start, before⟩ : ∃ start, (if old = c then g else g.unindex old a) =
              { g with cachedBy := start } := by
            split
            · exact ⟨g.cachedBy, rfl⟩
            · exact g.unindex_frame old a
          obtain ⟨cachedBy, same⟩ := kept start
          dsimp only
          rw [before, same]
          exact ⟨cachedBy, rfl⟩

theorem setCached_agrees (g : Graph) (a : Access) (cached : Option Access)
    (cachedBy : Std.TreeMap Access (List Access)) :
    g.Agrees { g.setCached a cached with cachedBy } := by
  refine ⟨rfl, rfl, rfl, rfl, rfl, rfl, rfl, Array.size_modify .., fun x => ?_⟩
  refine (congrArg (Option.map Node.forgotten) (node?_modifyNode _)).trans ?_
  split
  · rw [Option.map_map]
    congr 1
    funext m
    obtain ⟨_, _, role, _⟩ := m
    cases role <;> rfl
  · rfl

theorem cache_agrees (found : g.node? a = some n) (notPhi : n.isPhi = false) (c : Access) :
    ∃ g', g.cache a c = .ok g' ∧ g.Agrees g' ∧ g'.config = g.config ∧ g'.order = g.order ∧
      ∀ x, g'.cached? x = if x = a then some c else g.cached? x := by
  obtain ⟨cachedBy, cached⟩ := cache_frame found notPhi c
  refine ⟨_, cached, g.setCached_agrees a (some c) cachedBy, rfl, rfl, fun x => ?_⟩
  refine (congrArg (Option.bind · Node.cached?) (node?_modifyNode _)).trans ?_
  split
  · rename_i here
    subst here
    rw [found]
    obtain ⟨_, _, role, _⟩ := n
    cases role with
    | definition | use => rfl
    | phi => cases notPhi
  · rfl

theorem forget_agrees (found : g.node? a = some n) :
    ∃ g', g.forget a = .ok g' ∧ g.Agrees g' ∧ g'.config = g.config ∧ g'.order = g.order := by
  rw [forget, node_eq found, ok_bind]
  split
  · exact ⟨g, rfl, .refl, rfl, rfl⟩
  · rename_i old _
    obtain ⟨cachedBy, same⟩ := (g.setCached a none).unindex_frame old a
    rw [same]
    exact ⟨_, rfl, g.setCached_agrees a none cachedBy, rfl, rfl⟩

theorem agrees_of_forget (forgot : g.forget a = .ok g') : g.Agrees g' := by
  obtain ⟨n, read, _⟩ := bind_eq_ok.mp forgot
  obtain ⟨g'', forgot', agrees, _⟩ := forget_agrees (node?_of_node read)
  cases forgot.symm.trans forgot'
  exact agrees

theorem order_of_forget (forgot : g.forget a = .ok g') : g'.order = g.order := by
  obtain ⟨n, read, _⟩ := bind_eq_ok.mp forgot
  obtain ⟨g'', forgot', _, _, order⟩ := forget_agrees (node?_of_node read)
  cases forgot.symm.trans forgot'
  exact order

theorem agrees_forgetNaming (g : Graph) (c : Access) : g.Agrees (g.forgetNaming c) := by
  rw [forgetNaming]
  refine List.foldlRecOn _ _ ⟨rfl, rfl, rfl, rfl, rfl, rfl, rfl, rfl, fun _ => rfl⟩ ?_
  intro g' agrees a _
  split
  · exact agrees.trans (g'.setCached_agrees a none g'.cachedBy)
  · exact agrees

theorem order_forgetNaming (g : Graph) (c : Access) : (g.forgetNaming c).order = g.order := by
  rw [forgetNaming]
  refine List.foldlRecOn (motive := fun kept : Graph => kept.order = g.order) _ _ rfl ?_
  intro g' kept a _
  split <;> exact kept

/-- Nothing but the answers of the accesses in the list goes. -/
theorem getElem?_foldl_forgotten (l : List Access) (nodes : Array (Option Node)) (i : Nat) :
    (l.foldl (fun nodes a => nodes.modify a.index (Option.map Node.forgotten)) nodes)[i]? =
      if ⟨i⟩ ∈ l then nodes[i]?.map (Option.map Node.forgotten) else nodes[i]? := by
  induction l generalizing nodes with
  | nil => simp
  | cons a l ih =>
      rw [List.foldl_cons, ih, Array.getElem?_modify]
      by_cases here : a.index = i
      · subst here
        by_cases again : a ∈ l <;> simp [again, Option.map_map, Function.comp_def]
      · have other : (⟨i⟩ : Access) ≠ a := fun same => here (congrArg Entity.index same).symm
        simp [here, other]

theorem size_foldl_forgotten (l : List Access) (nodes : Array (Option Node)) :
    (l.foldl (fun nodes a => nodes.modify a.index (Option.map Node.forgotten)) nodes).size =
      nodes.size := by
  induction l generalizing nodes with
  | nil => rfl
  | cons a l ih => rw [List.foldl_cons, ih, Array.size_modify]

theorem node?_forgetAll (g : Graph) (x : Access) :
    g.forgetAll.node? x = if x ∈ g.named then (g.node? x).map Node.forgotten else g.node? x := by
  rw [node?, node?]
  refine (congrArg Option.join (getElem?_foldl_forgotten g.named g.nodes x.index)).trans ?_
  split
  · cases g.nodes[x.index]? <;> rfl
  · rfl

theorem size_forgetAll (g : Graph) : g.forgetAll.nodes.size = g.nodes.size :=
  size_foldl_forgotten g.named g.nodes

theorem agrees_forgetAll (g : Graph) : g.Agrees g.forgetAll := by
  refine ⟨rfl, rfl, rfl, rfl, rfl, rfl, rfl, g.size_forgetAll, fun x => ?_⟩
  rw [node?_forgetAll]
  split
  · simp [Option.map_map, Function.comp_def]
  · rfl

end Graph

end MemoryFlow
