import MemoryFlow.Proofs.Clobber.Walker
import MemoryFlow.Proofs.Graph.Check
import MemoryFlow.Proofs.Graph.Replacement

/-! # Removing accesses

When an access goes, what referred to it refers to what was next on the stack: the defining access
of a definition, and for a phi what comes into its block. As the stack at every place loses just the
access, all that remains is linked to what holds before it in the lists that remain.
-/

namespace MemoryFlow.Graph

variable {g g' g₁ : Graph} {p : Procedure} {o : Oracle} {config : Config} {entry b : Block}
  {a r x : Access} {n m : Node} {f : Access → Access} {l seen before after : List Access}

namespace Arranged

variable (h : g.Arranged p entry) (found : g.node? a = some n)
include h found

theorem notMem_accesses (elsewhere : b ≠ n.block) : a ∉ g.accesses b := by
  intro member
  obtain ⟨_, m, found', rfl⟩ := h.mem_accesses.mp member
  obtain rfl := Option.some.inj (found.symm.trans found')
  exact elsewhere rfl

theorem filter_accesses (b : Block) :
    (unlistFrom g.lists n.block a).getD b [] = (g.accesses b).filter (· != a) :=
  getD_unlistFrom_eq g.lists fun elsewhere => h.notMem_accesses found elsewhere

theorem filter_definitions (b : Block) :
    (unlistFrom g.defLists n.block a).getD b [] = (g.definitions b).filter (· != a) := by
  refine getD_unlistFrom_eq g.defLists fun elsewhere member => h.notMem_accesses found elsewhere ?_
  have member : a ∈ g.definitions b := member
  rw [h.definitions] at member
  exact (List.mem_filter.mp member).1

theorem filter_access? (inst : Inst) :
    (n.inst?.elim g.instAccess (withoutEntry g.instAccess · a))[inst]? =
      (g.access? inst).filter (· != a) := by
  have only : ∀ inst, g.access? inst = some a → n.inst? = some inst := by
    intro inst held
    obtain ⟨_, outline, hasInst⟩ := (h.access inst a).mp held
    rw [outline?_eq found] at outline
    rwa [← Option.some.inj outline, n.inst?_outline] at hasInst
  cases hasInst : n.inst? with
  | none =>
      refine (filter_ne fun held => ?_).symm
      rw [only inst held] at hasInst
      cases hasInst
  | some key =>
      exact getElem?_withoutEntry (fun inst held =>
        Option.some.inj ((only inst held).symm.trans hasInst)) inst

theorem filter_phi? (b : Block) :
    (n.inst?.elim (withoutEntry g.blockPhi n.block a) fun _ => g.blockPhi)[b]? =
      (g.phi? b).filter (· != a) := by
  have only : ∀ b, g.phi? b = some a → n.isPhi = true ∧ n.block = b := by
    intro b held
    obtain ⟨m, found', isPhi, block⟩ := h.phi?_eq_some.mp held
    obtain rfl := Option.some.inj (found.symm.trans found')
    exact ⟨isPhi, block⟩
  cases hasInst : n.inst? with
  | none => exact getElem?_withoutEntry (fun b held => (only b held).2.symm) b
  | some inst =>
      refine (filter_ne fun held => ?_).symm
      rw [n.isPhi_of_inst? hasInst] at only
      cases (only b held).1

end Arranged

/-- Whether a graph is what is left of another one without an access, the operands of the others
renamed. -/
structure Without (g : Graph) (a : Access) (f : Access → Access) (g' : Graph) : Prop where
  flow : g'.flow = g.flow
  tree : g'.tree = g.tree
  accesses : ∀ b, g'.accesses b = (g.accesses b).filter (· != a)
  definitions : ∀ b, g'.definitions b = (g.definitions b).filter (· != a)
  access? : ∀ inst, g'.access? inst = (g.access? inst).filter (· != a)
  phi? : ∀ b, g'.phi? b = (g.phi? b).filter (· != a)
  core : ∀ x, g'.core? x = if x = a then none else (g.core? x).map (·.mapOperands f)
  settled : g.Places g.order → g'.Places g'.order

namespace Without

variable (without : g.Without a f g')
include without

theorem outline? (x : Access) : g'.outline? x = if x = a then none else g.outline? x := by
  have outline : ∀ (g : Graph) x, (g.core? x).map Node.outline = g.outline? x := by
    intro g x
    rw [core?, Option.map_map, Graph.outline?]
    congr 1
    funext n
    obtain ⟨_, _, role, _⟩ := n
    cases role <;> rfl
  rw [← outline, without.core]
  split
  · rfl
  · rw [Option.map_map, ← outline]
    simp only [Function.comp_def, Node.outline_mapOperands]

theorem read (found : g'.node? x = some m) :
    x ≠ a ∧ ∃ n, g.node? x = some n ∧ (n.mapOperands f).Alike m := by
  have here := without.core x
  rw [core?_eq found] at here
  split at here
  · cases here
  · rename_i other
    obtain ⟨c, found', same⟩ := Option.map_eq_some_iff.mp here.symm
    obtain ⟨n, found'', rfl⟩ := Option.map_eq_some_iff.mp found'
    exact ⟨other, n, found'', .of_core (by rw [Node.core_mapOperands, same])⟩

theorem arranged (h : g.Arranged p entry) (other : a ≠ .liveOnEntry) : g'.Arranged p entry := by
  have outline := without.outline?
  refine ⟨h.orderly, without.flow.trans h.flow, ?_, ?_, ?_, ?_, ?_, ?_, ?_, ?_, ?_⟩
  · rw [without.tree, without.flow]
    exact h.tree
  · rw [outline, if_neg other.symm]
    exact h.entryNode
  · intro b
    rw [without.accesses, h.program, List.filter_append, List.filter_filterMap, without.phi?,
      funext without.access?]
    cases g.phi? b with
    | none => rfl
    | some phi => by_cases gone : phi = a <;> simp [Option.filter_some, gone]
  · intro b
    rw [without.definitions, without.accesses, h.definitions, List.filter_filter,
      List.filter_filter]
    refine List.filter_congr fun x _ => ?_
    rw [outline, Bool.and_comm]
    by_cases gone : x = a <;> simp [gone]
  · intro inst x
    rw [without.access?, Option.filter_eq_some_iff, h.access, outline]
    by_cases gone : x = a <;> simp [gone]
  · intro b x
    rw [without.phi?, Option.filter_eq_some_iff, h.phi, outline]
    by_cases gone : x = a <;> simp [gone]
  · intro x n inst found
    rw [outline] at found
    split at found
    · cases found
    · exact h.placed x n inst found
  · intro x n found
    rw [outline] at found
    split at found
    · cases found
    · exact h.only x n found
  · intro b some
    rw [without.flow]
    refine h.joins b ?_
    rw [without.phi?] at some
    cases known : g.phi? b with
    | none =>
        rw [known] at some
        cases some
    | some phi => rfl

end Without

theorem discard_total (exact : g.Exact) (found : g.node? a = some n) (other : a ≠ .liveOnEntry)
    (unused : n.users = []) : ∃ g', g.discard a = .ok g' := by
  have unlisted' : g.unlist a = .ok (g.unlisted a n.block) := by
    rw [unlist, node_eq found]
    rfl
  obtain ⟨dropped, ran, kept⟩ := foldlM_total n.operands (·.removeUser · a)
    (g.unlisted a n.block)
    (fun _ dropped => ∀ x m, g.node? x = some m → ∃ m', dropped.node? x = some m')
    (fun x m found => ⟨m, found⟩) (by
      intro seen d rest dropped whole kept
      obtain ⟨m, live, _⟩ :=
        exact.operand (d := d) (u := a) (by rw [operandsOf_eq found, whole]; simp)
      obtain ⟨m', live'⟩ := kept d m live
      refine ⟨_, by rw [removeUser, node_eq live']; rfl, fun x m found => ?_⟩
      obtain ⟨m', found'⟩ := kept x m found
      exact exists_node?_modifyNode found' _)
  obtain ⟨n', found'⟩ := kept a n found
  obtain ⟨forgot, ran', _⟩ := forget_agrees found'
  rw [discard, if_neg other, node_eq found, ok_bind]
  simp only [unused, List.isEmpty_nil, Bool.not_true, unlisted', ok_bind, ran, ran']
  exact ⟨_, rfl⟩

theorem Recast.discard (recast : g.Recast (fun _ n => n.mapOperands f) g₁) (h : g.Arranged p entry)
    (exact : g₁.Exact) (found : g₁.node? a = some n) (other : a ≠ .liveOnEntry)
    (unused : n.users = []) : ∃ g', g₁.discard a = .ok g' ∧ g.Without a f g' := by
  obtain ⟨g', ran⟩ := discard_total exact found other unused
  refine ⟨g', ran, ?_⟩
  obtain ⟨n', nodes, kept, found', _, _, node?_eq, forgot, cleared⟩ := discard_ok ran
  obtain ⟨agrees, order⟩ := agrees_of_forget_clear (n := n') forgot
  rw [← cleared] at agrees order
  cases found.symm.trans found'
  obtain ⟨n₀, found₀, same⟩ : ∃ n₀, g.node? a = some n₀ ∧ n.core = n₀.core.mapOperands f := by
    have core := recast.core a
    rw [core?_eq found] at core
    obtain ⟨c, known, same⟩ := Option.map_eq_some_iff.mp core.symm
    obtain ⟨n₀, found₀, rfl⟩ := Option.map_eq_some_iff.mp known
    exact ⟨n₀, found₀, same.symm⟩
  have alike : (n₀.mapOperands f).Alike n := .of_core (by rw [same, Node.core_mapOperands])
  have block : n.block = n₀.block := alike.block
  have inst? : n.inst? = n₀.inst? := alike.inst?.trans Node.inst?_mapOperands
  have core : ∀ x, g'.core? x = if x = a then none else (g.core? x).map (·.mapOperands f) := by
    intro x
    have left := congrArg (Option.map Node.bare) (agrees.nodes x)
    rw [Option.map_map, Option.map_map, node?_clear] at left
    refine left.trans ?_
    split
    · rfl
    · rw [← recast.core]
      refine (congrArg (Option.map _) (node?_eq x)).trans ?_
      rw [Option.map_map, core?]
      congr 1
      funext m
      exact m.core_mapUsers _
  rw [clear_eq] at agrees
  have accesses : ∀ b, g'.accesses b = (g.accesses b).filter (· != a) := by
    intro b
    rw [← h.filter_accesses found₀, ← block, ← recast.lists, Graph.accesses, agrees.lists]
    rfl
  refine ⟨agrees.flow.trans recast.flow, agrees.tree.trans recast.tree, accesses,
    ?_, ?_, ?_, core, ?_⟩
  · intro b
    rw [← h.filter_definitions found₀, ← block, ← recast.defLists, Graph.definitions,
      agrees.defLists]
    rfl
  · intro inst
    rw [← h.filter_access? found₀, ← inst?, ← recast.instAccess, Graph.access?, agrees.instAccess]
    rfl
  · intro b
    rw [← h.filter_phi? found₀, ← inst?, ← block, ← recast.blockPhi, Graph.phi?, agrees.blockPhi]
    rfl
  · intro right b x settled member
    rw [accesses] at member ⊢
    obtain ⟨member, apart⟩ := List.mem_filter.mp member
    rw [order, unlisted, recast.order] at settled ⊢
    obtain ⟨elsewhere, settled⟩ : b ≠ n.block ∧ g.order.settled.contains b = true := by
      rw [LocalOrder.unsettle, Std.TreeSet.contains_erase, Bool.and_eq_true] at settled
      refine ⟨?_, settled.2⟩
      rintro rfl
      simp at settled
    have same := h.filter_accesses found₀ b
    rw [getD_unlistFrom, if_neg (block ▸ elsewhere)] at same
    rw [← same]
    refine Eq.trans ?_ (right b x settled member)
    change (g.order.places.erase a)[x]? = _
    rw [Std.TreeMap.getElem?_erase, if_neg]
    rw [Std.compare_eq_iff_eq]
    exact Ne.symm (bne_iff_ne.mp apart)

def next (g : Graph) (n : Node) : Access :=
  if n.isPhi then g.reachIn n.block else n.defining?.getD .liveOnEntry

theorem Stack.eq_next (stack : g.Stack (a :: l)) (found : g.node? a = some n)
    (other : a ≠ .liveOnEntry) : ∃ tail, l = g.next n :: tail ∧ g.Stack (g.next n :: tail) := by
  cases stack with
  | entry => exact absurd rfl other
  | definition found' isDefinition link below =>
      obtain rfl := Option.some.inj (found.symm.trans found')
      rw [Graph.next, n.isPhi_of_isDefinition isDefinition, link]
      exact ⟨_, rfl, below⟩
  | phi found' isPhi below =>
      obtain rfl := Option.some.inj (found.symm.trans found')
      rw [Graph.next, isPhi]
      exact ⟨_, rfl, below⟩

namespace Without

theorem defining (without : g.Without a f g') (seen : List Access) :
    g'.defining (seen.filter (· != a)) = (g.defining seen).filter (· != a) := by
  rw [Graph.defining, Graph.defining, List.filter_filter, List.filter_filter]
  refine List.filter_congr fun x _ => ?_
  rw [without.outline?, Bool.and_comm]
  by_cases gone : x = a <;> simp [gone]

theorem stackIn (without : g.Without a f g') (other : a ≠ .liveOnEntry) (b : Block) :
    g'.stackIn b = (g.stackIn b).filter (· != a) := by
  rw [Graph.stackIn, Graph.stackIn, without.tree, List.filter_append, List.filter_flatMap]
  simp [without.definitions, List.filter_reverse, other.symm]

/-- At every place the stack loses the access, so what is next takes its place on top. -/
theorem holdsAfter (h : g.Wired p entry) (found : g.node? a = some n) (other : a ≠ .liveOnEntry)
    (without : g.Without a f g') (place : g.accesses b = before ++ after) :
    g'.holdsAfter b (before.filter (· != a)) =
      Access.swap a (g.next n) (g.holdsAfter b before) := by
  by_cases reached : g.tree.contains b = true
  · obtain ⟨l, same⟩ := exists_stack_tail reached before
    obtain ⟨l', same'⟩ := exists_stack_tail (g := g') (by rw [without.tree, reached])
      (before.filter (· != a))
    have stack := h.stack_holdsAfter reached place
    rw [without.defining, without.stackIn other, ← List.filter_reverse, ← List.filter_append, same]
      at same'
    rw [same] at stack
    have distinct := h.nodup_stack stack
    by_cases top : g.holdsAfter b before = a
    · rw [top] at same' stack distinct
      obtain ⟨tail, rfl, _⟩ := stack.eq_next found other
      have apart : g.next n ≠ a := by
        rintro same
        simp [same] at distinct
      rw [List.filter_cons_of_neg (by simp), List.filter_cons_of_pos (by simpa using apart)]
        at same'
      rw [top, Access.swap, if_pos rfl]
      exact (List.cons.inj same').1.symm
    · rw [List.filter_cons_of_pos (by simpa using top)] at same'
      rw [Access.swap, if_neg top]
      exact (List.cons.inj same').1.symm
  · have missed : g.tree.contains b = false := by simpa using reached
    rw [holdsAfter_unreached missed, holdsAfter_unreached (without.tree ▸ missed), Access.swap,
      if_neg other.symm]

theorem wired (h : g.Wired p entry) (found : g.node? a = some n) (other : a ≠ .liveOnEntry)
    (without : g.Without a (Access.swap a (g.next n)) g') : g'.Wired p entry := by
  refine { without.arranged h.toArranged other with
    entryLink := ?_, defined := ?_, flows := ?_, once := ?_ }
  · intro m found'
    obtain ⟨_, k, foundK, alike⟩ := without.read found'
    rw [alike.defining?, Node.defining?_mapOperands, h.entryLink k foundK]
    rfl
  · intro b before x after m place found' notPhi
    obtain ⟨_, k, foundK, alike⟩ := without.read found'
    rw [without.accesses, List.filter_eq_append_iff] at place
    obtain ⟨front, back, whole, rfl, rest⟩ := place
    obtain ⟨skipped, back, rfl, gone, _, rfl⟩ := List.filter_eq_cons_iff.mp rest
    have place : g.accesses b = (front ++ skipped) ++ x :: back := by simpa using whole
    have notPhi' : k.isPhi = false := by rw [← notPhi, alike.isPhi, Node.isPhi_mapOperands]
    have filtered : front.filter (· != a) = (front ++ skipped).filter (· != a) := by
      rw [List.filter_append, List.filter_eq_nil_iff.mpr gone, List.append_nil]
    rw [alike.defining?, Node.defining?_mapOperands,
      h.defined b _ x _ k place foundK notPhi', filtered,
      without.holdsAfter h found other place]
    rfl
  · intro phi m pred value found' isPhi
    obtain ⟨_, k, foundK, alike⟩ := without.read found'
    have isPhi' : k.isPhi = true := by rw [← isPhi, alike.isPhi, Node.isPhi_mapOperands]
    have arrives := without.holdsAfter h found other (List.append_nil (g.accesses pred)).symm
    rw [alike.incoming, Node.incoming_mapOperands, alike.block, without.flow,
      without.accesses, arrives, List.mem_map]
    constructor
    · rintro ⟨⟨pred', v⟩, member, same⟩
      obtain ⟨edge, rfl⟩ := (h.flows phi k pred' v foundK isPhi').mp member
      cases same
      exact ⟨edge, rfl⟩
    · rintro ⟨edge, rfl⟩
      exact ⟨(pred, _), (h.flows phi k pred _ foundK isPhi').mpr ⟨edge, rfl⟩, rfl⟩
  · intro phi m found'
    obtain ⟨_, k, foundK, alike⟩ := without.read found'
    rw [alike.incoming, Node.incoming_mapOperands, List.map_map]
    exact h.once phi k foundK

end Without

/-- A value that flows into a phi along all edges is what comes into the block of the phi. -/
theorem Wired.unique_incoming (h : g.Wired p entry) (first : ∀ b, ¬g.flow.Edge b entry)
    (found : g.node? a = some n) (isPhi : n.isPhi = true) (unique : n.uniqueIncoming? = some r) :
    g.reachIn n.block = r := by
  have all : ∀ pred value, (pred, value) ∈ n.incoming → value = r := by
    rw [Node.uniqueIncoming?] at unique
    split at unique
    · cases unique
    · rename_i first rest same
      split at unique
      · rename_i equal
        cases unique
        simp only [List.all_eq_true, beq_iff_eq] at equal
        intro pred value member
        rw [same] at member
        rcases List.mem_cons.mp member with here | later
        · exact congrArg Prod.snd here
        · exact equal _ later
      · cases unique
  have arrives : ∀ pred, Reaches g.flow.Edge entry pred → g.flow.Edge pred n.block →
      g.reachOut pred = r := by
    intro pred reached edge
    refine all pred _
      ((h.incoming a n pred _ found isPhi ((h.tree.reaches pred).mpr reached)).mpr ⟨edge, rfl⟩)
  obtain ⟨pred, reached, edge⟩ := h.phi_edge (h.phi?_eq_some.mpr ⟨n, found, isPhi, rfl⟩)
  obtain ⟨l, stack⟩ := g.stackOut_eq pred
  rw [arrives pred reached edge] at stack
  obtain ⟨m, foundR, notUse, _⟩ := (h.mem_stackOut reached).mp (stack ▸ List.mem_cons_self)
  -- On every way to the phi the block of the value is passed before the phi's own.
  have passed : ∀ way, Route g.flow.Edge entry n.block (way ++ [n.block]) → m.block ∈ way := by
    intro way route
    obtain ⟨pred, toPred, edge, _⟩ := h.phi_pred first found isPhi route
    obtain ⟨_, top⟩ := g.stackOut_eq pred
    rw [arrives pred ⟨way, toPred⟩ edge] at top
    obtain ⟨m', foundR', _, dom⟩ := (h.mem_stackOut ⟨way, toPred⟩).mp (top ▸ List.mem_cons_self)
    obtain rfl := Option.some.inj (foundR.symm.trans foundR')
    exact dom way toPred
  have reachedPhi := h.phi_reached found isPhi
  have apart : m.block ≠ n.block := by
    intro same
    obtain ⟨way, route, missed⟩ := Dominates.exists_way (a := n.block) reachedPhi fun _ => rfl
    exact missed (same ▸ passed way route)
  have dom : Dominates g.flow.Edge entry m.block n.block := by
    intro way route
    obtain ⟨init, rfl⟩ := route.ends
    exact List.mem_append_left _ (passed init route)
  have member : r ∈ g.stackIn n.block := by
    refine (h.stackOut_suffix_stackIn reachedPhi apart dom).subset ?_
    exact (h.mem_stackOut (dom.reaches reachedPhi)).mpr ⟨m, foundR, notUse, .refl⟩
  obtain ⟨tail, top⟩ := g.stackIn_eq n.block
  rcases List.suffix_cons_iff.mp (stack ▸ h.stackIn_suffix reached edge) with same | below
  · exact (List.cons.inj (top.symm.trans same)).1
  · have distinct := h.nodup_stack (stack ▸ h.stack_out reached)
    exact absurd (below.subset member) (List.nodup_cons.mp distinct).1

/-- Whether an access can be removed. A phi that is referred to must merge one value only. -/
def Removable (g : Graph) (a : Access) : Prop :=
  a ≠ .liveOnEntry ∧ ∃ n, g.node? a = some n ∧
    (n.isPhi = true → n.users = [] ∨ n.uniqueIncoming?.isSome = true)

theorem removable_of_remove (ran : g.remove a = .ok g') : g.Removable a := by
  rw [remove] at ran
  split at ran
  · cases ran
  rename_i other
  obtain ⟨n, read, ran⟩ := bind_eq_ok.mp ran
  refine ⟨other, n, node?_of_node read, fun isPhi => ?_⟩
  dsimp only at ran
  split at ran
  · rename_i unused
    exact .inl (List.isEmpty_iff.mp unused)
  · split at ran
    · cases ran
    · rename_i unique
      exact .inr (Option.isSome_of_eq_some unique)

namespace Wired

variable (h : g.Wired p entry) (first : ∀ b, ¬g.flow.Edge b entry)
include h first

theorem replacement (exact : g.Exact) (found : g.node? a = some n) (other : a ≠ .liveOnEntry)
    (used : n.users ≠ []) (unique : n.isPhi = true → n.uniqueIncoming?.isSome = true) :
    (if n.isPhi then n.uniqueIncoming? else n.defining?) = some (g.next n) ∧ a ≠ g.next n ∧
      ∃ m, g.node? (g.next n) = some m ∧ m.isUse = false := by
  have notUse : n.isUse = false := by
    by_contra isUse
    exact used (exact.unused a n found (by simpa using isUse))
  obtain ⟨l, stack⟩ := h.exists_stack found notUse
  obtain ⟨tail, rfl, below⟩ := stack.eq_next found other
  refine ⟨?_, ?_, h.kind_of_stack below List.mem_cons_self⟩
  · cases isPhi : n.isPhi with
    | true =>
        obtain ⟨r, same⟩ := Option.isSome_iff_exists.mp (unique isPhi)
        rw [next, if_pos isPhi, h.unique_incoming first found isPhi same]
        exact same
    | false =>
        obtain ⟨before, after, place⟩ :=
          List.append_of_mem (h.mem_accesses.mpr ⟨other, n, found, rfl⟩)
        have link := h.defined _ _ _ _ _ place found isPhi
        simp [next, isPhi, link]
  · intro same
    have distinct := h.nodup_stack stack
    simp [← same] at distinct

/-- Removing an access leaves the graph without it, and what referred to it refers to what was next
on the stack. -/
theorem remove (exact : g.Exact) (removable : g.Removable a) :
    ∃ n g', g.node? a = some n ∧ g.remove a = .ok g' ∧
      g.Without a (Access.swap a (g.next n)) g' := by
  obtain ⟨other, n, found, phi⟩ := removable
  refine ⟨n, ?_⟩
  rw [Graph.remove, if_neg other, node_eq found, ok_bind]
  by_cases unused : n.users = []
  · have recast : g.Recast (fun _ k => k.mapOperands (Access.swap a (g.next n))) g := by
      refine Recast.refl.congr fun x k foundK => (Node.mapOperands_swap fun refers => ?_).symm
      rw [k.operands_core, ← operandsOf_eq foundK, ← exact.mem_users, usersOf_eq found, unused]
        at refers
      cases refers
    obtain ⟨g', ran, without⟩ := recast.discard h.toArranged exact found other unused
    refine ⟨g', found, ?_, without⟩
    simp only [unused, List.isEmpty_nil, if_true, ran]
  · obtain ⟨replacement, apart, m, live, notUse⟩ :=
      h.replacement first exact found other unused fun isPhi => (phi isPhi).resolve_left unused
    obtain ⟨g₁, ran, exact₁, recast⟩ := replaceAll_recast exact found live notUse apart
    obtain ⟨n₁, found₁, core₁⟩ := recast.read found
    have unused₁ : n₁.users = [] := by
      refine List.eq_nil_iff_forall_not_mem.mpr fun u uses => ?_
      obtain ⟨k₁, foundK₁, refers⟩ := exact₁.user (usersOf_eq found₁ ▸ uses)
      have core := recast.core u
      rw [core?_eq foundK₁] at core
      obtain ⟨c, _, same⟩ := Option.map_eq_some_iff.mp core.symm
      rw [← k₁.operands_core, ← same, Node.operands_mapOperands] at refers
      obtain ⟨v, _, renamed⟩ := List.mem_map.mp refers
      rw [Access.swap] at renamed
      split at renamed
      · exact apart renamed.symm
      · contradiction
    obtain ⟨g', ran', without⟩ := recast.discard h.toArranged exact₁ found₁ other unused₁
    refine ⟨g', found, ?_, without⟩
    simp only [List.isEmpty_iff, unused, replacement, ran, ok_bind, ran']
    rfl

end Wired

/-- A linked graph whose references are exact and whose settled places are right. -/
structure Intact (p : Procedure) (entry : Block) (g : Graph) : Prop extends g.Wired p entry where
  first : ∀ b, ¬g.flow.Edge b entry
  exact : g.Exact
  settled : g.Places g.order

theorem Intact.remove (h : g.Intact p entry) (ran : g.remove a = .ok g') :
    g'.Intact p entry ∧ ∀ b, g'.accesses b = (g.accesses b).filter (· != a) := by
  have removable := removable_of_remove ran
  obtain ⟨n, g'', found, ran', without⟩ := h.toWired.remove h.first h.exact removable
  obtain rfl := Except.ok.inj (ran.symm.trans ran')
  exact ⟨⟨without.wired h.toWired found removable.1, without.flow ▸ h.first,
    Exact.keptByEditing.remove h.exact ran, without.settled h.settled⟩, without.accesses⟩

theorem Intact.removeAll {removed : List Access} (h : g.Intact p entry)
    (ran : removed.foldlM Graph.remove g = .ok g') :
    g'.Intact p entry ∧ ∀ b, g'.accesses b = (g.accesses b).filter (· ∉ removed) := by
  induction removed generalizing g with
  | nil =>
      cases ran
      exact ⟨h, fun b => by simp⟩
  | cons a removed ih =>
      rw [List.foldlM_cons] at ran
      obtain ⟨g₁, first, ran⟩ := bind_eq_ok.mp ran
      obtain ⟨h₁, accesses₁⟩ := h.remove first
      obtain ⟨h', accesses'⟩ := ih h₁ ran
      refine ⟨h', fun b => ?_⟩
      rw [accesses', accesses₁, List.filter_filter]
      refine List.filter_congr fun x _ => ?_
      by_cases gone : x = a <;> simp [gone]

/-- However many accesses are removed from a built graph, just these are gone, the graph passes the
check, and what remains carries what holds where it stands. Every other access but a phi that merges
values for others can be removed next. -/
theorem removals_keep_reaching {removed : List Access} (accepted : p.Accepted)
    (built : build p o config = .ok g) (ran : removed.foldlM Graph.remove g = .ok g') :
    ∃ entry, p.entry = some entry ∧ (∀ b, g'.accesses b = (g.accesses b).filter (· ∉ removed)) ∧
      g'.Valid p entry ∧ (∃ g'', g'.ask (g'.check? p) = .ok (none, g'')) ∧ g'.Carries entry ∧
      ∀ a, (∃ g'', g'.remove a = .ok g'') ↔ g'.Removable a := by
  obtain ⟨entry, first, h⟩ := build_built accepted.distinct built
  have start : g.Intact p entry :=
    ⟨h.toWired, (h.linked accepted first).first, build_exact built,
      build_places accepted.distinct built⟩
  obtain ⟨h', accesses⟩ := start.removeAll ran
  have valid := h'.valid h'.exact
  obtain ⟨order, checked, _⟩ := (valid.check_yields h'.toArranged).ask h'.settled
  refine ⟨entry, first, accesses, valid, ⟨_, checked⟩, h'.carries, fun a => ?_⟩
  exact ⟨fun ⟨_, ran⟩ => removable_of_remove ran, fun removable =>
    have ⟨_, g'', _, ran, _⟩ := h'.toWired.remove h'.first h'.exact removable
    ⟨g'', ran⟩⟩

open Walker in
theorem removals_keep_reaching_samples :
    (∃ g g', build storeBeforeLoop byAddress {} = .ok g ∧
      [⟨2⟩, ⟨1⟩].foldlM Graph.remove g = .ok g' ∧
      g'.node? ⟨4⟩ = some ⟨3, ⟨1⟩, .phi [(⟨0⟩, .liveOnEntry), (⟨2⟩, ⟨4⟩)], [⟨3⟩, ⟨4⟩]⟩ ∧
      g'.Valid storeBeforeLoop ⟨0⟩ ∧ g'.Carries ⟨0⟩ ∧ ¬∃ g'', g'.remove ⟨4⟩ = .ok g'') ∧
    ∃ g g', build deadJoin .byObject {} = .ok g ∧ [⟨1⟩, ⟨4⟩].foldlM Graph.remove g = .ok g' ∧
      g'.node? ⟨2⟩ = some ⟨0, ⟨3⟩, .use ⟨4⟩ { defining := some .liveOnEntry }, []⟩ ∧
      g'.Valid deadJoin ⟨0⟩ ∧ g'.Carries ⟨0⟩ := by
  constructor
  · obtain ⟨g, built, edited⟩ := exists_of_any (x := build storeBeforeLoop byAddress {})
      (P := fun g => ([⟨2⟩, ⟨1⟩].foldlM Graph.remove g).toOption.any fun g' => g'.node? ⟨4⟩ ==
        some ⟨3, ⟨1⟩, .phi [(⟨0⟩, .liveOnEntry), (⟨2⟩, ⟨4⟩)], [⟨3⟩, ⟨4⟩]⟩) (by decide +kernel)
    obtain ⟨g', ran, phi⟩ := exists_of_any edited
    have found := eq_of_beq phi
    obtain ⟨entry, first, _, valid, _, carries, removable⟩ :=
      removals_keep_reaching storeBeforeLoop_accepted built ran
    obtain rfl : ⟨0⟩ = entry := Option.some.inj first
    refine ⟨g, g', built, ran, found, valid, carries, fun removed => ?_⟩
    obtain ⟨_, n, found', merges⟩ := (removable ⟨4⟩).mp removed
    obtain rfl := Option.some.inj (found.symm.trans found')
    exact absurd (merges rfl) (by decide)
  · obtain ⟨g, built, edited⟩ := exists_of_any (x := build deadJoin .byObject {})
      (P := fun g => ([⟨1⟩, ⟨4⟩].foldlM Graph.remove g).toOption.any fun g' => g'.node? ⟨2⟩ ==
        some ⟨0, ⟨3⟩, .use ⟨4⟩ { defining := some .liveOnEntry }, []⟩) (by decide +kernel)
    obtain ⟨g', ran, load⟩ := exists_of_any edited
    obtain ⟨entry, first, _, valid, _, carries, _⟩ :=
      removals_keep_reaching deadJoin_accepted built ran
    obtain rfl : ⟨0⟩ = entry := Option.some.inj first
    exact ⟨g, g', built, ran, eq_of_beq load, valid, carries⟩

end MemoryFlow.Graph
