import Mathlib.Data.List.Induction
import MemoryFlow.Proofs.Graph.Linking
import MemoryFlow.Proofs.Graph.Order

/-! # Going up from an access

One step up from a definition leads to its defining access, and from a phi to any value that flows
in from a block that can be reached. The stack of a definition or phi lists what dominates it, the
nearest first and memory on entry last: it is what is met on the way up when every phi is left for
what holds where its block is entered.

No step up leaves the stack of what it starts from (`Stack.above`), so a route up to memory on entry
passes everything on the stack.
-/

namespace MemoryFlow

variable {g : Graph} {p : Procedure} {entry b d block : Block} {a c : Access} {n : Node}
  {l l' before after : List Access}

/-- What dominates a dominator of a block is the end of what dominates the block. -/
theorem Tree.Sound.dominators_suffix {flow : FlowGraph} {t : Tree} (h : t.Sound flow entry)
    (reached : Reaches flow.Edge entry b) (dom : Dominates flow.Edge entry d b) :
    d :: t.dominators d <:+ b :: t.dominators b := by
  obtain ⟨id, known⟩ := h.exists_node reached
  induction number : id.index using Nat.strongRecOn generalizing id b with
  | _ n ih =>
      by_cases same : d = b
      · subst same
        exact List.suffix_refl _
      · rcases h.entry_or_idom known with rfl | ⟨above, x, isAbove, hx⟩
        · exact absurd (by simpa using dom _ (.here b)) same
        · have idom := h.nearest id above x b isAbove hx known
          have lower := (h.idom_lt isAbove).1
          rw [h.dominators_idom isAbove hx known]
          exact (ih above.index (by omega) (idom.2.1.reaches reached) (idom.2.2 d same dom) above hx
            rfl).trans (List.suffix_cons b _)

namespace Graph

/-- Whether `b` is one step up from `a`. -/
def Above (g : Graph) (a b : Access) : Prop :=
  ∃ n, g.node? a = some n ∧ (n.isDefinition = true ∧ n.defining? = some b ∨
    ∃ pred, (pred, b) ∈ n.incoming ∧ g.tree.contains pred = true)

/-- What dominates the first place of a block, the nearest first. -/
def stackIn (g : Graph) (b : Block) : List Access :=
  (g.tree.dominators b).flatMap (fun above => (g.definitions above).reverse) ++ [.liveOnEntry]

def stackOut (g : Graph) (b : Block) : List Access :=
  (g.definitions b).reverse ++ g.stackIn b

/-- Lists of accesses that are each left for the next. -/
inductive Stack (g : Graph) : List Access → Prop where
  | entry : Stack g [.liveOnEntry]
  | definition {a b : Access} {l : List Access} {n : Node} : g.node? a = some n →
      n.isDefinition = true → n.defining? = some b → Stack g (b :: l) → Stack g (a :: b :: l)
  | phi {a : Access} {l : List Access} {n : Node} : g.node? a = some n → n.isPhi = true →
      Stack g (g.reachIn n.block :: l) → Stack g (a :: g.reachIn n.block :: l)

theorem stackIn_eq (g : Graph) (b : Block) : ∃ l, g.stackIn b = g.reachIn b :: l := by
  rw [stackIn, reachIn]
  induction g.tree.dominators b with
  | nil => exact ⟨[], rfl⟩
  | cons above rest ih =>
      rw [List.flatMap_cons, List.findSome?_cons, List.append_assoc]
      cases last : (g.definitions above).getLast? with
      | none =>
          rw [List.getLast?_eq_none_iff.mp last]
          exact ih
      | some a =>
          obtain ⟨init, same⟩ := List.getLast?_eq_some_iff.mp last
          rw [same]
          simp

/-- What holds after some accesses of a block is first on the stack there. -/
theorem exists_stack_tail (reached : g.tree.contains b = true) (seen : List Access) :
    ∃ l, (g.defining seen).reverse ++ g.stackIn b = g.holdsAfter b seen :: l := by
  rw [holdsAfter, reached]
  cases last : (g.defining seen).getLast? with
  | none =>
      rw [List.getLast?_eq_none_iff.mp last]
      exact g.stackIn_eq b
  | some a =>
      obtain ⟨init, same⟩ := List.getLast?_eq_some_iff.mp last
      rw [same]
      simp

theorem stackOut_eq (g : Graph) (b : Block) : ∃ l, g.stackOut b = g.reachOut b :: l := by
  rw [stackOut, reachOut]
  cases last : (g.definitions b).getLast? with
  | none =>
      rw [List.getLast?_eq_none_iff.mp last]
      exact g.stackIn_eq b
  | some a =>
      obtain ⟨init, same⟩ := List.getLast?_eq_some_iff.mp last
      rw [same]
      simp

namespace Arranged

variable (h : g.Arranged p entry)
include h

theorem stackIn_entry : g.stackIn entry = [.liveOnEntry] := by
  rw [stackIn, h.tree.dominators_root]
  rfl

theorem stackIn_idom {id above : TreeNode} (isAbove : g.tree.idomOf? id = some above)
    (ha : g.tree.blockOf? above = some d) (hb : g.tree.blockOf? id = some b) :
    g.stackIn b = g.stackOut d := by
  rw [stackIn, h.tree.dominators_idom isAbove ha hb, List.flatMap_cons, List.append_assoc]
  rfl

theorem stackAt_suffix (place : g.accesses b = before ++ after) :
    (g.defining before).reverse ++ g.stackIn b <:+ g.stackOut b := by
  rw [stackOut, h.definitions_eq, place, defining, defining, List.filter_append,
    List.reverse_append, List.append_assoc]
  exact List.suffix_append _ _

theorem stackOut_suffix (reached : Reaches g.flow.Edge entry b)
    (dom : Dominates g.flow.Edge entry d b) : g.stackOut d <:+ g.stackOut b := by
  obtain ⟨front, same⟩ := h.tree.dominators_suffix reached dom
  refine ⟨front.flatMap fun above => (g.definitions above).reverse, ?_⟩
  have joined := congrArg (List.flatMap fun above => (g.definitions above).reverse) same
  simp only [List.flatMap_append, List.flatMap_cons] at joined
  simp only [stackOut, stackIn, ← List.append_assoc, List.append_cancel_right_eq] at joined ⊢
  exact joined

theorem stackOut_suffix_stackIn (reached : Reaches g.flow.Edge entry b) (other : d ≠ b)
    (dom : Dominates g.flow.Edge entry d b) : g.stackOut d <:+ g.stackIn b := by
  obtain ⟨id, known⟩ := h.tree.exists_node reached
  rcases h.tree.entry_or_idom known with rfl | ⟨above, x, isAbove, hx⟩
  · exact absurd (by simpa using dom _ (.here b)) other
  · have idom := h.tree.nearest id above x b isAbove hx known
    rw [h.stackIn_idom isAbove hx known]
    exact h.stackOut_suffix (idom.2.1.reaches reached) (idom.2.2 d other dom)

theorem stackIn_suffix {pred : Block} (reached : Reaches g.flow.Edge entry pred)
    (edge : g.flow.Edge pred b) : g.stackIn b <:+ g.stackOut pred := by
  obtain ⟨id, known⟩ := h.tree.exists_node (reached.step edge)
  rcases h.tree.entry_or_idom known with rfl | ⟨above, x, isAbove, hx⟩
  · rw [h.stackIn_entry, stackOut, stackIn, ← List.append_assoc]
    exact List.suffix_append _ _
  · have idom := h.tree.nearest id above x b isAbove hx known
    rw [h.stackIn_idom isAbove hx known]
    exact h.stackOut_suffix reached (idom.2.1.of_edge edge idom.1)

theorem entry_kind (found : g.node? .liveOnEntry = some n) : n.isPhi = false ∧ n.isUse = false := by
  obtain ⟨m, found', outline⟩ := node?_of_outline? h.entryNode
  obtain rfl := Option.some.inj (found.symm.trans found')
  rw [← n.isPhi_outline, ← n.isUse_outline, outline]
  exact ⟨rfl, rfl⟩

theorem mem_stackOut (reached : Reaches g.flow.Edge entry b) : a ∈ g.stackOut b ↔
    ∃ n, g.node? a = some n ∧ n.isUse = false ∧ Dominates g.flow.Edge entry n.block b := by
  simp only [stackOut, stackIn, List.mem_append, List.mem_reverse, List.mem_flatMap,
    List.mem_singleton]
  constructor
  · rintro (here | ⟨above, listed, inside⟩ | rfl)
    · obtain ⟨_, n, found, rfl, notUse⟩ := h.mem_definitions.mp here
      exact ⟨n, found, notUse, .refl⟩
    · obtain ⟨_, n, found, rfl, notUse⟩ := h.mem_definitions.mp inside
      exact ⟨n, found, notUse, ((h.tree.mem_dominators reached).mp listed).2⟩
    · obtain ⟨n, found, outline⟩ := node?_of_outline? h.entryNode
      refine ⟨n, found, (h.entry_kind found).2, ?_⟩
      rw [← n.block_outline, outline]
      exact .from_root
  · rintro ⟨n, found, notUse, dom⟩
    by_cases isEntry : a = .liveOnEntry
    · exact .inr (.inr isEntry)
    · have inside := h.mem_definitions.mpr ⟨isEntry, n, found, rfl, notUse⟩
      by_cases here : n.block = b
      · exact .inl (here ▸ inside)
      · exact .inr (.inl ⟨n.block, (h.tree.mem_dominators reached).mpr ⟨here, dom⟩, inside⟩)

theorem phi_edge (isPhi : g.phi? b = some a) :
    ∃ pred, Reaches g.flow.Edge entry pred ∧ g.flow.Edge pred b :=
  h.joins b (by rw [isPhi]; rfl)

theorem phi_first (place : g.accesses b = before ++ a :: after) (found : g.node? a = some n)
    (isPhi : n.isPhi = true) : before = [] := by
  obtain ⟨_, m, found', rfl⟩ :=
    h.mem_accesses.mp (place ▸ List.mem_append_right _ List.mem_cons_self)
  obtain rfl := Option.some.inj (found.symm.trans found')
  have known := h.phi?_eq_some.mpr ⟨n, found, isPhi, rfl⟩
  have first : g.accesses n.block = [] ++ a :: (p.layout.insts n.block).filterMap g.access? := by
    rw [h.program, known]
    rfl
  exact (h.place_unique place first).2

theorem reachIn_over (reached : Reaches g.flow.Edge entry n.block) (found : g.node? a = some n)
    (other : a ≠ .liveOnEntry) : g.Over entry (g.reachIn n.block) a := by
  refine ⟨other, ?_⟩
  rw [reachIn]
  cases first : (g.tree.dominators n.block).findSome? fun above =>
    (g.definitions above).getLast? with
  | none => exact .inl rfl
  | some c =>
      obtain ⟨above, member, last⟩ := List.exists_of_findSome?_eq_some first
      obtain ⟨_, m, found', rfl, _⟩ := h.mem_definitions.mp (List.mem_of_getLast? last)
      obtain ⟨apart, dom⟩ := (h.tree.mem_dominators reached).mp member
      exact .inr ⟨m, n, found', found, .inr ⟨apart, reached, dom⟩⟩

theorem holdsAfter_over (place : g.accesses b = before ++ a :: after) :
    g.Over entry (g.holdsAfter b before) a := by
  obtain ⟨other, n, found, rfl⟩ :=
    h.mem_accesses.mp (place ▸ List.mem_append_right _ List.mem_cons_self)
  by_cases reached : g.tree.contains n.block = true
  · have precedes := h.reachIn_over ((h.tree.reaches _).mp reached) found other
    rw [holdsAfter, if_pos reached]
    cases last : (g.defining before).getLast? with
    | none => exact precedes
    | some c =>
        have member : c ∈ before := (List.mem_filter.mp (List.mem_of_getLast? last)).1
        have inside : c ∈ g.accesses n.block := place ▸ List.mem_append_left _ member
        obtain ⟨_, m, found', same⟩ := h.mem_accesses.mp inside
        refine ⟨other, .inr ⟨m, n, found', found, .inl ⟨same, ?_⟩⟩⟩
        have distinct := place ▸ h.nodup_accesses n.block
        have fresh : a ∉ before := fun early => by
          have := (List.nodup_append.mp distinct).2.2 a early a List.mem_cons_self
          exact this rfl
        rw [Option.getD_some, place, List.idxOf_append_of_mem member,
          List.idxOf_append_of_notMem fresh]
        exact Nat.lt_add_right _ (List.idxOf_lt_length_of_mem member)
  · rw [holdsAfter, if_neg reached]
    exact ⟨other, .inl rfl⟩

end Arranged

namespace Wired

variable (h : g.Wired p entry)
include h

/-- The definitions of a block, on top of what dominates the block, are a stack. -/
theorem stack_after (reached : g.tree.contains b = true) (below : g.Stack (g.stackIn b))
    (place : g.accesses b = before ++ after) :
    g.Stack ((g.defining before).reverse ++ g.stackIn b) := by
  induction before using List.reverseRecOn generalizing after with
  | nil => exact below
  | append_singleton before a ih =>
      have place' : g.accesses b = before ++ a :: after := by simpa using place
      have stack := ih place'
      obtain ⟨_, n, found, _⟩ :=
        h.mem_accesses.mp (place' ▸ List.mem_append_right _ List.mem_cons_self)
      cases isUse : n.isUse with
      | true =>
          rwa [defining_use (outline?_eq found) (by simpa using isUse)]
      | false =>
          rw [defining_define (outline?_eq found) (by simpa using isUse), List.reverse_append]
          obtain ⟨l, same⟩ := exists_stack_tail reached before
          change g.Stack (a :: ((g.defining before).reverse ++ g.stackIn b))
          rw [same] at stack ⊢
          cases isPhi : n.isPhi with
          | true =>
              obtain rfl := h.phi_first place' found isPhi
              rw [holdsAfter_nil reached] at stack ⊢
              obtain ⟨_, m, found', rfl⟩ :=
                h.mem_accesses.mp (place' ▸ List.mem_append_right _ List.mem_cons_self)
              obtain rfl := Option.some.inj (found.symm.trans found')
              exact .phi found isPhi stack
          | false =>
              have link := h.defined b before a after n place' found isPhi
              exact .definition found (n.isDefinition_of isUse isPhi) link stack

theorem stack_in (reached : Reaches g.flow.Edge entry b) : g.Stack (g.stackIn b) := by
  obtain ⟨id, known⟩ := h.tree.exists_node reached
  induction number : id.index using Nat.strongRecOn generalizing id b with
  | _ n ih =>
      rcases h.tree.entry_or_idom known with rfl | ⟨above, x, isAbove, hx⟩
      · rw [h.stackIn_entry]
        exact .entry
      · have idom := h.tree.nearest id above x b isAbove hx known
        have lower := (h.tree.idom_lt isAbove).1
        have stack := ih above.index (by omega) (idom.2.1.reaches reached) above hx rfl
        rw [h.stackIn_idom isAbove hx known, stackOut, h.definitions_eq]
        exact h.stack_after (h.tree.contains_of_blockOf? hx) stack (List.append_nil _).symm

theorem stack_holdsAfter (reached : g.tree.contains b = true)
    (place : g.accesses b = before ++ after) :
    g.Stack ((g.defining before).reverse ++ g.stackIn b) :=
  h.stack_after reached (h.stack_in ((h.tree.reaches b).mp reached)) place

theorem stack_out (reached : Reaches g.flow.Edge entry b) : g.Stack (g.stackOut b) := by
  rw [stackOut, h.definitions_eq]
  exact h.stack_holdsAfter ((h.tree.reaches b).mpr reached) (List.append_nil _).symm

theorem exists_stack (found : g.node? a = some n) (notUse : n.isUse = false) :
    ∃ l, g.Stack (a :: l) := by
  by_cases isEntry : a = .liveOnEntry
  · subst isEntry
    exact ⟨[], .entry⟩
  · have member := h.mem_accesses.mpr ⟨isEntry, n, found, rfl⟩
    obtain ⟨before, after, place⟩ := List.append_of_mem member
    by_cases reached : g.tree.contains n.block = true
    · have stack := h.stack_holdsAfter reached (place.trans (List.append_cons before a after))
      rw [defining_define (outline?_eq found) (by simpa using notUse), List.reverse_append] at stack
      exact ⟨_, stack⟩
    · -- In a block that cannot be reached there is no phi, and every access is linked to memory
      -- on entry.
      have isPhi : n.isPhi = false := by
        rw [Bool.eq_false_iff]
        intro isPhi
        have known := h.phi?_eq_some.mpr ⟨n, found, isPhi, rfl⟩
        exact reached ((h.tree.reaches _).mpr (h.reaches_phi known))
      have link := h.defined n.block before a after n place found isPhi
      rw [holdsAfter_unreached (by simpa using reached)] at link
      exact ⟨_, .definition found (n.isDefinition_of notUse isPhi) link .entry⟩

theorem ne_entry_of_link (found : g.node? a = some n) (link : n.defining? = some c) :
    a ≠ .liveOnEntry := by
  rintro rfl
  rw [h.entryLink n found] at link
  cases link

theorem stack_unique (first : g.Stack (a :: l)) (second : g.Stack (a :: l')) : l = l' := by
  generalize whole : a :: l = stacked at first
  induction first generalizing a l l' with
  | entry =>
      cases whole
      cases second with
      | entry => rfl
      | definition found _ link => exact absurd rfl (h.ne_entry_of_link found link)
      | phi found isPhi => rw [(h.entry_kind found).1] at isPhi; cases isPhi
  | definition found isDefinition link _ ih =>
      cases whole
      cases second with
      | entry => exact absurd rfl (h.ne_entry_of_link found link)
      | definition found' _ link' rest =>
          obtain rfl := Option.some.inj (found.symm.trans found')
          obtain rfl := Option.some.inj (link.symm.trans link')
          rw [ih rest rfl]
      | phi found' isPhi => exact (not_phi_of_definition found isDefinition found' isPhi).elim
  | phi found isPhi _ ih =>
      cases whole
      cases second with
      | entry => rw [(h.entry_kind found).1] at isPhi; cases isPhi
      | definition found' isDefinition =>
          exact (not_phi_of_definition found' isDefinition found isPhi).elim
      | phi found' _ rest =>
          obtain rfl := Option.some.inj (found.symm.trans found')
          rw [ih rest rfl]

theorem stack_reachIn (reached : Reaches g.flow.Edge entry b) (stack : g.Stack (g.reachIn b :: l)) :
    g.reachIn b :: l = g.stackIn b := by
  obtain ⟨l', same⟩ := g.stackIn_eq b
  rw [same, h.stack_unique stack (same ▸ h.stack_in reached)]

theorem stack_reachOut (reached : Reaches g.flow.Edge entry b)
    (stack : g.Stack (g.reachOut b :: l)) : g.reachOut b :: l = g.stackOut b := by
  obtain ⟨l', same⟩ := g.stackOut_eq b
  rw [same, h.stack_unique stack (same ▸ h.stack_out reached)]

theorem phi_reached (found : g.node? a = some n) (isPhi : n.isPhi = true) :
    Reaches g.flow.Edge entry n.block :=
  h.reaches_phi (h.phi?_eq_some.mpr ⟨n, found, isPhi, rfl⟩)

/-- What held at the end of a block before flows into the phi. -/
theorem phi_above (found : g.node? a = some n) (isPhi : n.isPhi = true)
    (reached : Reaches g.flow.Edge entry d) (edge : g.flow.Edge d n.block) :
    g.Above a (g.reachOut d) := by
  have contained := (h.tree.reaches d).mpr reached
  exact ⟨n, found, .inr ⟨d, (h.incoming a n d _ found isPhi contained).mpr ⟨edge, rfl⟩, contained⟩⟩

/-- The block before a phi on the way to it, and the value that flows in from there. A way that ends
where it begins has no such block, so nothing may lead back to the entry. -/
theorem phi_pred (first : ∀ b, ¬g.flow.Edge b entry) (found : g.node? a = some n)
    (isPhi : n.isPhi = true) {way : List Block}
    (arrives : Route g.flow.Edge entry n.block (way ++ [n.block])) :
    ∃ pred, Route g.flow.Edge entry pred way ∧ g.flow.Edge pred n.block ∧
      g.Above a (g.reachOut pred) := by
  obtain ⟨_, _, edge⟩ := h.phi_edge (h.phi?_eq_some.mpr ⟨n, found, isPhi, rfl⟩)
  have some_step : way ≠ [] := by
    rintro rfl
    exact first _ (arrives.cons_start ▸ edge)
  obtain ⟨pred, edge, toPred⟩ := arrives.last_step some_step
  exact ⟨pred, toPred, edge, h.phi_above found isPhi ⟨way, toPred⟩ edge⟩

theorem stack_phi (stack : g.Stack (a :: l)) (found : g.node? a = some n) (isPhi : n.isPhi = true) :
    ∃ tail, l = g.reachIn n.block :: tail ∧ g.Stack (g.reachIn n.block :: tail) := by
  cases stack with
  | entry =>
      rw [(h.entry_kind found).1] at isPhi
      cases isPhi
  | definition found' isDefinition =>
      exact (not_phi_of_definition found' isDefinition found isPhi).elim
  | phi found' _ below =>
      obtain rfl := Option.some.inj (found.symm.trans found')
      exact ⟨_, rfl, below⟩

theorem not_above_entry : ¬g.Above .liveOnEntry c := by
  rintro ⟨n, found, ⟨_, link⟩ | ⟨pred, flows, _⟩⟩
  · rw [h.entryLink n found] at link
    cases link
  · rw [n.incoming_of_not_isPhi (h.entry_kind found).1] at flows
    cases flows

theorem over_of_stack (stack : g.Stack (a :: l)) (member : c ∈ l) : g.Over entry c a := by
  have top : ∀ {a c : Access} {n : Node}, g.node? a = some n → a ≠ .liveOnEntry → n.isPhi = false →
      n.defining? = some c → g.Over entry c a := by
    intro a c n found other notPhi link
    obtain ⟨before, after, place⟩ := List.append_of_mem (h.mem_accesses.mpr ⟨other, n, found, rfl⟩)
    rw [h.defined _ _ _ _ _ place found notPhi] at link
    exact Option.some.inj link ▸ h.holdsAfter_over place
  generalize whole : a :: l = stacked at stack
  induction stack generalizing a l with
  | entry => cases whole; cases member
  | @definition a c' l n found isDefinition link rest ih =>
      cases whole
      have first :=
        top found (h.ne_entry_of_link found link) (n.isPhi_of_isDefinition isDefinition) link
      rcases List.mem_cons.mp member with rfl | later
      · exact first
      · exact (ih later rfl).trans first
  | @phi a l n found isPhi rest ih =>
      cases whole
      have other := h.ne_liveOnEntry (outline?_eq found) (.inl (by simpa using isPhi))
      have first := h.reachIn_over (h.phi_reached found isPhi) found other
      rcases List.mem_cons.mp member with rfl | later
      · exact first
      · exact (ih later rfl).trans first

theorem kind_of_stack (stack : g.Stack l) (member : a ∈ l) :
    ∃ n, g.node? a = some n ∧ n.isUse = false := by
  induction stack with
  | entry =>
      obtain rfl := List.mem_singleton.mp member
      obtain ⟨n, found, _⟩ := node?_of_outline? h.entryNode
      exact ⟨n, found, (h.entry_kind found).2⟩
  | @definition _ _ _ n found isDefinition _ _ ih =>
      rcases List.mem_cons.mp member with rfl | later
      · exact ⟨n, found, n.isUse_of_isDefinition isDefinition⟩
      · exact ih later
  | @phi _ _ n found isPhi _ ih =>
      rcases List.mem_cons.mp member with rfl | later
      · exact ⟨n, found, n.isUse_of_isPhi isPhi⟩
      · exact ih later

theorem nodup_stack (stack : g.Stack l) : l.Nodup := by
  induction stack with
  | entry => exact List.nodup_singleton _
  | definition found isDefinition link rest ih =>
      refine List.nodup_cons.mpr ⟨fun member => ?_, ih⟩
      exact (h.over_of_stack (.definition found isDefinition link rest) member).ne rfl
  | phi found isPhi rest ih =>
      refine List.nodup_cons.mpr ⟨fun member => ?_, ih⟩
      exact (h.over_of_stack (.phi found isPhi rest) member).ne rfl

theorem length_stack_le (stack : g.Stack l) : l.length ≤ g.nodes.size := by
  refine Entity.length_le (h.nodup_stack stack) fun a member => ?_
  obtain ⟨n, found, _⟩ := h.kind_of_stack stack member
  exact lt_of_node? found

/-- A step up keeps what is below the top of the stack. -/
theorem stack_above (stack : g.Stack (a :: l)) (up : g.Above a c) :
    ∃ l', g.Stack (c :: l') ∧ l <:+ c :: l' := by
  cases stack with
  | entry => exact absurd up h.not_above_entry
  | @definition _ next l n found isDefinition link rest =>
      obtain ⟨m, found', ⟨_, link'⟩ | ⟨pred, flows, _⟩⟩ := up <;>
        obtain rfl := Option.some.inj (found.symm.trans found')
      · obtain rfl := Option.some.inj (link.symm.trans link')
        exact ⟨l, rest, List.suffix_refl _⟩
      · rw [n.incoming_of_not_isPhi (n.isPhi_of_isDefinition isDefinition)] at flows
        cases flows
  | @phi _ l n found isPhi rest =>
      obtain ⟨m, found', ⟨isDefinition, _⟩ | ⟨pred, flows, reached⟩⟩ := up <;>
        obtain rfl := Option.some.inj (found.symm.trans found')
      · exact (not_phi_of_definition found isDefinition found isPhi).elim
      · obtain ⟨edge, rfl⟩ := (h.incoming a n pred c found isPhi reached).mp flows
        have reached := (h.tree.reaches pred).mp reached
        obtain ⟨tail, same⟩ := g.stackOut_eq pred
        refine ⟨tail, same ▸ h.stack_out reached, ?_⟩
        rw [h.stack_reachIn (reached.step edge) rest, ← same]
        exact h.stackIn_suffix reached edge

end Wired

theorem Stack.suffix {front : List Access} (stack : g.Stack (front ++ a :: l)) :
    g.Stack (a :: l) := by
  induction front with
  | nil => exact stack
  | cons x front ih =>
      refine ih ?_
      rw [List.cons_append] at stack
      generalize rest : front ++ a :: l = tail at stack
      cases stack with
      | entry => simp at rest
      | definition _ _ _ below => exact rest ▸ below
      | phi _ _ below => exact rest ▸ below

/-- Every route up to memory on entry passes all that is on the stack it starts from. -/
theorem Wired.route_passes (h : g.Wired p entry) {route : List Access}
    (up : Route g.Above a .liveOnEntry route) (stack : g.Stack (a :: l)) (member : c ∈ a :: l) :
    c ∈ route := by
  generalize finish : Access.liveOnEntry = last at up
  induction up generalizing l with
  | here =>
      subst finish
      rw [h.stack_unique stack .entry] at member
      exact member
  | step first _ ih =>
      rcases List.mem_cons.mp member with rfl | later
      · exact List.mem_cons_self
      · obtain ⟨l', stack', sub⟩ := h.stack_above stack first
        exact List.mem_cons_of_mem _ (ih stack' (sub.subset later) finish)

end Graph

end MemoryFlow
