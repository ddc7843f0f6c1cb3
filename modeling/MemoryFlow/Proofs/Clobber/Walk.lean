import MemoryFlow.Clobber.Search
import MemoryFlow.Proofs.Graph.Stack

/-! # Walks up a chain

A walk goes down the stack of the access it starts from, past the definitions that do not clobber
the query, to a phi, a clobber or the target. `IsClobber` says which access on a stack is the answer
to a query: the first that is not passed over. A definition is passed over if it does not clobber
the query, and a phi if no route up from it meets a clobber before it comes to the phi's target.
-/

namespace MemoryFlow

/-- Whether the oracle tells of every instruction if it clobbers the query. -/
def Oracle.Answers (o : Oracle) (p : Procedure) (q : Query) : Prop :=
  ∀ inst ∈ p.layout.allInsts, ∃ b, (p.op inst >>= fun op => o.opClobbers p inst op q) = .ok b

instance (o : Oracle) (p : Procedure) (q : Query) : Decidable (o.Answers p q) :=
  inferInstanceAs (Decidable (∀ _ ∈ _, _))

namespace Graph

variable (g : Graph) (p : Procedure) (o : Oracle) (q : Query)

def Kills (a : Access) : Prop :=
  ∃ n, g.node? a = some n ∧ n.isDefinition = true ∧ g.clobbers p o a q = .ok true

def Silent (a : Access) : Prop :=
  ∃ n, g.node? a = some n ∧ n.isDefinition = true ∧ g.clobbers p o a q = .ok false

/-- Whether no route up from `a` meets a clobber before it comes to `target`. -/
def CleanTo (target a : Access) : Prop :=
  ∀ c route, Route g.Above a c route → target ∉ route → ¬g.Kills p o q c

def Passable (a : Access) : Prop :=
  g.Silent p o q a ∨
    ∃ n, g.node? a = some n ∧ n.isPhi = true ∧ g.CleanTo p o q (g.reachIn n.block) a

/-- Whether all that comes before `c` on a stack is passed over. -/
def PassesTo (stack : List Access) (c : Access) : Prop :=
  ∃ before after, stack = before ++ c :: after ∧ ∀ a ∈ before, g.Passable p o q a

/-- Whether `c` is the first on a stack that is not passed over. -/
def IsClobber (stack : List Access) (c : Access) : Prop :=
  ∃ before after, stack = before ++ c :: after ∧ (∀ a ∈ before, g.Passable p o q a) ∧
    ¬g.Passable p o q c

variable {g p o q} {entry b : Block} {a c x target phi : Access} {n : Node}
  {l before after route : List Access}

theorem IsClobber.passesTo (clobber : g.IsClobber p o q l c) : g.PassesTo p o q l c := by
  obtain ⟨before, after, whole, passable, _⟩ := clobber
  exact ⟨before, after, whole, passable⟩

theorem Silent.not_kills (silent : g.Silent p o q a) : ¬g.Kills p o q a := by
  rintro ⟨_, _, _, yes⟩
  obtain ⟨_, _, _, no⟩ := silent
  exact absurd (yes.symm.trans no) (by simp)

theorem not_kills_of_isPhi (found : g.node? a = some n) (isPhi : n.isPhi = true) :
    ¬g.Kills p o q a := by
  rintro ⟨m, found', isDefinition, _⟩
  exact not_phi_of_definition found' isDefinition found isPhi

theorem Kills.not_passable (kills : g.Kills p o q a) : ¬g.Passable p o q a := by
  rintro (silent | ⟨n, found, isPhi, _⟩)
  · exact silent.not_kills kills
  · exact not_kills_of_isPhi found isPhi kills

theorem above_definition (found : g.node? a = some n) (isDefinition : n.isDefinition = true)
    (link : n.defining? = some x) : g.Above a c ↔ c = x := by
  constructor
  · rintro ⟨m, found', ⟨_, link'⟩ | ⟨pred, flows, _⟩⟩ <;>
      obtain rfl := Option.some.inj (found.symm.trans found')
    · exact Option.some.inj (link'.symm.trans link)
    · rw [n.incoming_of_not_isPhi (n.isPhi_of_isDefinition isDefinition)] at flows
      cases flows
  · rintro rfl
    exact ⟨n, found, .inl ⟨isDefinition, link⟩⟩

theorem reachableIncoming_eq (found : g.node? phi = some n) (isPhi : n.isPhi = true) :
    ∃ values, g.reachableIncoming phi = .ok values ∧ ∀ v, v ∈ values ↔ g.Above phi v := by
  refine ⟨(n.incoming.filter (g.tree.contains ·.1)).map (·.2), ?_, fun v => ?_⟩
  · rw [reachableIncoming, node_eq found]
    rfl
  · simp only [List.mem_map, List.mem_filter, Prod.exists]
    constructor
    · rintro ⟨pred, _, ⟨flows, reached⟩, rfl⟩
      exact ⟨n, found, .inr ⟨pred, flows, reached⟩⟩
    · rintro ⟨m, found', ⟨isDefinition, _⟩ | ⟨pred, flows, reached⟩⟩
      · exact (not_phi_of_definition found' isDefinition found isPhi).elim
      · obtain rfl := Option.some.inj (found.symm.trans found')
        exact ⟨pred, v, ⟨flows, reached⟩, rfl⟩

namespace Shaped

variable (h : g.Shaped p entry)
include h

theorem clobbers_total (answers : o.Answers p q) (found : g.node? a = some n) :
    ∃ b, g.clobbers p o a q = .ok b := by
  rw [Graph.clobbers, node_eq found, ok_bind]
  cases hasInst : n.inst? with
  | none => exact ⟨true, rfl⟩
  | some inst =>
      have placed := h.placed a n.outline inst (outline?_eq found) (by simpa using hasInst)
      exact answers inst (h.orderly.mem_allInsts placed)

theorem kills_entry : g.Kills p o q .liveOnEntry := by
  obtain ⟨n, found, outline⟩ := node?_of_outline? h.entryNode
  refine ⟨n, found, by rw [← n.isDefinition_outline, outline]; rfl, ?_⟩
  have noInst : n.inst? = none := by
    rw [← n.inst?_outline, outline]
    rfl
  rw [Graph.clobbers, node_eq found, ok_bind, noInst]
  rfl

theorem kills_or_silent (answers : o.Answers p q) (found : g.node? a = some n)
    (isDefinition : n.isDefinition = true) : g.Kills p o q a ∨ g.Silent p o q a := by
  obtain ⟨b, answer⟩ := h.clobbers_total answers found
  cases b with
  | true => exact .inl ⟨n, found, isDefinition, answer⟩
  | false => exact .inr ⟨n, found, isDefinition, answer⟩

end Shaped

section Walk

variable {start : Option Access} {fuel : Nat}

theorem walkUp_phi (found : g.node? a = some n) (isPhi : n.isPhi = true) (other : start ≠ some a) :
    g.walkUp p o q start (fuel + 1) a = .ok (.phi a) := by
  rw [walkUp, if_neg other, node_eq found, ok_bind]
  obtain ⟨_, _, role, _⟩ := n
  cases role with
  | phi => rfl
  | definition | use => cases isPhi

theorem walkUp_kills (kills : g.Kills p o q a) (other : start ≠ some a) :
    g.walkUp p o q start (fuel + 1) a = .ok (.clobber a) := by
  obtain ⟨⟨_, _, role, _⟩, found, isDefinition, clobbers⟩ := kills
  rw [walkUp, if_neg other, node_eq found, ok_bind]
  cases role with
  | definition =>
      dsimp only
      split
      · rfl
      · rw [clobbers]
        rfl
  | use | phi => cases isDefinition

theorem walkUp_silent (silent : g.Silent p o q a) (found : g.node? a = some n)
    (link : n.defining? = some x) (isEntry : a ≠ .liveOnEntry) (other : start ≠ some a) :
    g.walkUp p o q start (fuel + 1) a = g.walkUp p o q start fuel x := by
  obtain ⟨m, found', isDefinition, clobbers⟩ := silent
  obtain rfl := Option.some.inj (found.symm.trans found')
  rw [walkUp, if_neg other, node_eq found, ok_bind]
  obtain ⟨_, _, role, _⟩ := n
  cases role with
  | definition inst linked =>
      have above : linked.defining = some x := link
      dsimp only
      rw [if_neg isEntry, clobbers, ok_bind, if_neg (by simp), above]
  | use | phi => cases isDefinition

def StopsAt (g : Graph) (p : Procedure) (o : Oracle) (q : Query) (start : Option Access)
    (x : Access) : Stop → Prop
  | .target => start = some x
  | .phi y => y = x ∧ start ≠ some x ∧ ∃ n, g.node? x = some n ∧ n.isPhi = true
  | .clobber y => y = x ∧ start ≠ some x ∧ g.Kills p o q x

/-- A walk goes down the stack past definitions that do not clobber the query. -/
theorem Linked.walkUp_stops (h : g.Linked p entry) (answers : o.Answers p q) (start : Option Access)
    (stack : g.Stack (a :: l)) (enough : l.length < fuel) :
    ∃ before x after stop, a :: l = before ++ x :: after ∧ g.walkUp p o q start fuel a = .ok stop ∧
      (∀ y ∈ before, start ≠ some y ∧ g.Silent p o q y) ∧ g.StopsAt p o q start x stop := by
  generalize whole : a :: l = stacked at stack
  induction stack generalizing a l fuel with
  | entry =>
      cases whole
      obtain ⟨fuel, rfl⟩ := Nat.exists_eq_add_one_of_ne_zero (Nat.ne_zero_of_lt enough)
      by_cases here : start = some .liveOnEntry
      · exact ⟨[], _, [], .target, rfl, by rw [walkUp, if_pos here]; rfl, by simp, here⟩
      · exact ⟨[], _, [], _, rfl, walkUp_kills h.kills_entry here, by simp, rfl, here,
          h.kills_entry⟩
  | @definition a next l n found isDefinition link rest ih =>
      cases whole
      obtain ⟨fuel, rfl⟩ := Nat.exists_eq_add_one_of_ne_zero (Nat.ne_zero_of_lt enough)
      by_cases here : start = some a
      · exact ⟨[], a, _, .target, rfl, by rw [walkUp, if_pos here]; rfl, by simp, here⟩
      rcases h.kills_or_silent answers found isDefinition with kills | silent
      · exact ⟨[], a, _, _, rfl, walkUp_kills kills here, by simp, rfl, here, kills⟩
      · obtain ⟨before, x, after, stop, same, walked, passed, stops⟩ :=
          ih (by simpa using enough) rfl
        refine ⟨a :: before, x, after, stop, by rw [same]; rfl, ?_, ?_, stops⟩
        · rwa [walkUp_silent silent found link (h.ne_entry_of_link found link) here]
        · exact List.forall_mem_cons.mpr ⟨⟨here, silent⟩, passed⟩
  | @phi a l n found isPhi rest ih =>
      cases whole
      obtain ⟨fuel, rfl⟩ := Nat.exists_eq_add_one_of_ne_zero (Nat.ne_zero_of_lt enough)
      by_cases here : start = some a
      · exact ⟨[], a, _, .target, rfl, by rw [walkUp, if_pos here]; rfl, by simp, here⟩
      · exact ⟨[], a, _, _, rfl, walkUp_phi found isPhi here, by simp, rfl, here, n, found, isPhi⟩

theorem Stack.next (stack : g.Stack (a :: x :: l)) (silent : g.Silent p o q a) :
    g.Stack (x :: l) ∧ ∀ c, g.Above a c ↔ c = x := by
  obtain ⟨m, found, isDefinition, _⟩ := silent
  cases stack with
  | definition found' isDefinition' link below =>
      exact ⟨below, fun _ => above_definition found' isDefinition' link⟩
  | phi found' isPhi => exact (not_phi_of_definition found isDefinition found' isPhi).elim

theorem Stack.walk (stack : g.Stack (a :: l)) (same : a :: l = before ++ x :: after)
    (silent : ∀ y ∈ before, g.Silent p o q y) : Route g.Above a x (before ++ [x]) := by
  induction before generalizing a l with
  | nil =>
      cases same
      exact .here x
  | cons y before ih =>
      rw [List.cons_append] at same
      obtain ⟨rfl, rfl⟩ := List.cons_eq_cons.mp same
      obtain ⟨first, rest⟩ := List.forall_mem_cons.mp silent
      obtain ⟨next, tail, same⟩ :=
        List.exists_cons_of_ne_nil (List.append_ne_nil_of_right_ne_nil before
          (List.cons_ne_nil x after))
      rw [same] at stack
      obtain ⟨below, above⟩ := stack.next first
      exact .step ((above next).mpr rfl) (ih below same.symm rest)

/-- A route that does not come to where the walk stops stays among what the walk passes. -/
theorem Stack.mem_of_route (stack : g.Stack (a :: l)) (same : a :: l = before ++ x :: after)
    (silent : ∀ y ∈ before, g.Silent p o q y) (up : Route g.Above a c route) (missed : x ∉ route) :
    c ∈ before := by
  induction before generalizing a l route with
  | nil =>
      cases same
      exact absurd up.start_mem missed
  | cons y before ih =>
      rw [List.cons_append] at same
      obtain ⟨rfl, rfl⟩ := List.cons_eq_cons.mp same
      obtain ⟨first, rest⟩ := List.forall_mem_cons.mp silent
      obtain ⟨next, tail, same⟩ :=
        List.exists_cons_of_ne_nil (List.append_ne_nil_of_right_ne_nil before
          (List.cons_ne_nil x after))
      rw [same] at stack
      obtain ⟨below, above⟩ := stack.next first
      cases up with
      | here => exact List.mem_cons_self
      | step step up =>
          obtain rfl := (above _).mp step
          simp only [List.mem_cons, not_or] at missed
          exact List.mem_cons_of_mem _ (ih below same.symm rest up missed.2)

end Walk

end Graph

end MemoryFlow
