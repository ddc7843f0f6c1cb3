import MemoryFlow.Proofs.Clobber.Walk
import MemoryFlow.Proofs.Graph.Passed
import MemoryFlow.Proofs.Graph.Settled

/-! # Chains of definitions

The chain of defining accesses from a use or definition leads to a phi or to memory on entry, unless
it comes back to where it has been. A check looks for no such circle, only for accesses that do not
dominate their users. That rules out all circles but three kinds: an access that is defined by
itself, as every access dominates itself; those in blocks that cannot be reached, as these are
dominated by all others; and those through an access that is listed in more than one block, as its
place may change while it is compared.
-/

namespace MemoryFlow.Graph

open Relation (ReflTransGen TransGen)

variable {g g' : Graph} {p : Procedure} {o : Oracle} {q : Query} {entry : Block}
  {a c d e u x : Access} {n m : Node} {order order' : LocalOrder} {k fuel : Nat}

def DefinedBy (g : Graph) (a d : Access) : Prop :=
  ∃ n, g.node? a = some n ∧ n.defining? = some d

instance : Decidable (g.DefinedBy a d) :=
  decidable_of_iff ((g.node? a).bind Node.defining? = some d)
    (by simp [DefinedBy, Option.bind_eq_some_iff])

def level (g : Graph) (a : Access) : Nat :=
  (g.node? a).elim 0 fun n => (g.tree.level? n.block).getD 0

def place (g : Graph) (a : Access) : Nat :=
  (g.node? a).elim 0 fun n => (g.placeIn n.block a).getD 0

/-- Whether `d` is in a block on a higher level than `u`, or on the same level at an earlier
place. -/
def Precedes (g : Graph) (d u : Access) : Prop :=
  g.level d < g.level u ∨ g.level d = g.level u ∧ g.place d < g.place u

/-- Whether the chain of defining accesses from `a` comes to an access that it comes back to. -/
def Circles (g : Graph) (a : Access) : Prop :=
  ∃ c, ReflTransGen g.DefinedBy a c ∧ TransGen g.DefinedBy c c

/-- Whether the chain from `a` ends, after at most so many steps, at an access without a defining
access. -/
inductive EndsWithin (g : Graph) : Nat → Access → Prop
  | here {k : Nat} {a : Access} {n : Node} (found : g.node? a = some n)
  (last : n.defining? = none) :
      EndsWithin g k a
  | above {k : Nat} {a d : Access} (step : g.DefinedBy a d)
    (rest : EndsWithin g k d) : EndsWithin g (k + 1) a

/-- Whether what defines another access is in the graph, is no use and knows its user, and only a
phi or memory on entry is defined by nothing. -/
structure Chained (g : Graph) : Prop where
  defines : ∀ a d, g.DefinedBy a d → ∃ n, g.node? d = some n ∧ n.isUse = false ∧ a ∈ n.users
  last : ∀ a n, g.node? a = some n → n.defining? = none → n.isPhi = true ∨ a = .liveOnEntry

theorem Precedes.trans (first : g.Precedes a d) (second : g.Precedes d u) : g.Precedes a u := by
  unfold Precedes at *
  omega

theorem Precedes.irrefl (precedes : g.Precedes a a) : False := by
  unfold Precedes at precedes
  omega

theorem DefinedBy.unique (first : g.DefinedBy a d) (second : g.DefinedBy a e) : d = e := by
  obtain ⟨n, found, link⟩ := first
  obtain ⟨m, found', link'⟩ := second
  obtain rfl := Option.some.inj (found.symm.trans found')
  exact Option.some.inj (link.symm.trans link')

namespace Circles

theorem of_step (step : g.DefinedBy a d) (circles : g.Circles d) : g.Circles a := by
  obtain ⟨c, way, circle⟩ := circles
  exact ⟨c, .head step way, circle⟩

theorem of_pair (first : g.DefinedBy a d) (second : g.DefinedBy d a) : g.Circles a :=
  ⟨a, .refl, .tail (.single first) second⟩

theorem next (circles : g.Circles a) : ∃ d, g.DefinedBy a d ∧ g.Circles d :=
  exists_next_of_circle circles

theorem chainEnd (circles : g.Circles a) (fuel : Nat) : g.chainEnd fuel a = .error .diverges := by
  induction fuel generalizing a with
  | zero => rfl
  | succ fuel ih =>
      obtain ⟨d, ⟨n, found, link⟩, circles⟩ := circles.next
      rw [Graph.chainEnd, node_eq found, ok_bind, link]
      exact ih circles

end Circles

namespace EndsWithin

theorem chainEnd (ends : g.EndsWithin k a) :
    ∃ e n, g.chainEnd (k + 1) a = .ok e ∧ ReflTransGen g.DefinedBy a e ∧ g.node? e = some n ∧
      n.defining? = none := by
  induction ends with
  | @here k a n found last =>
      refine ⟨a, n, ?_, .refl, found, last⟩
      rw [Graph.chainEnd, node_eq found, ok_bind, last]
      rfl
  | @above k a d step rest ih =>
      obtain ⟨e, m, ran, way, found', last⟩ := ih
      refine ⟨e, m, ?_, .head step way, found', last⟩
      obtain ⟨n, found, link⟩ := step
      rw [Graph.chainEnd, node_eq found, ok_bind, link]
      exact ran

end EndsWithin

namespace Chained

variable (h : g.Chained)
include h

/-- A chain that does not come back passes each access at most once. -/
theorem endsWithin_after {passed : List Access} (found : g.node? a = some n) (free : ¬g.Circles a)
    (distinct : passed.Nodup)
    (known : ∀ x ∈ passed, x.index < g.nodes.size ∧ TransGen g.DefinedBy x a)
    (enough : g.nodes.size ≤ k + passed.length) : g.EndsWithin k a := by
  induction k generalizing a n passed with
  | zero =>
      have fresh : a ∉ passed := fun member => free ⟨a, .refl, (known a member).2⟩
      have room : (a :: passed).length ≤ g.nodes.size :=
        Entity.length_le (List.nodup_cons.mpr ⟨fresh, distinct⟩)
          (List.forall_mem_cons.mpr ⟨lt_of_node? found, fun x member => (known x member).1⟩)
      rw [List.length_cons] at room
      omega
  | succ k ih =>
      cases link : n.defining? with
      | none => exact .here found link
      | some d =>
          have step : g.DefinedBy a d := ⟨n, found, link⟩
          have fresh : a ∉ passed := fun member => free ⟨a, .refl, (known a member).2⟩
          obtain ⟨m, found', _⟩ := h.defines a d step
          refine .above step (ih found' (fun circles => free (.of_step step circles))
            (List.nodup_cons.mpr ⟨fresh, distinct⟩)
            (List.forall_mem_cons.mpr ⟨?_, fun x member => ?_⟩) ?_)
          · exact ⟨lt_of_node? found, .single step⟩
          · exact ⟨(known x member).1, (known x member).2.tail step⟩
          · rw [List.length_cons]
            omega

theorem endsWithin (found : g.node? a = some n) (free : ¬g.Circles a) :
    g.EndsWithin g.nodes.size a :=
  h.endsWithin_after found free List.nodup_nil (by simp) (by simp)

theorem walkUp_step {start : Option Access} (found : g.node? a = some n)
    (notUse : n.isUse = false) : (∃ stop, g.walkUp p o q start (fuel + 1) a = .ok stop) ∨
      (∃ fault, g.clobbers p o a q = .error fault ∧
        g.walkUp p o q start (fuel + 1) a = .error fault) ∨
      ∃ d, g.DefinedBy a d ∧ g.walkUp p o q start (fuel + 1) a = g.walkUp p o q start fuel d := by
  by_cases here : start = some a
  · exact .inl ⟨.target, by rw [walkUp, if_pos here]; rfl⟩
  have last := h.last a n found
  have defined : ∀ d, n.defining? = some d → g.DefinedBy a d := fun d link => ⟨n, found, link⟩
  rw [walkUp, if_neg here, node_eq found, ok_bind]
  obtain ⟨_, _, role, _⟩ := n
  cases role with
  | use => cases notUse
  | phi => exact .inl ⟨.phi a, rfl⟩
  | definition inst link =>
      dsimp only
      split
      · exact .inl ⟨.clobber a, rfl⟩
      rename_i other
      cases g.clobbers p o a q with
      | error fault => exact .inr (.inl ⟨fault, rfl, rfl⟩)
      | ok clobbers =>
          rw [ok_bind]
          cases clobbers with
          | true => exact .inl ⟨.clobber a, rfl⟩
          | false =>
              cases above : link.defining with
              | some d => exact .inr (.inr ⟨d, defined d above, rfl⟩)
              | none =>
                  rcases last above with isPhi | isEntry
                  · cases isPhi
                  · exact absurd isEntry other

/-- A walk up a chain that ends is itself at an end, unless the oracle has no answer. -/
theorem walkUp_ends {start : Option Access} (ends : g.EndsWithin k a) (found : g.node? a = some n)
    (notUse : n.isUse = false) :
    (∃ stop, g.walkUp p o q start (k + 1) a = .ok stop) ∨
      ∃ d fault, ReflTransGen g.DefinedBy a d ∧ g.clobbers p o d q = .error fault ∧
        g.walkUp p o q start (k + 1) a = .error fault := by
  induction ends generalizing n with
  | @here k a m found' last =>
      rcases h.walkUp_step found notUse with
        stops | ⟨fault, asked, failed⟩ | ⟨d, ⟨m', found'', link⟩, _⟩
      · exact .inl stops
      · exact .inr ⟨a, fault, .refl, asked, failed⟩
      · obtain rfl := Option.some.inj (found'.symm.trans found'')
        simp [last] at link
  | @above k a d step rest ih =>
      rcases h.walkUp_step found notUse with stops | ⟨fault, asked, failed⟩ | ⟨d', step', same⟩
      · exact .inl stops
      · exact .inr ⟨a, fault, .refl, asked, failed⟩
      · obtain rfl := step.unique step'
        obtain ⟨m, found', notUse', _⟩ := h.defines a d step
        rw [same]
        refine (ih found' notUse').imp_right ?_
        rintro ⟨e, fault, way, asked, failed⟩
        exact ⟨e, fault, .head step way, asked, failed⟩

end Chained

theorem operandViolation?_eq_none_iff : g.operandViolation? d a = none ↔
    ∃ n, g.node? d = some n ∧ n.isUse = false ∧ a ∈ n.users := by
  rw [operandViolation?]
  cases g.node? d with
  | none => simp
  | some n => cases isUse : n.isUse <;> by_cases known : a ∈ n.users <;> simp [isUse, known]

theorem chained_of_passed (passed : g.ask (g.check? p) = .ok (none, g')) : g.Chained := by
  have rule : ∀ a n, g.node? a = some n → g.referenceViolation? a n = none := by
    intro a n found
    have rules :=
      List.findSome?_eq_none_iff.mp (checkReferences_of_passed passed) a (mem_live.mpr ⟨n, found⟩)
    rwa [found] at rules
  refine ⟨?_, fun a n found last => ?_⟩
  · rintro a d ⟨n, found, link⟩
    have fine : g.operandViolation? d a = none := by
      have fine := rule a n found
      obtain ⟨_, _, role, _⟩ := n
      cases role with
      | phi => cases link
      | definition inst linked | use inst linked =>
          have above : linked.defining = some d := link
          simpa [referenceViolation?, above] using fine
    exact operandViolation?_eq_none_iff.mp fine
  · have fine := rule a n found
    obtain ⟨_, _, role, _⟩ := n
    cases role with
    | phi => exact .inl rfl
    | definition inst linked | use inst linked =>
        have above : linked.defining = none := last
        exact .inr (by simpa [referenceViolation?, above] using fine)

theorem run_of_firstM? {α β : Type} {f : α → Ordered (Option β)} {l : List α}
    (settles : ∀ x, g.Settles (f x)) (ran : (firstM? f l).run order = .ok (none, order')) :
    ∀ x ∈ l, ∃ before after, g.Settling order before ∧ (f x).run before = .ok (none, after) := by
  induction l generalizing order with
  | nil => simp
  | cons y l ih =>
      rw [firstM?, StateT.run_bind] at ran
      obtain ⟨⟨found, next⟩, first, ran⟩ := bind_eq_ok.mp ran
      cases found with
      | some b => cases ran
      | none =>
          refine List.forall_mem_cons.mpr ⟨⟨order, next, .refl, first⟩, fun x member => ?_⟩
          obtain ⟨before, after, settling, ran⟩ := ih ran x member
          exact ⟨before, after, (settles y order none next first).trans settling, ran⟩

theorem checkDominance_of_passed (passed : g.ask (g.check? p) = .ok (none, g')) :
    g.checkDominance?.run g.order = .ok (none, g'.order) := by
  have references := checkReferences_of_passed passed
  obtain ⟨⟨answer, order⟩, ran, same⟩ := bind_eq_ok.mp passed
  cases same
  rw [check?, StateT.run_bind] at ran
  obtain ⟨⟨lists, order'⟩, checked, ran⟩ := bind_eq_ok.mp ran
  cases found : g.checkLists? p with
  | error fault =>
      rw [found] at checked
      cases checked
  | ok answer =>
      rw [found] at checked
      cases checked
      cases lists with
      | some violation => cases ran
      | none =>
          simp only [references] at ran
          exact ran

/-- A passed check has asked of every access whether it dominates each of its users. -/
theorem dominatesUse_of_passed (passed : g.ask (g.check? p) = .ok (none, g'))
    (found : g.node? d = some n) (uses : u ∈ n.users) :
    ∃ order order', g.Settling g.order order ∧
      (g.dominatesUse d u).run order = .ok (true, order') := by
  obtain ⟨before, after, settling, ran⟩ :=
    run_of_firstM? .checkUsers? (checkDominance_of_passed passed) d (mem_live.mpr ⟨n, found⟩)
  rw [checkUsers?, node_eq found] at ran
  obtain ⟨order, order', settling', ran⟩ := run_of_firstM?
    (fun user => (Settles.dominatesUse d user).bind fun _ => .pure _) ran u uses
  rw [StateT.run_bind] at ran
  obtain ⟨⟨dominates, order''⟩, asked, ran⟩ := bind_eq_ok.mp ran
  cases dominates with
  | true => exact ⟨order, order'', settling.trans settling', asked⟩
  | false => cases ran

/-- Accesses of one block that are compared have been given places in it. -/
theorem locallyDominates_true (foundA : g.node? a = some n) (foundC : g.node? c = some m)
    (here : n.block = m.block) (apart : a ≠ c) (restA : a ≠ .liveOnEntry) (restC : c ≠ .liveOnEntry)
    (ran : (g.locallyDominates a c).run order = .ok (true, order')) :
    order'.settled.contains n.block = true ∧
      ∃ i j, order'.places[a]? = some i ∧ order'.places[c]? = some j ∧ i < j := by
  rw [locallyDominates, node_eq foundA, node_eq foundC] at ran
  change (if n.block ≠ m.block then _ else _ : Ordered Bool).run order = _ at ran
  rw [if_neg (not_not.mpr here), if_neg apart, if_neg restC, if_neg restA, StateT.run_bind] at ran
  obtain ⟨⟨_, order₁⟩, settled, ran⟩ := bind_eq_ok.mp ran
  rw [StateT.run_bind] at ran
  obtain ⟨⟨_, _⟩, same, ran⟩ := bind_eq_ok.mp ran
  cases same
  dsimp only at ran
  split at ran
  · rename_i i j placeA placeC
    obtain ⟨before, rfl⟩ := Prod.mk.inj (Except.ok.inj ran)
    exact ⟨settled_of_settle settled, i, j, placeA, placeC, of_decide_eq_true before⟩
  · cases ran

theorem ne_entry_of_dominates (apart : d ≠ u)
    (ran : (g.dominates d u).run order = .ok (true, order')) :
    u ≠ .liveOnEntry := by
  rw [dominates, if_neg apart] at ran
  split at ran
  · cases ran
  · assumption

theorem Tallies.listed_home (tallies : g.Tallies order) (housed : g.Housed none)
    (found : g.node? a = some n) (place : order.places[a]? = some k) : a ∈ g.accesses n.block := by
  obtain ⟨b, listed⟩ := tallies.listed a k place
  simpa using housed.home b a n.outline listed (outline?_eq found) (by simp)

theorem place_eq (found : g.node? a = some n) (placed : g.placeIn n.block a = some k) :
    g.place a = k := by
  rw [place, found, Option.elim_some, placed, Option.getD_some]

theorem level_eq {node : Tree.Node} (found : g.node? a = some n)
    (inTree : g.tree.find? n.block = some node) :
    g.level a = node.level := by
  rw [level, found, Option.elim_some, Tree.level?, inTree, Option.map_some, Option.getD_some]

/-- What a comparison says of accesses that are listed in a single block each. -/
theorem precedes_of_dominates (tallies : g.Tallies order) (housed : g.Housed none)
    (foundD : g.node? d = some n) (foundU : g.node? u = some m) (apart : d ≠ u)
    (restD : d ≠ .liveOnEntry) (singleD : g.ListedInOne d) (singleU : g.ListedInOne u)
    (inTree : g.tree.contains m.block = true)
    (ran : (g.dominates d u).run order = .ok (true, order')) :
    g.Precedes d u ∧ g.tree.contains n.block = true := by
  have restU := ne_entry_of_dominates apart ran
  obtain ⟨node, foundNode⟩ := Tree.exists_find?.mp inTree
  rw [dominates, if_neg apart, if_neg restU, node_eq foundD, node_eq foundU] at ran
  change (if n.block = m.block then _ else _ : Ordered Bool).run order = _ at ran
  split at ran
  · rename_i here
    obtain ⟨settled, i, j, placeD, placeU, before⟩ :=
      locallyDominates_true foundD foundU here apart restD restU ran
    have tallies' : g.Tallies order' :=
      tallies.settling (Settles.locallyDominates d u order true order' ran)
    have listedD := tallies'.listed_home housed foundD placeD
    have listedU := tallies'.listed_home housed foundU placeU
    have placedD := tallies'.right _ d i settled listedD singleD placeD
    have placedU := tallies'.right _ u j (here ▸ settled) listedU singleU placeU
    refine ⟨.inr ⟨?_, ?_⟩, here ▸ inTree⟩
    · rw [level_eq foundD (here ▸ foundNode), level_eq foundU foundNode]
    · rwa [place_eq foundD placedD, place_eq foundU placedU]
  · rename_i elsewhere
    obtain ⟨dominates, _⟩ := Prod.mk.inj (Except.ok.inj ran)
    obtain ⟨above, foundAbove, higher⟩ := Tree.level_lt_of_dominates dominates elsewhere foundNode
    refine ⟨.inl ?_, Tree.exists_find?.mpr ⟨above, foundAbove⟩⟩
    rwa [level_eq foundD foundAbove, level_eq foundU foundNode]

theorem dominates_of_passed (passed : g.ask (g.check? p) = .ok (none, g'))
    (step : g.DefinedBy u d) :
    ∃ order order', g.Settling g.order order ∧
      (g.dominates d u).run order = .ok (true, order') := by
  obtain ⟨n, foundD, _, uses⟩ := (chained_of_passed passed).defines u d step
  obtain ⟨m, found, link⟩ := step
  have notPhi : m.isPhi = false := by
    obtain ⟨_, _, role, _⟩ := m
    cases role with
    | phi => cases link
    | definition | use => rfl
  obtain ⟨order, order', settling, ran⟩ := dominatesUse_of_passed passed foundD uses
  rw [dominatesUse, node_eq found] at ran
  change (if m.isPhi then _ else _ : Ordered Bool).run order = _ at ran
  rw [notPhi] at ran
  exact ⟨order, order', settling, ran⟩

/-- Whether no chain goes on from memory on entry, and each comes from an access that can be reached
only to what can be reached and precedes it, where both are listed in a single block. -/
structure Climbs (g : Graph) : Prop where
  ends : ∀ d, g.DefinedBy .liveOnEntry d → d = .liveOnEntry
  precedes : ∀ u d n, g.DefinedBy u d → d ≠ u → d ≠ .liveOnEntry → g.ListedInOne u →
    g.ListedInOne d → g.node? u = some n → g.tree.contains n.block = true →
    g.Precedes d u ∧ ∃ m, g.node? d = some m ∧ g.tree.contains m.block = true

theorem climbs_of_passed (tallies : g.Tallies g.order) (housed : g.Housed none)
    (passed : g.ask (g.check? p) = .ok (none, g')) : g.Climbs := by
  refine ⟨fun d step => ?_, fun u d m step apart restD singleU singleD foundU inTree => ?_⟩
  · by_contra apart
    obtain ⟨_, _, _, ran⟩ := dominates_of_passed passed step
    exact ne_entry_of_dominates apart ran rfl
  · obtain ⟨n, foundD, _⟩ := (chained_of_passed passed).defines u d step
    obtain ⟨_, _, settling, ran⟩ := dominates_of_passed passed step
    obtain ⟨precedes, inTree'⟩ :=
      precedes_of_dominates (tallies.settling settling) housed foundD foundU apart
        restD singleD singleU inTree ran
    exact ⟨precedes, n, foundD, inTree'⟩

theorem returns (circle : TransGen g.DefinedBy c c) (way : ReflTransGen g.DefinedBy c x) :
    ReflTransGen g.DefinedBy x c := by
  induction way with
  | refl => exact .refl
  | @tail y x _ step ih =>
      rcases ih.cases_head with rfl | ⟨d, step', rest⟩
      · obtain ⟨d, step', rest⟩ := TransGen.head'_iff.mp circle
        exact step.unique step' ▸ rest
      · exact step.unique step' ▸ rest

theorem stays (itself : g.DefinedBy a a) (way : ReflTransGen g.DefinedBy a x) : x = a := by
  induction way with
  | refl => rfl
  | tail _ step ih =>
      subst ih
      exact step.unique itself

namespace Climbs

variable (h : g.Climbs) (circle : TransGen g.DefinedBy c c) (other : ¬g.DefinedBy c c)
  (single : ∀ x, ReflTransGen g.DefinedBy c x → g.ListedInOne x)

include circle other in
omit h in
theorem goes_on (way : ReflTransGen g.DefinedBy c x) : ∃ d, g.DefinedBy x d ∧ d ≠ x := by
  rcases (returns circle way).cases_head with rfl | ⟨d, step, rest⟩
  · obtain ⟨d, step, _⟩ := TransGen.head'_iff.mp circle
    refine ⟨d, step, ?_⟩
    rintro rfl
    exact other step
  · refine ⟨d, step, ?_⟩
    rintro rfl
    obtain rfl := stays step rest
    exact other step

include h circle other single

theorem step (way : ReflTransGen g.DefinedBy c x) (found : g.node? x = some n)
    (inTree : g.tree.contains n.block = true) (step : g.DefinedBy x d) :
    g.Precedes d x ∧ ∃ m, g.node? d = some m ∧ g.tree.contains m.block = true := by
  obtain ⟨d', step', apart⟩ := goes_on circle other way
  obtain rfl := step.unique step'
  have notEntry : d ≠ .liveOnEntry := by
    rintro rfl
    obtain ⟨d', step', apart⟩ := goes_on circle other (way.tail step)
    exact apart (h.ends d' step')
  exact h.precedes x d n step apart notEntry (single x way) (single d (way.tail step)) found inTree

/-- Going round such a circle would lead from an access to what precedes it, and so to the
access. -/
theorem not_inTree (way : ReflTransGen g.DefinedBy c x) (found : g.node? x = some n) :
    g.tree.contains n.block = false := by
  by_contra inTree
  have climb : ∀ y, TransGen g.DefinedBy x y →
      g.Precedes y x ∧ ∃ m, g.node? y = some m ∧ g.tree.contains m.block = true := by
    intro y up
    induction up with
    | single step => exact h.step circle other single way found (by simpa using inTree) step
    | tail up step ih =>
        obtain ⟨precedes, m, found', inTree'⟩ := ih
        obtain ⟨precedes', standing⟩ :=
          h.step circle other single (way.trans up.to_reflTransGen) found' inTree' step
        exact ⟨precedes'.trans precedes, standing⟩
  have round : TransGen g.DefinedBy x x := by
    obtain ⟨d, step, _⟩ := goes_on circle other way
    exact .head' step ((returns circle (way.tail step)).trans way)
  exact (climb x round).1.irrefl

end Climbs

structure ChainsEnd (flow : FlowGraph) (entry : Block) (g : Graph) : Prop where
  /-- A chain is followed to a phi or to memory on entry just if it does not come back. -/
  ends : ∀ a n, g.node? a = some n →
    ((∃ e m, g.chainEnd g.walkBound a = .ok e ∧ ReflTransGen g.DefinedBy a e ∧ g.node? e = some m ∧
      (m.isPhi = true ∨ e = .liveOnEntry ∧ m.defining? = none)) ↔ ¬g.Circles a)
  /-- Where chains come back, an access is defined by itself, or is listed in more than one block,
  or none can be reached. -/
  circles : ∀ c, TransGen g.DefinedBy c c → g.DefinedBy c c ∨
    (∃ x, ReflTransGen g.DefinedBy c x ∧ ¬g.ListedInOne x) ∨
    ∀ x n, ReflTransGen g.DefinedBy c x → g.node? x = some n → ¬Reaches flow.Edge entry n.block
  /-- Where a chain does not come back, a walk up the chain ends, unless the oracle fails on the
  way. -/
  walks : ∀ p o q start a n, g.node? a = some n → n.isUse = false → ¬g.Circles a →
    (∃ stop, g.walkUp p o q start g.walkBound a = .ok stop) ∨
      ∃ d fault, ReflTransGen g.DefinedBy a d ∧ g.clobbers p o d q = .error fault ∧
        g.walkUp p o q start g.walkBound a = .error fault

theorem chainsEnd_of_passed (tallies : g.Tallies g.order) (housed : g.Housed none)
    (sound : g.tree.Sound g.flow entry) (passed : g.ask (g.check? p) = .ok (none, g')) :
    g.ChainsEnd g.flow entry := by
  have chained := chained_of_passed passed
  have climbs := climbs_of_passed tallies housed passed
  refine ⟨fun a n found => ⟨?_, fun free => ?_⟩, fun c circle => ?_,
    fun p o q start a n found notUse free => ?_⟩
  · rintro ⟨e, m, followed, _⟩ circles
    cases followed.symm.trans (circles.chainEnd _)
  · obtain ⟨e, m, followed, way, found', last⟩ := (chained.endsWithin found free).chainEnd
    exact ⟨e, m, followed, way, found',
      (chained.last e m found' last).imp_right fun isEntry => ⟨isEntry, last⟩⟩
  · refine or_iff_not_imp_left.mpr fun other =>
      or_iff_not_imp_left.mpr fun listed x n way found => ?_
    rw [← sound.reaches, Bool.not_eq_true]
    refine climbs.not_inTree circle other (fun y way => ?_) way found
    by_contra several
    exact listed ⟨y, way, several⟩
  · exact chained.walkUp_ends (chained.endsWithin found free) found notUse

/-- However a built graph has been edited, if it passes the check, then every chain of definitions
ends but for those that come to an access defined by itself, to one that is listed in more than one
block, or to none but such as cannot be reached. None is listed in more than one block if no edit
puts what is listed into a list again. -/
theorem passed_chains_end {config : Config} {first : Graph} (distinct : p.layout.blocks.Nodup)
    (built : build p o config = .ok first) :
    ∃ entry, p.entry = some entry ∧
      (∀ (acts : List Act) g checked g', acts.foldlM Act.apply first = .ok g →
        g.ask (g.check? checked) = .ok (none, g') → g.ChainsEnd (.ofProcedure p) entry) ∧
      ∀ g, ReflTransGen OnceStep first g → ∀ a, g.ListedInOne a := by
  obtain ⟨entry, isEntry, _, _⟩ := build_frame built
  refine ⟨entry, isEntry, fun acts g checked g' ran passed => ?_, fun g steps a => ?_⟩
  · obtain ⟨entry', isEntry', flow, sound⟩ := frame_of_acts built ran
    obtain rfl := Option.some.inj (isEntry.symm.trans isEntry')
    obtain ⟨tallies, housed⟩ := tallies_of_acts distinct built ran
    rw [← flow] at sound ⊢
    exact chainsEnd_of_passed tallies housed sound passed
  · exact ((build_upToDate built).run steps).listedInOne a

/-- Three stores, and apart from them a loop of two blocks that store, which cannot be reached. -/
def storesBesideLoop : Procedure where
  name := "stores"
  params := [⟨0⟩]
  blockNames := #[none, none, none]
  insts := #[⟨.store ⟨0⟩ ⟨0⟩ 8 ⟨false, false, .notAtomic⟩, none⟩,
    ⟨.store ⟨0⟩ ⟨0⟩ 8 ⟨false, false, .notAtomic⟩, none⟩,
    ⟨.store ⟨0⟩ ⟨0⟩ 8 ⟨false, false, .notAtomic⟩, none⟩,
    ⟨.ret none, none⟩, ⟨.store ⟨0⟩ ⟨0⟩ 8 ⟨false, false, .notAtomic⟩, none⟩, ⟨.jump ⟨2⟩, none⟩,
    ⟨.store ⟨0⟩ ⟨0⟩ 8 ⟨false, false, .notAtomic⟩, none⟩, ⟨.jump ⟨1⟩, none⟩]
  values := #[.parameter 0]
  layout := .ofRows [⟨⟨0⟩, [⟨0⟩, ⟨1⟩, ⟨2⟩, ⟨3⟩]⟩, ⟨⟨1⟩, [⟨4⟩, ⟨5⟩]⟩, ⟨⟨2⟩, [⟨6⟩, ⟨7⟩]⟩]

theorem storesBesideLoop_accepted : storesBesideLoop.Accepted :=
  ⟨⟨storesBesideLoop, some ⟨2⟩⟩,
    .append (.jump ⟨1⟩) (.append (.store ⟨0⟩ ⟨0⟩ 8 ⟨false, false, .notAtomic⟩) (.select ⟨2⟩
      (.append (.jump ⟨2⟩) (.append (.store ⟨0⟩ ⟨0⟩ 8 ⟨false, false, .notAtomic⟩) (.select ⟨1⟩
        (.append (.ret none) (.append (.store ⟨0⟩ ⟨0⟩ 8 ⟨false, false, .notAtomic⟩)
          (.append (.store ⟨0⟩ ⟨0⟩ 8 ⟨false, false, .notAtomic⟩)
            (.append (.store ⟨0⟩ ⟨0⟩ 8 ⟨false, false, .notAtomic⟩) (.select ⟨0⟩
              (.addBlock none
              (.addBlock none (.addBlock none (.addParam (.start "stores")) rfl) rfl) rfl))
              rfl) rfl) rfl) rfl)) rfl) rfl)) rfl) rfl, rfl⟩

/-- The stores of the loop are defined by each other. -/
def deadCircle : List Act :=
  [.change (.setDefining ⟨4⟩ ⟨5⟩), .change (.setDefining ⟨5⟩ ⟨4⟩)]

/-- A second access for the last store is listed after the others and in another block too. -/
def listedElsewhere : List Act :=
  [.change (.createPhi ⟨9⟩), .change (.move ⟨3⟩ ⟨9⟩ .ending), .change (.setDefining ⟨3⟩ ⟨6⟩),
    .change (.createAccess storesBesideLoop .byObject ⟨2⟩ ⟨2⟩),
    .change (.insertBefore ⟨7⟩ ⟨9⟩ (some ⟨6⟩)), .change (.insert ⟨7⟩ ⟨0⟩ .ending),
    .change (.setDefining ⟨2⟩ ⟨7⟩)]

theorem passed_chains_end_deadCircle :
    storesBesideLoop.layout.blocks.Nodup ∧
    ∃ first g g', build storesBesideLoop .byObject {} = .ok first ∧
      ReflTransGen OnceStep first g ∧ g.ask (g.check? storesBesideLoop) = .ok (none, g') ∧
      g.ChainsEnd (.ofProcedure storesBesideLoop) ⟨0⟩ ∧ (∀ a, g.ListedInOne a) ∧
      g.chainEnd g.walkBound ⟨3⟩ = .ok .liveOnEntry ∧ g.Circles ⟨4⟩ := by
  obtain ⟨first, built, runs⟩ := exists_of_any (x := build storesBesideLoop .byObject {})
    (P := runsWhere (fun g act => act.ListsOnce g) (fun g =>
      (∃ asked, g.ask (g.check? storesBesideLoop) = .ok asked ∧ asked.1 = none) ∧
      g.chainEnd g.walkBound ⟨3⟩ = .ok .liveOnEntry ∧ g.DefinedBy ⟨4⟩ ⟨5⟩ ∧ g.DefinedBy ⟨5⟩ ⟨4⟩)
        deadCircle)
    (by decide +kernel)
  obtain ⟨g, steps, facts⟩ := exists_of_runsWhere runs
  obtain ⟨⟨⟨_, g'⟩, passed, rfl⟩, ends, there, back⟩ := of_decide_eq_true facts
  obtain ⟨acts, ran⟩ := exists_acts_of_steps (fun _ _ ⟨act, _, ran⟩ => ⟨act, ran⟩) steps
  obtain ⟨entry, isEntry, rules, single⟩ := passed_chains_end (by decide) built
  obtain rfl : ⟨0⟩ = entry := Option.some.inj isEntry
  exact ⟨by decide, first, g, g', built, steps, passed, rules acts g _ g' ran passed,
    single g steps, ends, .of_pair there back⟩

/-- A check is passed by a store that is defined by itself, by two that are defined by each other
and cannot be reached, and by two of which one is listed in two blocks. From none of them does a
chain end. -/
theorem passed_chains_circle :
    storesBesideLoop.Accepted ∧ ∃ first, build storesBesideLoop .byObject {} = .ok first ∧
      ∀ acts a d, (acts, a, d) ∈
      [([.change (.setDefining ⟨1⟩ ⟨1⟩)], ⟨1⟩, ⟨1⟩), (deadCircle, ⟨4⟩, ⟨5⟩),
          (listedElsewhere, ⟨2⟩, ⟨7⟩)] →
        ∃ g g', acts.foldlM Act.apply first = .ok g ∧
          g.ask (g.check? storesBesideLoop) = .ok (none, g') ∧
          g.DefinedBy a d ∧ g.DefinedBy d a ∧ ∀ fuel, g.chainEnd fuel a = .error .diverges := by
  have runs : ∃ first, build storesBesideLoop .byObject {} = .ok first ∧
      ∀ edited ∈ [([.change (.setDefining ⟨1⟩ ⟨1⟩)], ⟨1⟩, ⟨1⟩), (deadCircle, ⟨4⟩, ⟨5⟩),
          (listedElsewhere, ⟨2⟩, ⟨7⟩)],
        ∃ g, edited.1.foldlM Act.apply first = .ok g ∧
          (∃ asked, g.ask (g.check? storesBesideLoop) = .ok asked ∧ asked.1 = none) ∧
          g.DefinedBy edited.2.1 edited.2.2 ∧ g.DefinedBy edited.2.2 edited.2.1 := by
    decide +kernel
  obtain ⟨first, built, runs⟩ := runs
  refine ⟨storesBesideLoop_accepted, first, built, fun acts a d member => ?_⟩
  obtain ⟨g, ran, ⟨⟨_, g'⟩, passed, rfl⟩, there, back⟩ := runs (acts, a, d) member
  exact ⟨g, g', ran, passed, there, back, (Circles.of_pair there back).chainEnd⟩

end MemoryFlow.Graph
