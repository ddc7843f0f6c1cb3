import MemoryFlow.Graph.Order
import MemoryFlow.Proofs.Graph.Shape

/-! # Answers about the order of accesses

A question about a graph may settle the places of a block's accesses on the way. `Graph.Yields` says
what a question answers whatever has been settled before, as long as every settled place is the
right one, and `Graph.Settles` that it changes nothing else, whether or not the settled places are
right. `Graph.Over` is the order of accesses that the questions are about. All that settling asks of
the lists is `Graph.ListedOnce`.
-/

namespace MemoryFlow.Graph

variable {α β : Type} {g : Graph} {p : Procedure} {entry : Block} {a b c : Access}

/-- Whether the places that an order has settled are those in the lists of the graph. -/
def Places (g : Graph) (o : LocalOrder) : Prop :=
  ∀ block a, o.settled.contains block = true → a ∈ g.accesses block →
    o.places[a]? = some ((g.accesses block).idxOf a + 1)

/-- Whether a question is answered with `answer`, and leaves right what is settled. -/
def Yields (g : Graph) (question : Ordered α) (answer : α) : Prop :=
  ∀ o, g.Places o → ∃ o', question.run o = .ok (answer, o') ∧ g.Places o'

namespace Yields

theorem pure (answer : α) : g.Yields (pure answer) answer :=
  fun o right => ⟨o, rfl, right⟩

theorem bind {question : Ordered α} {next : α → Ordered β} {v : α} {w : β}
    (first : g.Yields question v) (second : g.Yields (next v) w) :
    g.Yields (question >>= next) w := by
  intro o right
  obtain ⟨o₁, ran, right⟩ := first o right
  obtain ⟨o₂, ran', right⟩ := second o₁ right
  refine ⟨o₂, ?_, right⟩
  rw [StateT.run_bind, ran]
  exact ran'

theorem lift {x : Except Fault α} {next : α → Ordered β} {v : α} {w : β} (done : x = .ok v)
    (second : g.Yields (next v) w) : g.Yields (liftM x >>= next) w := by
  subst done
  exact second

theorem ask {question : Ordered α} {v : α} (yields : g.Yields question v)
    (right : g.Places g.order) :
    ∃ o, g.ask question = .ok (v, { g with order := o }) ∧ g.Places o := by
  obtain ⟨o, ran, right⟩ := yields g.order right
  exact ⟨o, by rw [Graph.ask, ran]; rfl, right⟩

end Yields

def Settling (g : Graph) : LocalOrder → LocalOrder → Prop :=
  Relation.ReflTransGen fun o o' => ∃ block, o' = o.settle block (g.accesses block)

/-- Whether a question changes what is settled only by settling blocks. -/
def Settles (g : Graph) (question : Ordered α) : Prop :=
  ∀ o answer o', question.run o = .ok (answer, o') → g.Settling o o'

namespace Settles

theorem pure (answer : α) : g.Settles (pure answer) := by
  intro o _ o' ran
  cases ran
  exact .refl

theorem lift (x : Except Fault α) : g.Settles (liftM x) := by
  intro o answer o' ran
  cases x with
  | error fault => cases ran
  | ok v =>
      cases ran
      exact .refl

theorem get : g.Settles (get : Ordered LocalOrder) := by
  intro o answer o' ran
  cases ran
  exact .refl

theorem fail (fault : Fault) : g.Settles (throw fault : Ordered α) := by
  intro o answer o' ran
  cases ran

theorem bind {question : Ordered α} {next : α → Ordered β} (first : g.Settles question)
    (second : ∀ v, g.Settles (next v)) : g.Settles (question >>= next) := by
  intro o answer o' ran
  rw [StateT.run_bind] at ran
  obtain ⟨⟨v, o₁⟩, ran₁, ran₂⟩ := bind_eq_ok.mp ran
  exact (first o v o₁ ran₁).trans (second v o₁ answer o' ran₂)

theorem foldlM {step : β → α → Ordered β} (settles : ∀ state item, g.Settles (step state item))
    (items : List α) (start : β) : g.Settles (items.foldlM step start) := by
  induction items generalizing start with
  | nil => exact pure start
  | cons item items ih => exact (settles start item).bind ih

theorem settle (block : Block) : g.Settles (g.settle block) := by
  intro o answer o' ran
  cases ran
  dsimp only
  split
  · exact .refl
  · exact .single ⟨block, rfl⟩

theorem locallyDominates (a b : Access) : g.Settles (g.locallyDominates a b) := by
  refine (lift _).bind fun n => (lift _).bind fun m => ?_
  dsimp only
  split
  · exact .fail _
  split
  · exact .pure _
  split
  · exact .pure _
  split
  · exact .pure _
  refine (settle _).bind fun _ => get.bind fun order => ?_
  split
  · exact .pure _
  · exact .fail _

theorem dominates (a b : Access) : g.Settles (g.dominates a b) := by
  rw [Graph.dominates]
  split
  · exact .pure _
  split
  · exact .pure _
  refine (lift _).bind fun n => (lift _).bind fun m => ?_
  dsimp only
  split
  · exact locallyDominates a b
  · exact .pure _

end Settles

theorem settled_of_settle {block : Block} {o o' : LocalOrder}
    (ran : (g.settle block).run o = .ok ((), o')) :
    o'.settled.contains block = true := by
  cases ran
  dsimp only
  split
  · assumption
  · simp [LocalOrder.settle]

theorem Places.of_empty {o : LocalOrder} (none : o.settled = {}) : g.Places o := by
  intro block a settled
  rw [none] at settled
  simp at settled

theorem getElem?_numbered {l : List Access} (distinct : l.Nodup) (first : Nat)
    (places : Std.TreeMap Access Nat) :
    ((l.zipIdx first).foldl (fun places (a, i) => places.insert a (i + 1)) places)[a]? =
      if a ∈ l then some (first + l.idxOf a + 1) else places[a]? := by
  induction l generalizing first places with
  | nil => simp
  | cons x l ih =>
      obtain ⟨fresh, distinct⟩ := List.nodup_cons.mp distinct
      rw [List.zipIdx_cons, List.foldl_cons, ih distinct, getElem?_insert]
      by_cases same : a = x
      · subst same
        simp [fresh]
      · rw [if_neg same, List.idxOf_cons_ne l (Ne.symm same)]
        simp only [List.mem_cons, same, false_or]
        refine if_congr Iff.rfl ?_ rfl
        congr 1
        omega

/-- Whether `a` comes strictly before `b` on every way to `b`. -/
def Over (g : Graph) (entry : Block) (a b : Access) : Prop :=
  b ≠ .liveOnEntry ∧ (a = .liveOnEntry ∨ ∃ n m, g.node? a = some n ∧ g.node? b = some m ∧
    (n.block = m.block ∧ (g.accesses m.block).idxOf a < (g.accesses m.block).idxOf b ∨
      n.block ≠ m.block ∧ Reaches g.flow.Edge entry m.block ∧
      Dominates g.flow.Edge entry n.block m.block))

namespace Over

theorem ne (precedes : g.Over entry a b) : a ≠ b := by
  rintro rfl
  obtain ⟨other, entry | ⟨n, m, found, found', places⟩⟩ := precedes
  · exact other entry
  · obtain rfl := Option.some.inj (found.symm.trans found')
    rcases places with ⟨_, before⟩ | ⟨apart, _⟩
    · exact Nat.lt_irrefl _ before
    · exact apart rfl

theorem trans (first : g.Over entry a b) (second : g.Over entry b c) : g.Over entry a c := by
  obtain ⟨inner, above⟩ := first
  obtain ⟨other, below⟩ := second
  refine ⟨other, above.imp_right fun ⟨n, m, foundA, foundB, places⟩ => ?_⟩
  obtain ⟨m', k, foundB', foundC, places'⟩ := below.resolve_left inner
  obtain rfl := Option.some.inj (foundB.symm.trans foundB')
  refine ⟨n, k, foundA, foundC, ?_⟩
  rcases places with ⟨same, before⟩ | ⟨apart, reached, dom⟩ <;>
    rcases places' with ⟨same', before'⟩ | ⟨apart', reached', dom'⟩
  · rw [same'] at before
    exact .inl ⟨same.trans same', Nat.lt_trans before before'⟩
  · rw [same]
    exact .inr ⟨apart', reached', dom'⟩
  · rw [← same']
    exact .inr ⟨apart, reached, dom⟩
  · refine .inr ⟨fun same => ?_, reached', dom.trans dom'⟩
    exact apart' (dom'.antisymm reached' (same ▸ dom))

end Over

theorem locallyDominates_self {n : Node} (found : g.node? a = some n) :
    g.Yields (g.locallyDominates a a) true := by
  rw [Graph.locallyDominates]
  refine .lift (node_eq found) (.lift (node_eq found) ?_)
  rw [if_neg (not_not.mpr rfl), if_pos rfl]
  exact .pure _

/-- Whether whatever is listed is in the graph, and listed in its own block only and once there. -/
structure ListedOnce (g : Graph) : Prop where
  home : ∀ b, ∀ x ∈ g.accesses b, ∃ n, g.outline? x = some n ∧ n.block = b
  distinct : ∀ b, (g.accesses b).Nodup

namespace ListedOnce

variable (h : g.ListedOnce)
include h

theorem block_unique {block other : Block} (member : a ∈ g.accesses block)
    (member' : a ∈ g.accesses other) : block = other := by
  obtain ⟨n, found, rfl⟩ := h.home block a member
  obtain ⟨m, found', rfl⟩ := h.home other a member'
  rw [Option.some.inj (found.symm.trans found')]

theorem places_settle {o : LocalOrder} (block : Block) (right : g.Places o) :
    g.Places (o.settle block (g.accesses block)) := by
  intro other a settled member
  rw [LocalOrder.settle] at settled ⊢
  rw [getElem?_numbered (h.distinct block)]
  by_cases here : a ∈ g.accesses block
  · obtain rfl := h.block_unique here member
    simp [here]
  · rw [if_neg here]
    refine right other a ?_ member
    rw [Std.TreeSet.contains_insert, Bool.or_eq_true] at settled
    refine settled.resolve_left fun same => here ?_
    obtain rfl : block = other := by simpa using same
    exact member

theorem places_of_settling {o o' : LocalOrder} (settling : g.Settling o o') (right : g.Places o) :
    g.Places o' := by
  induction settling with
  | refl => exact right
  | tail _ step ih =>
      obtain ⟨block, rfl⟩ := step
      exact h.places_settle block ih

theorem settle (block : Block) : ∀ o, g.Places o → ∃ o', (g.settle block).run o = .ok ((), o') ∧
    g.Places o' ∧ o'.settled.contains block = true := by
  intro o right
  exact ⟨_, rfl, h.places_of_settling (Settles.settle block o () _ rfl) right,
    settled_of_settle rfl⟩

/-- Two accesses of one list are compared by their places in it. -/
theorem locallyDominates {block : Block} (memberA : a ∈ g.accesses block)
    (memberB : b ∈ g.accesses block) (apart : a ≠ b) (restA : a ≠ .liveOnEntry)
    (restB : b ≠ .liveOnEntry) :
    g.Yields (g.locallyDominates a b)
    (decide ((g.accesses block).idxOf a < (g.accesses block).idxOf b)) := by
  obtain ⟨_, outlineA, hereA⟩ := h.home block a memberA
  obtain ⟨_, outlineB, hereB⟩ := h.home block b memberB
  obtain ⟨n, foundA, rfl⟩ := node?_of_outline? outlineA
  obtain ⟨m, foundB, rfl⟩ := node?_of_outline? outlineB
  rw [Node.block_outline] at hereA hereB
  rw [Graph.locallyDominates]
  refine .lift (node_eq foundA) (.lift (node_eq foundB) ?_)
  rw [if_neg (by simp [hereA, hereB]), if_neg apart, if_neg restB, if_neg restA, hereA]
  intro o right
  obtain ⟨o', ran, right, settled⟩ := h.settle block o right
  have placeA := right block a settled memberA
  have placeB := right block b settled memberB
  refine ⟨o', ?_, right⟩
  rw [StateT.run_bind, ran, ok_bind, StateT.run_bind]
  simp only [StateT.run_get, pure_bind, placeA, placeB, Nat.add_lt_add_iff_right]
  rfl

end ListedOnce

namespace Arranged

variable (h : g.Arranged p entry)
include h

theorem listedOnce : g.ListedOnce where
  home := by
    intro b a member
    obtain ⟨_, n, found, rfl⟩ := h.mem_accesses.mp member
    exact ⟨_, outline?_eq found, n.block_outline⟩
  distinct := h.nodup_accesses

theorem locallyDominates {n m : Node} (foundA : g.node? a = some n) (foundB : g.node? b = some m)
    (same : n.block = m.block) (apart : a ≠ b) (restA : a ≠ .liveOnEntry)
    (restB : b ≠ .liveOnEntry) : g.Yields (g.locallyDominates a b)
      (decide ((g.accesses m.block).idxOf a < (g.accesses m.block).idxOf b)) :=
  h.listedOnce.locallyDominates (h.mem_accesses.mpr ⟨restA, n, foundA, same⟩)
    (h.mem_accesses.mpr ⟨restB, m, foundB, rfl⟩) apart restA restB

omit h in
theorem dominates_self : g.Yields (g.dominates a a) true := by
  rw [Graph.dominates, if_pos rfl]
  exact .pure _

theorem dominates_over (precedes : g.Over entry a b) (live : (g.node? b).isSome = true) :
    g.Yields (g.dominates a b) true ∧ g.Yields (g.dominates b a) false := by
  have apart := precedes.ne
  obtain ⟨restB, above⟩ := precedes
  by_cases restA : a = .liveOnEntry
  · subst restA
    refine ⟨?_, ?_⟩
    · obtain ⟨n, foundA, outline⟩ := node?_of_outline? h.entryNode
      obtain ⟨m, foundB⟩ := Option.isSome_iff_exists.mp live
      have block : n.block = entry := congrArg Node.block outline
      rw [Graph.dominates, if_neg apart, if_neg restB]
      refine .lift (node_eq foundA) (.lift (node_eq foundB) ?_)
      by_cases same : n.block = m.block
      · rw [if_pos same, Graph.locallyDominates]
        refine .lift (node_eq foundA) (.lift (node_eq foundB) ?_)
        rw [if_neg (by simpa using same), if_neg apart, if_neg restB, if_pos rfl]
        exact .pure _
      · rw [if_neg same, block, (h.tree.dominates _ _).mpr .from_root]
        exact .pure _
    · rw [Graph.dominates, if_neg apart.symm, if_pos rfl]
      exact .pure _
  · obtain ⟨n, m, foundA, foundB, places⟩ := above.resolve_left restA
    rw [Graph.dominates, Graph.dominates, if_neg apart, if_neg apart.symm, if_neg restA,
      if_neg restB]
    refine ⟨.lift (node_eq foundA) (.lift (node_eq foundB) ?_),
      .lift (node_eq foundB) (.lift (node_eq foundA) ?_)⟩ <;>
      rcases places with ⟨same, before⟩ | ⟨other, reached, dom⟩
    · rw [if_pos same]
      simpa [before] using h.locallyDominates foundA foundB same apart restA restB
    · rw [if_neg other, (h.tree.dominates _ _).mpr dom]
      exact .pure _
    · rw [if_pos same.symm]
      simpa [same, Nat.not_lt_of_gt before] using
        h.locallyDominates foundB foundA same.symm apart.symm restB restA
    · rw [if_neg (Ne.symm other)]
      have missed : g.tree.dominates m.block n.block = false := by
        rw [Bool.eq_false_iff]
        exact fun back => other (dom.antisymm reached ((h.tree.dominates _ _).mp back))
      rw [missed]
      exact .pure _

end Arranged

end MemoryFlow.Graph
