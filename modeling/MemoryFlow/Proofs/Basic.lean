import MemoryFlow.Entity
import Mathlib.Data.List.Perm.Subperm
import Mathlib.Logic.Relation

/-! # General facts

What is used all over the theory and depends on nothing in it.
-/

namespace MemoryFlow

/-- Entities that differ and are all numbered below a bound are no more than the bound. -/
theorem Entity.length_le {kind : Kind} {l : List (Entity kind)} {bound : Nat} (distinct : l.Nodup)
    (inside : ∀ e ∈ l, e.index < bound) : l.length ≤ bound := by
  have numbers : (l.map Entity.index).Nodup :=
    List.Pairwise.map Entity.index (fun _ _ other same => other (Entity.ext same)) distinct
  have sub : l.map Entity.index ⊆ List.range bound := by
    intro n member
    obtain ⟨e, listed, rfl⟩ := List.mem_map.mp member
    exact List.mem_range.mpr (inside e listed)
  simpa using (numbers.subperm sub).length_le

theorem getElem?_insert {kind : Kind} {β : Type} (m : Std.TreeMap (Entity kind) β)
    (k x : Entity kind) (v : β) : (m.insert k v)[x]? = if x = k then some v else m[x]? := by
  rw [Std.TreeMap.getElem?_insert]
  refine if_congr ?_ rfl rfl
  rw [Std.compare_eq_iff_eq, eq_comm]

theorem getD_insert {kind : Kind} {β : Type} (m : Std.TreeMap (Entity kind) β) (k x : Entity kind)
    (v default : β) : (m.insert k v).getD x default = if x = k then v else m.getD x default := by
  rw [Std.TreeMap.getD_insert]
  refine if_congr ?_ rfl rfl
  rw [Std.compare_eq_iff_eq, eq_comm]

theorem getD_insert_unless_empty {kind : Kind} {β : Type} {m : Std.TreeMap (Entity kind) (List β)}
    {k : Entity kind} (absent : m.getD k [] = []) (l : List β) (x : Entity kind) :
    (if l.isEmpty then m else m.insert k l).getD x [] = if x = k then l else m.getD x [] := by
  split
  · rename_i empty
    rw [List.isEmpty_iff.mp empty]
    split
    · rename_i same
      rw [same, absent]
    · rfl
  · exact getD_insert m k x l []

/-- A way that comes to a circle has a next step, and comes to the circle from there as well. -/
theorem exists_next_of_circle {α : Type} {R : α → α → Prop} {a : α}
    (circles : ∃ c, Relation.ReflTransGen R a c ∧ Relation.TransGen R c c) :
    ∃ b, R a b ∧ ∃ c, Relation.ReflTransGen R b c ∧ Relation.TransGen R c c := by
  obtain ⟨c, way, circle⟩ := circles
  rcases way.cases_head with rfl | ⟨b, step, rest⟩
  · obtain ⟨b, step, back⟩ := Relation.TransGen.head'_iff.mp circle
    exact ⟨b, step, a, back, circle⟩
  · exact ⟨b, step, c, rest, circle⟩

theorem nodup_eraseDups {α : Type} [DecidableEq α] (l : List α) : l.eraseDups.Nodup := by
  induction size : l.length using Nat.strongRecOn generalizing l with
  | _ n ih =>
      cases l with
      | nil => simp
      | cons a l =>
          have shorter : (l.filter fun b => !b == a).length < n := by
            have := List.length_filter_le (fun b => !b == a) l
            simp only [List.length_cons] at size
            omega
          rw [List.eraseDups_cons]
          exact List.nodup_cons.mpr ⟨by simp, ih _ shorter _ rfl⟩

theorem countP_lt {α : Type} {l : List α} {P Q : α → Bool} {x : α}
    (fewer : ∀ y ∈ l, Q y = true → P y = true) (member : x ∈ l) (before : P x = true)
    (after : Q x = false) : l.countP Q < l.countP P := by
  obtain ⟨front, back, rfl⟩ := List.append_of_mem member
  have early : front.countP Q ≤ front.countP P :=
    List.countP_mono_left fun y listed => fewer y (List.mem_append_left _ listed)
  have late : back.countP Q ≤ back.countP P :=
    List.countP_mono_left fun y listed =>
      fewer y (List.mem_append_right _ (List.mem_cons_of_mem x listed))
  simp only [List.countP_append, List.countP_cons, before, after, if_true,
    Bool.false_eq_true, if_false]
  omega

theorem find?_eq_of_unique {α : Type} {l : List α} {P : α → Bool} {x : α} (member : x ∈ l)
    (good : P x = true) (only : ∀ y ∈ l, P y = true → y = x) : l.find? P = some x := by
  cases found : l.find? P with
  | none => exact absurd good (List.find?_eq_none.mp found x member)
  | some y => exact congrArg some (only y (List.mem_of_find?_eq_some found) (List.find?_some found))

theorem dropWhile_eq_cons {α : Type} {l rest : List α} {P : α → Bool} {x : α}
    (left : l.dropWhile P = x :: rest) :
    ∃ front, l = front ++ x :: rest ∧ (∀ y ∈ front, P y = true) ∧ P x = false := by
  induction l with
  | nil => cases left
  | cons y l ih =>
      rw [List.dropWhile_cons] at left
      split at left
      · rename_i holds
        obtain ⟨front, rfl, all, stops⟩ := ih left
        exact ⟨y :: front, rfl, List.forall_mem_cons.mpr ⟨holds, all⟩, stops⟩
      · rename_i stops
        cases left
        exact ⟨[], rfl, by simp, by simpa using stops⟩

@[simp] theorem ok_bind {ε α β : Type} (a : α) (f : α → Except ε β) :
    (Except.ok a >>= f) = f a := rfl

/-- How many steps a walk makes that goes to all that is listed for some nodes, leaves each of it
again, and at last leaves the node above. -/
def roundTrip {α β : Type} (listed : α → List β) (l : List α) : Nat :=
  2 * (l.flatMap listed).length + 1

section RoundTrip

variable {α : Type} {listed inner : α → List α} {a : α} {l children : List α}

theorem roundTrip_cons (first : listed a = a :: children.flatMap inner) (more : Nat) :
    roundTrip listed (a :: l) + more =
      roundTrip inner children + (roundTrip listed l + more) + 1 := by
  simp only [roundTrip, List.flatMap_cons, List.length_append, first, List.length_cons]
  omega

theorem roundTrip_le {bound : Nat} (first : listed a = a :: children.flatMap inner)
    (short : (listed a).length ≤ bound) : roundTrip inner children ≤ 2 * bound := by
  rw [first, List.length_cons] at short
  rw [roundTrip]
  omega

end RoundTrip

/-- Lists for different elements are not longer together than the lists for all of them. -/
theorem length_flatMap_le {α β : Type} {l all : List α} {f : α → List β} (nodup : l.Nodup)
    (within : ∀ x ∈ l, f x ≠ [] → x ∈ all) : (l.flatMap f).length ≤ (all.flatMap f).length := by
  induction l generalizing all with
  | nil => simp
  | cons x l ih =>
      obtain ⟨fresh, nodup⟩ := List.nodup_cons.mp nodup
      obtain ⟨here, later⟩ := List.forall_mem_cons.mp within
      rw [List.flatMap_cons, List.length_append]
      by_cases none : f x = []
      · rw [none, List.length_nil, Nat.zero_add]
        exact ih nodup later
      · obtain ⟨front, back, rfl⟩ := List.append_of_mem (here none)
        have rest : (l.flatMap f).length ≤ ((front ++ back).flatMap f).length := by
          refine ih nodup fun y member some => ?_
          have other : y ≠ x := fun same => fresh (same ▸ member)
          simpa [other] using later y member some
        simp only [List.flatMap_append, List.flatMap_cons, List.length_append] at rest ⊢
        omega

theorem drop_eq_cons {α : Type} {l rest : List α} {n : Nat} {x : α} (left : l.drop n = x :: rest) :
    l[n]? = some x ∧ l.drop (n + 1) = rest := by
  rw [← List.head?_drop, ← List.tail_drop, left]
  exact ⟨rfl, rfl⟩

theorem bind_eq_ok {ε α β : Type} {x : Except ε α} {f : α → Except ε β} {r : β} :
    (x >>= f) = .ok r ↔ ∃ a, x = .ok a ∧ f a = .ok r := by
  cases x with
  | error e => simp [bind, Except.bind]
  | ok a => simp [bind, Except.bind]

theorem bind_eq_error {ε α β : Type} {x : Except ε α} {f : α → Except ε β} {e : ε} :
    (x >>= f) = .error e ↔ x = .error e ∨ ∃ a, x = .ok a ∧ f a = .error e := by
  cases x with
  | error e => simp [bind, Except.bind]
  | ok a => simp [bind, Except.bind]

instance decidableExistsOk {ε α : Type} (x : Except ε α) : Decidable (∃ a, x = .ok a) :=
  match x with
  | .ok a => .isTrue ⟨a, rfl⟩
  | .error _ => .isFalse nofun

instance decidableExistsOkAnd {ε α : Type} (x : Except ε α) (P : α → Prop) [DecidablePred P] :
    Decidable (∃ a, x = .ok a ∧ P a) :=
  match x with
  | .ok a => decidable_of_iff (P a)
      ⟨fun holds => ⟨a, rfl, holds⟩, fun ⟨_, same, holds⟩ => Except.ok.inj same ▸ holds⟩
  | .error _ => .isFalse fun ⟨_, same, _⟩ => nomatch same

theorem exists_of_any {ε α : Type} {x : Except ε α} {P : α → Bool}
    (passes : x.toOption.any P = true) : ∃ a, x = .ok a ∧ P a = true := by
  cases x with
  | error => cases passes
  | ok a => exact ⟨a, rfl, passes⟩

theorem exists_step_of_foldlM {ε α β : Type} {items : List α} {step : β → α → Except ε β}
    {start out : β} (ran : items.foldlM step start = .ok out) :
    ∀ x ∈ items, ∃ s s', step s x = .ok s' := by
  induction items generalizing start with
  | nil => simp
  | cons item items ih =>
      rw [List.foldlM_cons] at ran
      obtain ⟨mid, stepped, rest⟩ := bind_eq_ok.mp ran
      exact List.forall_mem_cons.mpr ⟨⟨start, mid, stepped⟩, ih rest⟩

/-- What every step of a fold keeps if it succeeds, the fold keeps if it succeeds. Steps are only
made for members of the list. -/
theorem foldlM_keeps_of_mem {ε α β : Type} {items : List α} {step : β → α → Except ε β}
    {start out : β} (inv : β → Prop) (ran : items.foldlM step start = .ok out) (first : inv start)
    (next : ∀ item ∈ items, ∀ state state', inv state → step state item = .ok state' → inv state') :
    inv out := by
  induction items generalizing start with
  | nil =>
      cases ran
      exact first
  | cons item items ih =>
      rw [List.foldlM_cons] at ran
      obtain ⟨mid, stepped, rest⟩ := bind_eq_ok.mp ran
      obtain ⟨here, later⟩ := List.forall_mem_cons.mp next
      exact ih rest (here start mid first stepped) later

theorem foldlM_keeps {ε α β : Type} {items : List α} {step : β → α → Except ε β} {start out : β}
    (inv : β → Prop) (ran : items.foldlM step start = .ok out) (first : inv start)
    (next : ∀ state item state', inv state → step state item = .ok state' → inv state') : inv out :=
  foldlM_keeps_of_mem inv ran first fun item _ state state' => next state item state'

/-- A fold of steps that never fail, if what each step needs holds after the one before. -/
theorem foldlM_total {ε α β : Type} (items : List α) (step : β → α → Except ε β) (start : β)
    (inv : List α → β → Prop) (first : inv [] start)
    (next : ∀ seen item rest state, items = seen ++ item :: rest → inv seen state →
      ∃ out, step state item = .ok out ∧ inv (seen ++ [item]) out) :
    ∃ out, items.foldlM step start = .ok out ∧ inv items out := by
  have loop : ∀ rest seen state, items = seen ++ rest → inv seen state →
      ∃ out, rest.foldlM step state = .ok out ∧ inv items out := by
    intro rest
    induction rest with
    | nil =>
        intro seen state whole holds
        exact ⟨state, rfl, by simpa [whole] using holds⟩
    | cons item rest ih =>
        intro seen state whole holds
        obtain ⟨mid, stepped, holds⟩ := next seen item rest state whole holds
        obtain ⟨out, finished, final⟩ := ih (seen ++ [item]) mid (by simpa using whole) holds
        exact ⟨out, by rw [List.foldlM_cons, stepped]; exact finished, final⟩
  exact loop items [] start rfl first

end MemoryFlow
