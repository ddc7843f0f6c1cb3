import Mathlib.Data.List.Basic

/-! # Routes and dominance

A route goes from one point to another along a relation and lists every point it passes, both ends
included. A point dominates another, as seen from a root, when every route from the root to the
other passes through it. Nothing here depends on what the points are: blocks, numbered vertices and
memory accesses all have routes.
-/

namespace MemoryFlow

/-- A way along `edge` with the points it passes. -/
inductive Route {α : Type} (edge : α → α → Prop) : α → α → List α → Prop where
  /-- The way that stays where it is. -/
  | here (a : α) : Route edge a a [a]
  /-- One step, and on from there. -/
  | step {a b c : α} {l : List α} : edge a b → Route edge b c l → Route edge a c (a :: l)

namespace Route

variable {α : Type} {edge : α → α → Prop} {a b c x : α} {l m pre post : List α}

theorem start_mem (r : Route edge a b l) : a ∈ l := by
  cases r <;> simp

theorem finish_mem (r : Route edge a b l) : b ∈ l := by
  induction r with
  | here => simp
  | step _ _ ih => exact List.mem_cons_of_mem _ ih

theorem cons_start (r : Route edge a b (x :: l)) : x = a := by
  cases r <;> rfl

theorem mono {edge' : α → α → Prop} (sub : ∀ u v, edge u v → edge' u v) (r : Route edge a b l) :
    Route edge' a b l := by
  induction r with
  | here => exact .here _
  | step e _ ih => exact .step (sub _ _ e) ih

theorem first_step (r : Route edge a c (x :: l)) (some_step : l ≠ []) :
    ∃ b, edge a b ∧ Route edge b c l := by
  cases r with
  | here => exact absurd rfl some_step
  | step e rest => exact ⟨_, e, rest⟩

theorem split (r : Route edge a c (pre ++ x :: post)) :
    Route edge a x (pre ++ [x]) ∧ Route edge x c (x :: post) := by
  induction pre generalizing a with
  | nil =>
      cases r.cons_start
      exact ⟨.here _, r⟩
  | cons y pre ih =>
      obtain ⟨b, e, rest⟩ := r.first_step (by simp)
      cases r.cons_start
      exact ⟨.step e (ih rest).1, (ih rest).2⟩

theorem join (front : Route edge a x (pre ++ [x])) (back : Route edge x c (x :: post)) :
    Route edge a c (pre ++ x :: post) := by
  induction pre generalizing a with
  | nil =>
      cases front.cons_start
      exact back
  | cons y pre ih =>
      obtain ⟨b, e, rest⟩ := front.first_step (by simp)
      cases front.cons_start
      exact .step e (ih rest)

theorem ends (r : Route edge a b l) : ∃ init, l = init ++ [b] := by
  induction r with
  | here => exact ⟨[], rfl⟩
  | step _ _ ih =>
      obtain ⟨init, same⟩ := ih
      exact ⟨_ :: init, by rw [same]; rfl⟩

theorem begins (r : Route edge a b l) : ∃ tail, l = a :: tail := by
  cases r with
  | here => exact ⟨[], rfl⟩
  | step => exact ⟨_, rfl⟩

theorem snoc (front : Route edge a b l) (e : edge b c) : Route edge a c (l ++ [c]) := by
  obtain ⟨init, rfl⟩ := front.ends
  simpa using front.join (.step e (.here c))

theorem reverse (r : Route edge a b l) : Route (fun x y => edge y x) b a l.reverse := by
  induction r with
  | here a => exact .here a
  | step e _ ih =>
      rw [List.reverse_cons]
      exact ih.snoc e

theorem last_step (r : Route edge a c (l ++ [c])) (some_step : l ≠ []) :
    ∃ b, edge b c ∧ Route edge a b l := by
  obtain ⟨init, b, rfl⟩ := List.eq_nil_or_concat l |>.resolve_left some_step
  rw [List.concat_append] at r
  obtain ⟨d, e, rest⟩ := r.split.2.first_step (by simp)
  cases rest.cons_start
  exact ⟨b, e, by simpa using r.split.1⟩

end Route

theorem exists_last {α : Type} {P : α → Prop} {l : List α} (some_member : ∃ x ∈ l, P x) :
    ∃ pre x post, l = pre ++ x :: post ∧ P x ∧ ∀ y ∈ post, ¬P y := by
  induction l with
  | nil => simp at some_member
  | cons z l ih =>
      by_cases later : ∃ x ∈ l, P x
      · obtain ⟨pre, x, post, rfl, holds, after⟩ := ih later
        exact ⟨z :: pre, x, post, rfl, holds, after⟩
      · obtain ⟨x, member, holds⟩ := some_member
        rcases List.mem_cons.mp member with rfl | member
        · exact ⟨[], x, l, rfl, holds, fun y inside bad => later ⟨y, inside, bad⟩⟩
        · exact absurd ⟨x, member, holds⟩ later

def Reaches {α : Type} (edge : α → α → Prop) (root a : α) : Prop :=
  ∃ l, Route edge root a l

/-- Whether every route from `root` to `b` passes through `a`. -/
def Dominates {α : Type} (edge : α → α → Prop) (root a b : α) : Prop :=
  ∀ l, Route edge root b l → a ∈ l

/-- Whether `a` is the nearest proper dominator of `b`. -/
def IsIdom {α : Type} (edge : α → α → Prop) (root a b : α) : Prop :=
  a ≠ b ∧ Dominates edge root a b ∧ ∀ d, d ≠ b → Dominates edge root d b → Dominates edge root d a

namespace Reaches

variable {α : Type} {edge : α → α → Prop} {root a b : α}

theorem self : Reaches edge root root := ⟨_, .here _⟩

theorem step (reached : Reaches edge root a) (e : edge a b) : Reaches edge root b := by
  obtain ⟨l, r⟩ := reached
  exact ⟨_, r.snoc e⟩

theorem eq_or_edge (reached : Reaches edge root a) : a = root ∨ ∃ b, edge b a := by
  obtain ⟨l, r⟩ := reached
  induction r with
  | here => exact .inl rfl
  | step e _ ih =>
      rcases ih with rfl | into
      · exact .inr ⟨_, e⟩
      · exact .inr into

end Reaches

/-- Whether `b` can be reached from `root` past `a`. -/
inductive Avoids {α : Type} (edge : α → α → Prop) (root a : α) : α → Prop where
  | start : root ≠ a → Avoids edge root a root
  | step {b c : α} : Avoids edge root a b → edge b c → c ≠ a → Avoids edge root a c

namespace Avoids

variable {α : Type} {edge : α → α → Prop} {root a b : α} {l : List α}

theorem of_route {x : α} (front : Avoids edge root a x) (r : Route edge x b l) (missed : a ∉ l) :
    Avoids edge root a b := by
  induction r with
  | here => exact front
  | step e rest ih =>
      simp only [List.mem_cons, not_or] at missed
      refine ih (front.step e ?_) missed.2
      rintro rfl
      exact missed.2 rest.start_mem

theorem route (avoids : Avoids edge root a b) : ∃ l, Route edge root b l ∧ a ∉ l := by
  induction avoids with
  | start other => exact ⟨_, .here _, by simpa using other.symm⟩
  | step _ e other ih =>
      obtain ⟨l, r, missed⟩ := ih
      exact ⟨_, r.snoc e, by simpa [missed] using other.symm⟩

end Avoids

namespace Dominates

variable {α : Type} {edge : α → α → Prop} {root a b c : α}

theorem not_iff_avoids : ¬Dominates edge root a b ↔ Avoids edge root a b := by
  constructor
  · intro missed
    simp only [Dominates, not_forall] at missed
    obtain ⟨l, r, absent⟩ := missed
    refine .of_route (.start ?_) r absent
    rintro rfl
    exact absent r.start_mem
  · intro avoids dom
    obtain ⟨l, r, absent⟩ := avoids.route
    exact absent (dom l r)

theorem refl : Dominates edge root a a := fun _ r => r.finish_mem

theorem from_root : Dominates edge root root a := fun _ r => r.start_mem

theorem trans (first : Dominates edge root a b) (second : Dominates edge root b c) :
    Dominates edge root a c := by
  intro l r
  obtain ⟨pre, post, rfl⟩ := List.append_of_mem (second l r)
  have front := first _ r.split.1
  simp only [List.mem_append, List.mem_cons, List.not_mem_nil, or_false] at front ⊢
  tauto

theorem reaches (dom : Dominates edge root a b) (reached : Reaches edge root b) :
    Reaches edge root a := by
  obtain ⟨l, r⟩ := reached
  obtain ⟨pre, post, rfl⟩ := List.append_of_mem (dom l r)
  exact ⟨_, r.split.1⟩

theorem of_edge (dom : Dominates edge root a b) (e : edge c b) (other : a ≠ b) :
    Dominates edge root a c := by
  intro l r
  have member := dom _ (r.snoc e)
  simpa [other] using member

theorem antisymm (reached : Reaches edge root b) (ab : Dominates edge root a b)
    (ba : Dominates edge root b a) : a = b := by
  by_contra other
  obtain ⟨l, r⟩ := reached
  -- Cutting a route to `b` at `a`, and that at `b` again, would make it shorter for ever.
  induction size : l.length using Nat.strongRecOn generalizing l with
  | _ n ih =>
      obtain ⟨pre, post, rfl⟩ := List.append_of_mem (ab l r)
      have member := ba _ r.split.1
      obtain ⟨pre', post', same⟩ := List.append_of_mem member
      have shorter : (pre' ++ [b]).length < n := by
        have lengths := congrArg List.length same
        have tail : post' ≠ [] := by
          rintro rfl
          exact other (by simpa using congrArg List.getLast? same)
        have positive := List.length_pos_iff.mpr tail
        simp only [List.length_append, List.length_cons, List.length_nil] at lengths size ⊢
        omega
      have front := r.split.1
      rw [same] at front
      exact ih _ shorter _ front.split.1 rfl

/-- A dominator that a route misses is on whatever goes on from there. -/
theorem mem_later {l post : List α} (dom : Dominates edge root a c) (front : Route edge root b l)
    (missed : a ∉ l) (back : Route edge b c (b :: post)) : a ∈ post := by
  obtain ⟨init, rfl⟩ := front.ends
  have member := dom _ (front.join back)
  simp only [List.mem_append, List.mem_cons, List.not_mem_nil, or_false] at member missed
  tauto

/-- After the last visit to a point whose dominance ends with an edge, a route to that edge meets no
dominator of where the edge leads. -/
theorem not_mem_after {d y z : α} {pre post : List α}
    (arrives : Route edge root y (pre ++ b :: post))
    (fresh : b ∉ post) (dom : Dominates edge root b y) (e : edge y z)
    (leaves : b = z ∨ ¬Dominates edge root b z) (other : d ≠ z) (above : Dominates edge root d z) :
    d ∉ b :: post := by
  intro member
  rcases List.mem_cons.mp member with rfl | later
  · exact leaves.elim other fun not => not above
  · by_cases under : Dominates edge root b d
    · obtain rfl := leaves.resolve_right fun not => not (under.trans above)
      exact other (above.antisymm (Reaches.step ⟨_, arrives⟩ e) under)
    · -- From `d`, reached past `b`, the route goes on to `y` without `b`.
      obtain ⟨l, front, missed⟩ := (not_iff_avoids.mp under).route
      obtain ⟨mid, rest, rfl⟩ := List.append_of_mem later
      have onward : Route edge b y ((b :: mid) ++ d :: rest) := arrives.split.2
      have again := dom.mem_later front missed onward.split.2
      exact fresh (List.mem_append_right _ (List.mem_cons_of_mem _ again))

/-- What does not properly dominate a point can be kept off the way there. -/
theorem exists_way (reached : Reaches edge root b) (free : Dominates edge root a b → a = b) :
    ∃ way, Route edge root b (way ++ [b]) ∧ a ∉ way := by
  by_cases same : a = b
  · obtain ⟨l, r⟩ := reached
    obtain ⟨way, post, rfl, fresh⟩ := List.eq_append_cons_of_mem r.finish_mem
    exact ⟨way, r.split.1, same ▸ fresh⟩
  · obtain ⟨l, r, missed⟩ := (not_iff_avoids.mp fun dom => same (free dom)).route
    obtain ⟨way, rfl⟩ := r.ends
    exact ⟨way, r, fun member => missed (List.mem_append_left _ member)⟩

theorem chain (reached : Reaches edge root c) (ac : Dominates edge root a c)
    (bc : Dominates edge root b c) : Dominates edge root a b ∨ Dominates edge root b a := by
  by_contra neither
  simp only [not_or, Dominates, not_forall] at neither
  obtain ⟨⟨l, toB, avoidsA⟩, ⟨m, toA, avoidsB⟩⟩ := neither
  obtain ⟨w, r⟩ := reached
  -- Past the last of the two on a route to the third, the other cannot be missed any more.
  obtain ⟨pre, x, post, rfl, which, after⟩ :=
    exists_last (P := fun x => x = a ∨ x = b) ⟨a, ac w r, .inl rfl⟩
  rcases which with rfl | rfl
  · exact after _ (bc.mem_later toA avoidsB r.split.2) (.inr rfl)
  · exact after _ (ac.mem_later toB avoidsA r.split.2) (.inl rfl)

end Dominates

end MemoryFlow
