import Mathlib.Logic.Function.Iterate
import MemoryFlow.Proofs.Dominance.Tree

/-! # Shortened paths

Evaluating a vertex shortens paths, while later evaluations still climb them. To say that none of
them can tell, the treatment of the vertices is taken apart into single steps, and run twice: once
as it is, once with paths shortened at some moment. The two runs stay in step, with the same
semidominators (`Stage.Alike`). They may find different vertices, but never vertices with different
semidominators.
-/

namespace MemoryFlow.Links

variable {s : Spanning} {l l' : Links} {bound u v : Nat}

structure Stage where
  /-- The vertex that is treated. -/
  vertex : Nat
  /-- The sources of edges to it that have not been looked at. -/
  sources : List Nat
  /-- What was found from the last source, until it has been used. -/
  found : Option Nat
  links : Links

namespace Stage

def start (s : Spanning) : Stage :=
  ⟨s.vertices.size, [], none, .ofSpanning s⟩

/-- One step: use what was found, or look at the next source, or go on to the next lower vertex. -/
def next (s : Spanning) : Stage → Stage
  | ⟨v, sources, some u, l⟩ =>
      ⟨v, sources, none, if l.semi u < l.semi v then l.setSemi v (l.semi u) else l⟩
  | ⟨v, source :: sources, none, l⟩ =>
      ⟨v, sources, some (l.eval (v + 1) source).1, (l.eval (v + 1) source).2⟩
  | ⟨v + 2, [], none, l⟩ => ⟨v + 1, s.sources (v + 1), none, l.setSemi (v + 1) (l.ancestor (v + 1))⟩
  | t => t

def eval (t : Stage) (v : Nat) : Nat × Links :=
  t.links.eval (t.vertex + 1) v

def compress (t : Stage) (v : Nat) : Stage :=
  { t with links := (t.eval v).2 }

end Stage

section Treatment

theorem iterate_two (sources : List Nat) :
    (Stage.next s)^[2] ⟨v, u :: sources, none, l⟩ = ⟨v, sources, none, relax v l u⟩ := rfl

theorem iterate_relax (sources : List Nat) (l : Links) :
    (Stage.next s)^[2 * sources.length] ⟨v, sources, none, l⟩ =
      ⟨v, [], none, sources.foldl (relax v) l⟩ := by
  induction sources generalizing l with
  | nil => rfl
  | cons u sources ih =>
      rw [List.length_cons, Nat.mul_succ, Function.iterate_add_apply, iterate_two]
      exact ih (relax v l u)

theorem iterate_treat (v : Nat) (l : Links) :
    (Stage.next s)^[2 * (s.sources (v + 1)).length + 1] ⟨v + 2, [], none, l⟩ =
      ⟨v + 1, [], none, treat s (v + 1) l⟩ := by
  rw [Function.iterate_succ_apply]
  exact iterate_relax _ _

theorem iterate_treatFrom (v : Nat) (l : Links) :
    ∃ n, (Stage.next s)^[n] ⟨v + 1, [], none, l⟩ = ⟨1, [], none, treatFrom s v l⟩ := by
  induction v generalizing l with
  | zero => exact ⟨0, rfl⟩
  | succ v ih =>
      obtain ⟨n, rest⟩ := ih (treat s (v + 1) l)
      refine ⟨n + (2 * (s.sources (v + 1)).length + 1), ?_⟩
      rw [Function.iterate_add_apply, iterate_treat, rest]
      rfl

end Treatment

theorem semis_shorten (above least : Nat) (passed : List Nat) :
    (l.shorten above least passed).semis = l.semis := by
  induction passed generalizing l above least with
  | nil => rfl
  | cons v passed ih =>
      rw [shorten]
      dsimp only
      split <;> rw [ih]

theorem semis_eval (bound v : Nat) : (l.eval bound v).2.semis = l.semis := by
  rw [Links.eval]
  split
  · rfl
  · exact semis_shorten ..

theorem semi_congr (same : l'.semis = l.semis) (v : Nat) : l'.semi v = l.semi v := by
  rw [semi, semi, same]

/-- What is found has the same semidominator in any forest of the same treated vertices. -/
theorem Linked.semi_eval (df : s.DepthFirst) (k : Linked s (v + 1) l) (k' : Linked s (v + 1) l')
    (same : l'.semis = l.semis) (inside : u < s.vertices.size) :
    l'.semi (l'.eval (v + 1) u).1 = l.semi (l.eval (v + 1) u).1 := by
  obtain ⟨_, self, least⟩ := eval_least df k inside
  obtain ⟨_, self', least'⟩ := eval_least df k' inside
  rcases Nat.lt_or_ge v u with high | low
  · obtain ⟨later, above, min⟩ := least high
    obtain ⟨later', above', min'⟩ := least' high
    have forth := min _ above' later'
    have back := min' _ above later
    simp only [semi_congr same] at back ⊢
    exact Nat.le_antisymm back forth
  · rw [self low, self' low, semi_congr same]

namespace Stage

variable {t t' : Stage}

structure Sound (s : Spanning) (t : Stage) : Prop where
  linked : Linked s (t.vertex + 1) t.links
  sources : ∀ u ∈ t.sources, u < s.vertices.size
  /-- Only before the first step is there no vertex being treated. -/
  inside : t.sources ≠ [] ∨ t.found ≠ none → t.vertex < s.vertices.size
  top : t.vertex ≤ s.vertices.size

structure Alike (s : Spanning) (t t' : Stage) : Prop where
  sound : t.Sound s
  sound' : t'.Sound s
  vertex : t'.vertex = t.vertex
  sources : t'.sources = t.sources
  semis : t'.links.semis = t.links.semis
  found : t'.found.map t'.links.semi = t.found.map t.links.semi

theorem Sound.start (s : Spanning) : (start s).Sound s where
  linked := by
    have k := (Treated.ofSpanning s).linked
    exact { k with
      untreated := fun v _ inside => k.untreated v inside inside
      treated := fun v up inside => absurd inside (Nat.not_lt.mpr (Nat.le_of_succ_le up)) }
  sources := by simp [Stage.start]
  inside := by simp [Stage.start]
  top := Nat.le_refl _

theorem Sound.next (df : s.DepthFirst) (h : t.Sound s) : (t.next s).Sound s := by
  obtain ⟨v, sources, found, l⟩ := t
  cases found with
  | some u =>
      have inside := h.inside (.inr (by simp))
      refine ⟨?_, h.sources, fun _ => inside, h.top⟩
      dsimp only [Stage.next]
      split
      · exact h.linked.setSemi inside _
      · exact h.linked
  | none =>
      cases sources with
      | cons source sources =>
          have inside := h.inside (.inl (by simp))
          obtain ⟨known, rest⟩ := List.forall_mem_cons.mp h.sources
          obtain ⟨c, _⟩ := eval_least df h.linked known
          exact ⟨c.linked, rest, fun _ => inside, h.top⟩
      | nil =>
          rcases v with _ | _ | v
          · exact h
          · exact h
          · have inside : v + 1 < s.vertices.size := h.top
            refine ⟨?_, fun u edge => df.source_lt u _ edge, fun _ => inside, Nat.le_of_lt inside⟩
            exact (h.linked.link df (Nat.succ_pos _)).setSemi inside _

theorem Alike.next (df : s.DepthFirst) (alike : Alike s t t') : Alike s (t.next s) (t'.next s) := by
  obtain ⟨h, h', sameVertex, sameSources, semis, sameFound⟩ := alike
  have sound := h.next df
  have sound' := h'.next df
  obtain ⟨v, sources, found, l⟩ := t
  obtain ⟨v', sources', found', l'⟩ := t'
  dsimp only at sameVertex sameSources semis sameFound
  subst sameVertex sameSources
  cases found with
  | some u =>
      obtain ⟨u', rfl, value⟩ := Option.map_eq_some_iff.mp sameFound
      refine ⟨sound, sound', rfl, rfl, ?_, rfl⟩
      -- Both compare the same numbers, and both set the same one.
      simp only [Stage.next, value, semi_congr semis]
      split
      · simp only [setSemi, semis]
      · exact semis
  | none =>
      obtain rfl := Option.map_eq_none_iff.mp sameFound
      cases sources' with
      | cons source sources =>
          obtain ⟨known, _⟩ := List.forall_mem_cons.mp h.sources
          refine ⟨sound, sound', rfl, rfl, ?_, ?_⟩
          · exact (semis_eval _ _).trans (semis.trans (semis_eval _ _).symm)
          · have value := h.linked.semi_eval df h'.linked semis known
            simp only [Stage.next, Option.map_some, semi_congr (semis_eval _ _), value]
      | nil =>
          rcases v' with _ | _ | v
          · exact ⟨sound, sound', rfl, rfl, semis, rfl⟩
          · exact ⟨sound, sound', rfl, rfl, semis, rfl⟩
          · refine ⟨sound, sound', rfl, rfl, ?_, rfl⟩
            -- The paths from a vertex that is not treated have not been shortened.
            have low : v + 1 < v + 2 + 1 := by omega
            have parent := (h.linked.untreated (v + 1) low h.top).1
            have parent' := (h'.linked.untreated (v + 1) low h'.top).1
            simp only [Stage.next, setSemi, semis, parent, parent']

theorem Alike.iterate (df : s.DepthFirst) (alike : Alike s t t') (n : Nat) :
    Alike s ((Stage.next s)^[n] t) ((Stage.next s)^[n] t') := by
  induction n generalizing t t' with
  | zero => exact alike
  | succ n ih => exact ih (alike.next df)

theorem Sound.iterate (df : s.DepthFirst) (n : Nat) :
    ((Stage.next s)^[n] (Stage.start s)).Sound s := by
  induction n with
  | zero => exact .start s
  | succ n ih =>
      rw [Function.iterate_succ_apply']
      exact ih.next df

theorem Sound.compress (df : s.DepthFirst) (h : t.Sound s) (inside : v < s.vertices.size) :
    Alike s t (t.compress v) := by
  obtain ⟨c, _⟩ := eval_least df h.linked inside
  refine ⟨h, ⟨c.linked, h.sources, h.inside, h.top⟩, rfl, rfl, semis_eval _ _, ?_⟩
  exact Option.map_congr fun u _ => semi_congr (semis_eval _ _) u

theorem Alike.semi_eval (df : s.DepthFirst) (alike : Alike s t t') (inside : v < s.vertices.size) :
    t'.links.semi (t'.eval v).1 = t.links.semi (t.eval v).1 := by
  have linked' := alike.sound'.linked
  rw [Stage.eval, Stage.eval, alike.vertex]
  rw [alike.vertex] at linked'
  exact alike.sound.linked.semi_eval df linked' alike.semis inside

end Stage

open Stage

/-- At every moment of the treatment, in either direction, a vertex evaluates to itself if it is not
above the vertex that is treated, and otherwise to one with the least value among itself and its
ancestors above that. The paths that are shortened by it change no value now or later, and no value
found later. -/
theorem eval_unaffected_by_compression (g : FlowGraph) (entry : Block) (direction : Direction) :
    let s := Spanning.ofFlow g entry direction
    (∃ n, (next s)^[n] (start s) =
      ⟨1, [], none, treatFrom s (s.vertices.size - 1) (.ofSpanning s)⟩) ∧
    ∀ n v, v < s.vertices.size →
      let t := (next s)^[n] (start s)
      (v ≤ t.vertex → (t.eval v).1 = v) ∧
      (t.vertex < v → t.vertex < (t.eval v).1 ∧ Ancestor s.parent (t.eval v).1 v ∧
        ∀ x, Ancestor s.parent x v → t.vertex < x → t.links.semi (t.eval v).1 ≤ t.links.semi x) ∧
      (t.compress v).links.semis = t.links.semis ∧
      ∀ later w, w < s.vertices.size →
        let t₁ := (next s)^[later] t
        let t₂ := (next s)^[later] (t.compress v)
        t₂.vertex = t₁.vertex ∧ t₂.links.semis = t₁.links.semis ∧
          t₂.links.semi (t₂.eval w).1 = t₁.links.semi (t₁.eval w).1 := by
  intro s
  obtain ⟨_, _, e, _⟩ := Spanning.ofFlow_exhaustive g entry direction
  have df : s.DepthFirst := e.toDepthFirst
  refine ⟨?_, fun n v inside => ?_⟩
  · have size : s.vertices.size - 1 + 1 = s.vertices.size := Nat.sub_add_cancel e.rooted
    rw [start, ← size]
    exact iterate_treatFrom _ _
  · intro t
    have sound : t.Sound s := .iterate df n
    obtain ⟨_, self, least⟩ := eval_least df sound.linked inside
    refine ⟨self, least, semis_eval _ _, fun later w known => ?_⟩
    have alike := (sound.compress df inside).iterate df later
    exact ⟨alike.vertex, alike.semis, alike.semi_eval df known⟩

/-- A chain of blocks, the last of which leads back to the second. -/
def backEdge : FlowGraph :=
  ⟨[⟨⟨0⟩, [⟨1⟩]⟩, ⟨⟨1⟩, [⟨2⟩]⟩, ⟨⟨2⟩, [⟨3⟩]⟩, ⟨⟨3⟩, [⟨1⟩]⟩]⟩

/-- When the second block of the chain is treated, evaluating the last does shorten a path. -/
theorem eval_unaffected_by_compression_backEdge :
    let s := Spanning.ofFlow backEdge ⟨0⟩ .forward
    let t := (next s)^[7] (start s)
    t.vertex = 1 ∧ (t.eval 3).1 = 2 ∧ (t.compress 3).links ≠ t.links ∧
      Ancestor s.parent 2 3 ∧
      (∀ x, Ancestor s.parent x 3 → 1 < x → t.links.semi 2 ≤ t.links.semi x) ∧
      (t.compress 3).links.semis = t.links.semis ∧
      ∀ later w, w < s.vertices.size →
        let t₁ := (next s)^[later] t
        let t₂ := (next s)^[later] (t.compress 3)
        t₂.vertex = t₁.vertex ∧ t₂.links.semis = t₁.links.semis ∧
          t₂.links.semi (t₂.eval w).1 = t₁.links.semi (t₁.eval w).1 := by
  intro s t
  have vertex : t.vertex = 1 := by decide +kernel
  have found : (t.eval 3).1 = 2 := by decide +kernel
  obtain ⟨_, least, semis, unaffected⟩ :=
    (eval_unaffected_by_compression backEdge ⟨0⟩ .forward).2 7 3 (by decide +kernel)
  obtain ⟨_, above, min⟩ := least (show t.vertex < 3 by omega)
  refine ⟨vertex, found, by decide +kernel, ?_, ?_, semis, unaffected⟩
  · exact found ▸ above
  · exact vertex ▸ found ▸ min

end MemoryFlow.Links
