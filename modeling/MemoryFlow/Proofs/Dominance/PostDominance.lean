import MemoryFlow.Proofs.Dominance.Tree

/-! # Post-dominance

A block post-dominates another when every way from the other to a root passes through it. The roots
are the exits, and for each part of the procedure that control cannot leave one block of it. A
backward traversal numbers what comes to a root; later parts of it may lead back into earlier ones,
but a way past a vertex from the virtual root is always a way to a root past its block, read
backwards.
-/

namespace MemoryFlow

/-- Whether every way from `b` to a root passes through `a`. -/
def FlowGraph.PostDominates (g : FlowGraph) (roots : List Block) (a b : Block) : Prop :=
  ∀ r ∈ roots, ∀ l, Route g.Edge b r l → a ∈ l

def FlowGraph.Step (g : FlowGraph) (direction : Direction) (a b : Block) : Prop :=
  b ∈ g.next direction a

/-- A way to a root is a way from the root backwards, as long as no block is placed twice. -/
theorem FlowGraph.postDominates_iff {g : FlowGraph} (distinct : g.blocks.Nodup) {roots : List Block}
    {a b : Block} : g.PostDominates roots a b ↔
      ∀ r ∈ roots, Dominates (g.Step .backward) r a b := by
  constructor
  · intro post r root l way
    have back := way.reverse.mono fun x y edge => (mem_preds distinct).mp edge
    exact List.mem_reverse.mp (post r root _ back)
  · intro dom r root l way
    have back := way.reverse.mono fun x y edge => (mem_preds distinct).mpr edge
    exact List.mem_reverse.mp (dom r root _ back)

namespace Spanning.Backward

variable {g : FlowGraph} {s : Spanning} {a b r : Block} {d v : Nat}

/-- What comes to `v` past `d` comes from a root to the block of `v` past the block of `d`, if it
has one. -/
theorem exists_way (back : s.Backward g) (only : ∀ x, s.block? x = some a → x = d)
    (avoids : Avoids s.Edge 0 d v) (found : s.block? v = some b) :
    ∃ r ∈ s.roots, Avoids (g.Step .backward) r a b := by
  induction avoids generalizing b with
  | start => simp [back.virtual] at found
  | @step u v _ edge other ih =>
      have apart : b ≠ a := fun same => other (only v (same ▸ found))
      obtain ⟨c, target, ⟨from_, source, leads⟩ | ⟨_, start⟩⟩ := back.genuine u v edge
      · obtain rfl := Option.some.inj (found.symm.trans target)
        obtain ⟨r, root, front⟩ := ih source
        exact ⟨r, root, front.step (List.mem_reverse.mp leads) apart⟩
      · obtain rfl := Option.some.inj (found.symm.trans target)
        exact ⟨b, start, .start apart⟩

theorem avoids_of_way (back : s.Backward g) (hd : s.block? d = some a) (root : r ∈ s.roots)
    (way : Avoids (g.Step .backward) r a b) : ∃ v, s.block? v = some b ∧ Avoids s.Edge 0 d v := by
  have apart : ∀ {v x}, s.block? v = some x → x ≠ a → v ≠ d := by
    rintro v x found other rfl
    exact other (Option.some.inj (found.symm.trans hd))
  induction way with
  | start other =>
      obtain ⟨v, found, edge⟩ := back.started r root
      have virtual : 0 ≠ d := by
        rintro rfl
        simp [back.virtual] at hd
      exact ⟨v, found, .step (.start virtual) edge (apart found other)⟩
  | @step b c _ leads other ih =>
      obtain ⟨u, source, front⟩ := ih
      obtain ⟨v, found, edge⟩ :=
        back.finished u (lt_of_block? source) b source c (List.mem_reverse.mpr leads)
      exact ⟨v, found, front.step edge (apart found other)⟩

theorem dominates_iff_from_roots (back : s.Backward g) (hd : s.block? d = some a)
    (hv : s.block? v = some b) :
    Dominates s.Edge 0 d v ↔ ∀ r ∈ s.roots, Dominates (g.Step .backward) r a b := by
  constructor
  · intro dom r root
    by_contra missed
    obtain ⟨w, found, avoids⟩ := back.avoids_of_way hd root (Dominates.not_iff_avoids.mp missed)
    obtain rfl := back.distinct w v b found hv
    exact Dominates.not_iff_avoids.mpr avoids dom
  · intro dom
    by_contra missed
    obtain ⟨r, root, avoids⟩ := back.exists_way (fun x found => back.distinct x d a found hd)
      (Dominates.not_iff_avoids.mp missed) hv
    exact Dominates.not_iff_avoids.mpr avoids (dom r root)

theorem dominates_iff (back : s.Backward g) (distinct : g.blocks.Nodup) (hd : s.block? d = some a)
    (hv : s.block? v = some b) : Dominates s.Edge 0 d v ↔ g.PostDominates s.roots a b :=
  (back.dominates_iff_from_roots hd hv).trans (FlowGraph.postDominates_iff distinct).symm

theorem numbered_of_dominates (back : s.Backward g) (hv : s.block? v = some b)
    (dom : ∀ r ∈ s.roots, Dominates (g.Step .backward) r a b) : ∃ u, s.block? u = some a := by
  by_contra unknown
  -- No vertex is numbered `s.vertices.size`, so every way from the virtual root is a way past it.
  have free : ¬Dominates s.Edge 0 s.vertices.size v := fun dom =>
    Nat.not_le.mpr (lt_of_block? hv) (back.dominator_le (lt_of_block? hv) dom)
  obtain ⟨r, root, avoids⟩ := back.exists_way (fun x found => absurd ⟨x, found⟩ unknown)
    (Dominates.not_iff_avoids.mp free) hv
  exact Dominates.not_iff_avoids.mpr avoids (dom r root)

/-- The immediate dominator of a vertex is the virtual root just if its block is post-dominated by
no other. -/
theorem idom_virtual_iff (back : s.Backward g) (distinct : g.blocks.Nodup)
    (hv : s.block? v = some b) :
    s.block? (Tree.up s v) = none ↔ ¬∃ a, a ≠ b ∧ g.PostDominates s.roots a b := by
  have inside := lt_of_block? hv
  have positive : 0 < v := by
    rw [Nat.pos_iff_ne_zero]
    rintro rfl
    simp [back.virtual] at hv
  obtain ⟨other, dom, nearest⟩ := idoms_isIdom back.toDepthFirst positive inside
  have lower : Tree.up s v < v := idoms_lt back.toDepthFirst positive
  constructor
  · rintro virtual ⟨a, apart, post⟩
    obtain ⟨u, hu⟩ := back.numbered_of_dominates hv ((FlowGraph.postDominates_iff distinct).mp post)
    have differs : u ≠ v := by
      rintro rfl
      exact apart (Option.some.inj (hu.symm.trans hv))
    have zero : Tree.up s v = 0 := by
      by_contra positive
      obtain ⟨c, found⟩ := back.block?_of_pos (Nat.pos_of_ne_zero positive) (by omega)
      simp [virtual] at found
    have above : Dominates s.Edge 0 u (Tree.up s v) :=
      nearest u differs ((back.dominates_iff distinct hu hv).mpr post)
    rw [zero] at above
    rw [List.mem_singleton.mp (above [0] (.here 0)), back.virtual] at hu
    cases hu
  · intro alone
    cases found : s.block? (Tree.up s v) with
    | none => rfl
    | some a =>
        refine absurd ⟨a, ?_, (back.dominates_iff distinct found hv).mp dom⟩ alone
        rintro rfl
        exact other (back.distinct _ _ a found hv)

end Spanning.Backward

namespace Tree

/-- The post-dominator tree of a procedure with blocks, none of them placed twice. Nothing else is
asked of the procedure: control may run in circles for ever, and a block may lead to blocks that are
not placed. -/
theorem ofFlow_postdominance (p : Procedure) (placed : p.layout.blocks ≠ [])
    (distinct : p.layout.blocks.Nodup) :
    ∃ t, ofFlow (.ofProcedure p) .backward = .ok t ∧
      (∀ b ∈ p.layout.blocks, t.contains b = true) ∧
      (∃ n, t.node? root = some n ∧ n.block = none) ∧
      (∀ a ∈ p.layout.blocks, ∀ b ∈ p.layout.blocks, t.dominates a b = true ↔
        ∀ r ∈ t.roots, ∀ l, Route (FlowGraph.ofProcedure p).Edge b r l → a ∈ l) ∧
      ∀ b ∈ p.layout.blocks, t.idom? b = none ↔
        ¬∃ a, a ≠ b ∧ ∀ r ∈ t.roots, ∀ l, Route (FlowGraph.ofProcedure p).Edge b r l → a ∈ l := by
  let g := FlowGraph.ofProcedure p
  obtain ⟨entry, first⟩ := Option.isSome_iff_exists.mp (List.isSome_head?.mpr placed)
  rw [← FlowGraph.blocks_ofProcedure] at distinct ⊢
  obtain ⟨back, numbered⟩ := Spanning.backward_backward g
  refine ⟨ofSpanning .backward (.backward g), ?_, ?_, ?_, ?_, ?_⟩
  · rw [ofFlow, FlowGraph.entry_ofProcedure, show p.entry = some entry from first]
    rfl
  · intro b member
    obtain ⟨v, found⟩ := numbered b member
    simp [contains, nodeId?_ofSpanning, back.number?.mpr found]
  · have virtual := back.virtual
    rw [Spanning.block?, Array.getElem?_eq_getElem back.rooted] at virtual
    rw [node?_ofSpanning, root, Array.getElem?_eq_getElem back.rooted]
    exact ⟨_, rfl, virtual⟩
  · intro a memberA b memberB
    obtain ⟨u, hu⟩ := numbered a memberA
    obtain ⟨v, hv⟩ := numbered b memberB
    rw [dominates_ofSpanning back.toFound hu hv]
    exact (Spanning.dominates_iff_ancestor back.toDepthFirst (Spanning.lt_of_block? hv)).symm.trans
      (back.dominates_iff distinct hu hv)
  · intro b member
    obtain ⟨v, hv⟩ := numbered b member
    have positive : v ≠ 0 := by
      rintro rfl
      simp [back.virtual] at hv
    obtain ⟨vertex, found⟩ := find?_ofSpanning .backward back.toFound hv
    have idom : (ofSpanning .backward (.backward g)).idom? b =
        Spanning.block? (.backward g) (up (.backward g) v) := by
      simp [idom?, found, nodeFor, positive, blockOf?_ofSpanning]
    rw [idom]
    exact back.idom_virtual_iff distinct hv

/-- A choice between an exit and two loops, the first of which leads to the second. -/
def exitOrLoops : Procedure where
  name := "loops"
  insts := #[⟨.jump ⟨1⟩, none⟩, ⟨.branch ⟨0⟩ ⟨2⟩ ⟨4⟩, none⟩, ⟨.ret none, none⟩, ⟨.jump ⟨3⟩, none⟩,
    ⟨.branch ⟨0⟩ ⟨4⟩ ⟨3⟩, none⟩]
  layout := .ofRows [⟨⟨0⟩, [⟨0⟩]⟩, ⟨⟨1⟩, [⟨1⟩]⟩, ⟨⟨2⟩, [⟨2⟩]⟩, ⟨⟨3⟩, [⟨3⟩]⟩, ⟨⟨4⟩, [⟨4⟩]⟩]

/-- The block that chooses post-dominates the entry, and nothing else post-dominates it. -/
theorem ofFlow_postdominance_exitOrLoops :
    exitOrLoops.layout.blocks ≠ [] ∧ exitOrLoops.layout.blocks.Nodup ∧
    ∃ t, ofFlow (.ofProcedure exitOrLoops) .backward = .ok t ∧ t.roots = [⟨2⟩, ⟨4⟩, ⟨3⟩] ∧
      t.idom? ⟨0⟩ = some ⟨1⟩ ∧ t.idom? ⟨1⟩ = none ∧
      (∀ b ∈ exitOrLoops.layout.blocks, t.contains b = true) ∧
      (∃ n, t.node? root = some n ∧ n.block = none) ∧
      (∀ a ∈ exitOrLoops.layout.blocks, ∀ b ∈ exitOrLoops.layout.blocks, t.dominates a b = true ↔
        ∀ r ∈ t.roots, ∀ l, Route (FlowGraph.ofProcedure exitOrLoops).Edge b r l → a ∈ l) ∧
      ∀ b ∈ exitOrLoops.layout.blocks, t.idom? b = none ↔
        ¬∃ a, a ≠ b ∧
          ∀ r ∈ t.roots, ∀ l, Route (FlowGraph.ofProcedure exitOrLoops).Edge b r l → a ∈ l := by
  obtain ⟨t, planted, facts⟩ := exists_of_any (x := ofFlow (.ofProcedure exitOrLoops) .backward)
    (P := fun t => t.roots == [⟨2⟩, ⟨4⟩, ⟨3⟩] && t.idom? ⟨0⟩ == some ⟨1⟩ && t.idom? ⟨1⟩ == none)
    (by decide +kernel)
  simp only [Bool.and_eq_true, beq_iff_eq] at facts
  obtain ⟨⟨roots, post⟩, alone⟩ := facts
  obtain ⟨t', planted', holds⟩ := ofFlow_postdominance exitOrLoops (by decide) (by decide)
  obtain rfl := Except.ok.inj (planted.symm.trans planted')
  exact ⟨by decide, by decide, t, planted, roots, post, alone, holds⟩

end Tree

end MemoryFlow
