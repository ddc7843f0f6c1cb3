import MemoryFlow.Graph.Rename
import MemoryFlow.Proofs.Dominance.Preorder

/-! # Going down the dominator tree

A renaming goes from a block to all that it dominates, and to each block when what holds before it
is known. It keeps a stack of the nodes it is inside, and does what a recursion over the tree does
(`descend_eq`). What is true of the blocks visited so far, and stays true when one more is entered,
is true in the end of all of them.
-/

namespace MemoryFlow

variable {flow : FlowGraph} {t : Tree} {entry above b z : Block} {ids : List TreeNode}
  {id c : TreeNode}

def FlowGraph.AtOrBelow (flow : FlowGraph) (entry above b : Block) : Prop :=
  Reaches flow.Edge entry b ∧ Dominates flow.Edge entry above b

def Tree.UnderAny (t : Tree) (flow : FlowGraph) (entry : Block) (ids : List TreeNode)
    (b : Block) : Prop :=
  ∃ c ∈ ids, ∃ z, t.blockOf? c = some z ∧ flow.AtOrBelow entry z b

namespace Tree

theorem underAny_append (hc : t.blockOf? c = some z) :
    t.UnderAny flow entry (ids ++ [c]) b ↔
      t.UnderAny flow entry ids b ∨ flow.AtOrBelow entry z b := by
  constructor
  · rintro ⟨x, member, y, hx, below⟩
    rcases List.mem_append.mp member with before | single
    · exact .inl ⟨x, before, y, hx, below⟩
    · rw [List.mem_singleton.mp single] at hx
      exact .inr (Option.some.inj (hx.symm.trans hc) ▸ below)
  · rintro (⟨x, member, y, hx, below⟩ | below)
    · exact ⟨x, List.mem_append_left _ member, y, hx, below⟩
    · exact ⟨c, by simp, z, hc, below⟩

theorem Sound.underAny_children (sound : t.Sound flow entry) (known : t.blockOf? id = some above) :
    t.UnderAny flow entry (t.childrenOf id) b ↔ above ≠ b ∧ flow.AtOrBelow entry above b := by
  constructor
  · rintro ⟨c, child, z, hc, reached, dom⟩
    have idom := sound.nearest c id above z ((sound.children id c).mp child) known hc
    refine ⟨?_, reached, idom.2.1.trans dom⟩
    rintro rfl
    exact idom.1 (idom.2.1.antisymm (dom.reaches reached) dom)
  · rintro ⟨other, reached, dom⟩
    obtain ⟨y, hy⟩ := sound.exists_node reached
    obtain ⟨c, z, child, hc, below⟩ := sound.exists_child known hy other dom
    exact ⟨c, child, z, hc, reached, below⟩

theorem Sound.not_underAny (sound : t.Sound flow entry) (known : t.blockOf? id = some above)
    {rest : List TreeNode} (whole : t.childrenOf id = ids ++ c :: rest) (hc : t.blockOf? c = some z)
    (below : flow.AtOrBelow entry z b) : ¬t.UnderAny flow entry ids b := by
  rintro ⟨c', member, z', hc', _, dom'⟩
  have child : c ∈ t.childrenOf id := by simp [whole]
  have child' : c' ∈ t.childrenOf id := whole ▸ List.mem_append_left _ member
  obtain rfl := sound.child_unique known child child' hc hc' below.1 below.2 dom'
  have once := sound.distinct id
  rw [whole, List.nodup_append] at once
  exact once.2.2 c' member c (by simp) (sound.unique hc' hc)

end Tree

namespace Renaming

/-- Rename the block of a child, and what `inner` renames from there. -/
def intoChild (pass : Pass) (t : Tree)
    (inner : Renaming → TreeNode → Access → Except Fault Renaming)
    (holding : Access) (r : Renaming) (child : TreeNode) : Except Fault Renaming :=
  match t.blockOf? child with
  | none => return r
  | some block => do
      let (r, holding) ← r.enter pass block holding
      inner r child holding

/-- Rename the blocks below a tree node, at the end of which `holding` holds, child by child. The
fuel bounds the depth of the tree. -/
def below (pass : Pass) (t : Tree) : Nat → Renaming → TreeNode → Access → Except Fault Renaming
  | 0, r, _, _ => return r
  | fuel + 1, r, id, holding =>
      (t.childrenOf id).foldlM (intoChild pass t (below pass t fuel) holding) r

section Steps

variable {pass : Pass} {next more : Nat} {holding : Access} {stack : List Frame} {r : Renaming}
  {left : List TreeNode}

theorem descend_done (rest : (t.childrenOf id).drop next = []) :
    descend pass t (1 + more) (⟨id, next, holding⟩ :: stack) r = descend pass t more stack r := by
  rw [Nat.add_comm, descend, List.getElem?_eq_none_iff.mpr (List.drop_eq_nil_iff.mp rest)]

theorem descend_child (rest : (t.childrenOf id).drop next = c :: left)
    (hc : t.blockOf? c = some z) : descend pass t (more + 1) (⟨id, next, holding⟩ :: stack) r = (do
      let (r, inner) ← r.enter pass z holding
      descend pass t more (⟨c, 0, inner⟩ :: ⟨id, next + 1, holding⟩ :: stack) r) := by
  rw [descend, (drop_eq_cons rest).1]
  dsimp only
  rw [hc]

end Steps

/-- The loop renames what is below the children of a node that are left, one by one, and leaves the
node. Each of the nodes below is gone to in one step and left in another. -/
theorem descend_left {pass : Pass} (h : t.Ordered flow) (fuel : Nat) : ∀ id next holding left,
    t.size ≤ fuel + id.index + 1 → (t.childrenOf id).drop next = left → ∀ more stack r,
    descend pass t (roundTrip (t.preorderFrom fuel) left + more)
        (⟨id, next, holding⟩ :: stack) r = (do
      let r ← left.foldlM (intoChild pass t (below pass t fuel) holding) r
      descend pass t more stack r) := by
  induction fuel with
  | zero =>
      intro id next holding left enough rest more stack r
      have none : t.childrenOf id = [] := List.eq_nil_iff_forall_not_mem.mpr fun c child => by
        have := h.idom_lt ((h.children id c).mp child)
        omega
      obtain rfl : left = [] := by rw [← rest, none, List.drop_nil]
      exact descend_done rest
  | succ fuel ih =>
      intro id next holding left enough rest more stack
      induction left generalizing next with
      | nil => exact fun r => descend_done rest
      | cons c left again =>
          intro r
          obtain ⟨next', rest'⟩ := drop_eq_cons rest
          obtain ⟨lower, inside⟩ := h.idom_lt ((h.children id c).mp (List.mem_of_getElem? next'))
          obtain ⟨z, hc⟩ := h.placed c (by omega) inside
          rw [roundTrip_cons rfl, descend_child rest hc, List.foldlM_cons, intoChild, hc]
          simp only [bind_assoc]
          refine bind_congr ?_
          rintro ⟨r, inner⟩
          rw [ih c 0 inner _ (by omega) List.drop_zero]
          exact bind_congr fun r => again (next + 1) rest' r

/-- The loop is the recursion over the tree. -/
theorem descend_eq {pass : Pass} (h : t.Ordered flow) (inside : id.index < t.size) (r : Renaming)
    (holding : Access) :
    descend pass t (2 * t.size) [⟨id, 0, holding⟩] r = below pass t t.size r id holding := by
  obtain ⟨fuel, deep⟩ : ∃ fuel, t.size = fuel + 1 := ⟨t.size - 1, by omega⟩
  obtain ⟨more, steps⟩ :=
    Nat.exists_eq_add_of_le (roundTrip_le rfl (h.length_preorderFrom (fuel + 1) inside))
  rw [steps, descend_left h fuel id 0 holding _ (by omega) List.drop_zero, deep, below]
  have stop : ∀ r, descend pass t more [] r = pure r := by
    intro r
    cases more <;> rfl
  simp only [stop, bind_pure]

/-- An invariant of the blocks at or below `top` visited so far that a renaming keeps in each of
them. What holds at the start and at the end of each is known in advance. -/
structure Descent (t : Tree) (flow : FlowGraph) (entry top : Block) (pass : Pass)
    (into out : Block → Access) (Inv : (Block → Prop) → Renaming → Prop) : Prop where
  sound : t.Sound flow entry
  tree : ∀ {visited r}, Inv visited r → r.graph.tree = t
  holds : ∀ {id above : TreeNode} {a b : Block}, t.idomOf? id = some above →
    t.blockOf? above = some a → t.blockOf? id = some b → flow.AtOrBelow entry top a → into b = out a
  enter : ∀ {visited r b}, flow.AtOrBelow entry top b → ¬visited b → Inv visited r →
    ∃ r', r.enter pass b (into b) = .ok (r', out b) ∧ Inv (fun x => visited x ∨ x = b) r'

variable {top : Block} {pass : Pass} {into out : Block → Access}
  {Inv : (Block → Prop) → Renaming → Prop}

theorem Descent.below (descent : Descent t flow entry top pass into out Inv) :
    ∀ fuel id above r visited, t.size ≤ fuel + id.index → t.blockOf? id = some above →
    flow.AtOrBelow entry top above → Inv visited r →
    (∀ b, above ≠ b ∧ flow.AtOrBelow entry above b → ¬visited b) →
    ∃ r', Renaming.below pass t fuel r id (out above) = .ok r' ∧
      Inv (fun b => visited b ∨ above ≠ b ∧ flow.AtOrBelow entry above b) r' := by
  intro fuel
  have sound := descent.sound
  induction fuel with
  | zero =>
      intro id above r visited enough known
      have inside := Tree.lt_of_blockOf? known
      omega
  | succ fuel ih =>
      intro id above r visited enough known within holds fresh
      rw [Renaming.below]
      simp only [← sound.underAny_children known] at fresh ⊢
      refine foldlM_total (t.childrenOf id) _ r
        (fun seen r => Inv (fun b => visited b ∨ t.UnderAny flow entry seen b) r)
        (by simpa [Tree.UnderAny] using holds) ?_
      intro seen c rest r whole holds
      have child : c ∈ t.childrenOf id := by simp [whole]
      have isAbove := (sound.children id c).mp child
      obtain ⟨lower, inside⟩ := sound.idom_lt isAbove
      obtain ⟨z, hc⟩ := sound.block c inside
      -- nothing at or below this child has been visited from another child
      have apart : ∀ b, flow.AtOrBelow entry z b → ¬(visited b ∨ t.UnderAny flow entry seen b) := by
        rintro b below (before | under)
        · exact fresh b ⟨c, child, z, hc, below⟩ before
        · exact sound.not_underAny known whole hc below under
      have reached : Reaches flow.Edge entry z :=
        (sound.reaches z).mp (sound.contains_of_blockOf? hc)
      have within' : flow.AtOrBelow entry top z :=
        ⟨reached, within.2.trans (sound.nearest c id above z isAbove known hc).2.1⟩
      obtain ⟨r₁, entered, holds₁⟩ := descent.enter within' (apart z ⟨reached, .refl⟩) holds
      obtain ⟨r₂, ran, holds₂⟩ := ih c z r₁ _ (by omega) hc within' holds₁ (by
        rintro b ⟨other, below⟩ (before | rfl)
        · exact apart b below before
        · exact other rfl)
      refine ⟨r₂, ?_, ?_⟩
      · rw [intoChild, hc, ← descent.holds isAbove known hc within]
        simp only [entered, ok_bind, ran]
      · have same : (fun b => visited b ∨ t.UnderAny flow entry (seen ++ [c]) b) = fun b =>
            ((visited b ∨ t.UnderAny flow entry seen b) ∨ b = z) ∨ z ≠ b ∧
              flow.AtOrBelow entry z b := by
          funext b
          rw [Tree.underAny_append hc, ← or_assoc, or_assoc (c := z ≠ b ∧ _)]
          refine propext (or_congr_right ⟨fun below => ?_, ?_⟩)
          · by_cases same : b = z
            · exact .inl same
            · exact .inr ⟨Ne.symm same, below⟩
          · rintro (rfl | ⟨_, below⟩)
            · exact ⟨reached, .refl⟩
            · exact below
        rw [same]
        exact holds₂

/-- A renaming visits its first block and all below it. -/
theorem Descent.run (descent : Descent t flow entry top pass into out Inv) {r : Renaming}
    (reached : Reaches flow.Edge entry top)
    (unvisited : ¬(pass = .again ∧ r.visited.contains top = true))
    (holds : Inv (fun _ => False) r) :
    ∃ r', r.run pass top (into top) = .ok r' ∧ Inv (flow.AtOrBelow entry top) r' := by
  obtain ⟨id, known⟩ := descent.sound.exists_node reached
  obtain ⟨r₁, entered, holds₁⟩ := descent.enter ⟨reached, .refl⟩ (fun none => none) holds
  obtain ⟨r₂, ran, holds₂⟩ := descent.below t.size id top r₁ _ (Nat.le_add_right _ _) known
    ⟨reached, .refl⟩ holds₁ (by
      rintro b ⟨other, _⟩ (none | rfl)
      · exact none
      · exact other rfl)
  refine ⟨r₂, ?_, ?_⟩
  · rw [Renaming.run, descent.tree holds, (descent.sound.nodeId? top id).mpr known]
    simp only [unvisited, if_false, entered, ok_bind, descent.tree holds₁,
      descend_eq descent.sound.toOrdered (Tree.lt_of_blockOf? known), ran]
  · have all : (fun b => (False ∨ b = top) ∨ top ≠ b ∧ flow.AtOrBelow entry top b) =
        flow.AtOrBelow entry top := by
      funext b
      refine propext ⟨?_, fun below => ?_⟩
      · rintro ((none | rfl) | ⟨_, below⟩)
        · exact none.elim
        · exact ⟨reached, .refl⟩
        · exact below
      · by_cases same : b = top
        · exact .inl (.inr same)
        · exact .inr ⟨Ne.symm same, below⟩
    exact all ▸ holds₂

end Renaming

end MemoryFlow
