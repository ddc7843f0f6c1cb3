import MemoryFlow.Proofs.Dominance.Tree

/-! # Blocks in preorder

The preorder is taken with a stack of nodes to come. It is a node and then the preorder of each
child, and has no node twice. In the preorder of the dominator tree a block comes after all that
dominate it, and the blocks that one block dominates stand together. So what has been left behind
once does not dominate anything to come.
-/

open List (Sublist)

namespace MemoryFlow.Tree

variable {g : FlowGraph} {entry b x y z : Block} {t : Tree} {id c c' : TreeNode} {l : List Block}

/-- A node and all below it, each before what is below it. The fuel bounds the depth of the tree. -/
def preorderFrom (t : Tree) : Nat → TreeNode → List TreeNode
  | 0, _ => []
  | fuel + 1, id => id :: (t.childrenOf id).flatMap (t.preorderFrom fuel)

theorem unstack_flatMap {F : TreeNode → List TreeNode} {more : Nat} {stack ids : List TreeNode}
    (each : ∀ id ∈ ids, ∀ more stack, t.unstack ((F id).length + more) (id :: stack) =
      F id ++ t.unstack more stack) :
    t.unstack ((ids.flatMap F).length + more) (ids ++ stack) =
      ids.flatMap F ++ t.unstack more stack := by
  induction ids with
  | nil => simp
  | cons id ids ih =>
      obtain ⟨first, others⟩ := List.forall_mem_cons.mp each
      rw [List.flatMap_cons, List.length_append, Nat.add_assoc, List.cons_append, first, ih others,
        List.append_assoc]

theorem Subtree.trans {x y z : TreeNode} (first : t.Subtree x y) (second : t.Subtree y z) :
    t.Subtree x z := by
  induction second with
  | self => exact first
  | child isAbove _ ih => exact .child isAbove ih

namespace Ordered

variable {x y : TreeNode} {fuel : Nat} (h : Ordered g t)
include h

theorem subtree_of_child (child : c ∈ t.childrenOf x) : t.Subtree x c :=
  .child ((h.children x c).mp child) .self

theorem lt_of_subtree (inside : x.index < t.size) (within : t.Subtree x y) : y.index < t.size := by
  cases within with
  | self => exact inside
  | child isAbove _ => exact (h.idom_lt isAbove).2

/-- However far the preorder goes, it stays below the node it starts from. -/
theorem subtree_of_mem_preorderFrom (member : y ∈ t.preorderFrom fuel id) : t.Subtree id y := by
  induction fuel generalizing id with
  | zero => cases member
  | succ fuel ih =>
      rw [preorderFrom, List.mem_cons, List.mem_flatMap] at member
      rcases member with rfl | ⟨c, child, member⟩
      · exact .self
      · exact (h.subtree_of_child child).trans (ih member)

theorem nodup_preorderFrom : (t.preorderFrom fuel id).Nodup := by
  induction fuel generalizing id with
  | zero => exact List.nodup_nil
  | succ fuel ih =>
      have level : ∀ {c}, c ∈ t.childrenOf id → t.levelOf c = t.levelOf id + 1 := fun child =>
        h.levelOf_idom ((h.children id _).mp child)
      refine List.nodup_cons.mpr ⟨fun member => ?_, List.nodup_flatMap.mpr ⟨fun _ _ => ih, ?_⟩⟩
      · obtain ⟨c, child, member⟩ := List.mem_flatMap.mp member
        have := level child
        rcases h.levelOf_subtree (h.subtree_of_mem_preorderFrom member) with rfl | lower <;> omega
      · -- Of two children with a common node one would be below the other, at the same level.
        refine (h.distinct id).imp_of_mem fun {c d} childC childD other x inC inD => ?_
        have := level childC
        have := level childD
        rcases (h.subtree_of_mem_preorderFrom inC).chain (h.subtree_of_mem_preorderFrom inD) with
          within | within
        · rcases h.levelOf_subtree within with same | lower
          · exact other same
          · omega
        · rcases h.levelOf_subtree within with same | lower
          · exact other same.symm
          · omega

theorem length_preorderFrom (fuel : Nat) (inside : id.index < t.size) :
    (t.preorderFrom fuel id).length ≤ t.size :=
  Entity.length_le h.nodup_preorderFrom fun _ member =>
    h.lt_of_subtree inside (h.subtree_of_mem_preorderFrom member)

/-- The node on top of the stack gives its preorder, and what was under it is then on top. -/
theorem unstack_eq (fuel : Nat) : ∀ id : TreeNode, id.index < t.size → t.size ≤ fuel + id.index →
    ∀ more stack, t.unstack ((t.preorderFrom fuel id).length + more) (id :: stack) =
      t.preorderFrom fuel id ++ t.unstack more stack := by
  induction fuel with
  | zero => intro id inside enough; omega
  | succ fuel ih =>
      intro id inside enough more stack
      rw [preorderFrom, List.length_cons, Nat.add_right_comm, unstack, List.cons_append,
        unstack_flatMap fun c child => ?_]
      obtain ⟨lower, inside⟩ := h.idom_lt ((h.children id c).mp child)
      exact ih c inside (by omega)

/-- The preorder taken with a stack is that from the root. -/
theorem preorder_eq : t.preorder = t.preorderFrom t.size Tree.root := by
  rw [preorder]
  rcases Nat.eq_zero_or_pos t.size with none | positive
  · rw [none]
    rfl
  · have top : Tree.root.index < t.size := positive
    obtain ⟨more, steps⟩ := Nat.exists_eq_add_of_le (h.length_preorderFrom t.size top)
    have run := h.unstack_eq t.size Tree.root positive (Nat.le_add_right _ _) more []
    rw [← steps] at run
    rw [run]
    cases more <;> exact List.append_nil _

end Ordered

/-- Whether blocks come after what dominates them, and stand together with what they dominate. -/
structure Nested (g : FlowGraph) (entry : Block) (l : List Block) : Prop where
  after : l.Pairwise fun z w => ¬Dominates g.Edge entry w z
  together : ∀ w y z, Sublist [w, y, z] l → Dominates g.Edge entry w z → Dominates g.Edge entry w y

namespace Nested

theorem nodup (nested : Nested g entry l) : l.Nodup :=
  nested.after.imp fun other => by
    rintro rfl
    exact other .refl

theorem before {pre post : List Block} (nested : Nested g entry (pre ++ z :: post))
    (member : x ∈ pre ++ z :: post) (other : x ≠ z) (dom : Dominates g.Edge entry x z) :
    x ∈ pre := by
  rcases List.mem_append.mp member with early | here
  · exact early
  · have later := (List.mem_cons.mp here).resolve_left other
    have after := (List.pairwise_append.mp nested.after).2.1
    exact absurd dom ((List.pairwise_cons.mp after).1 x later)

theorem next {pre post : List Block} (nested : Nested g entry (pre ++ y :: z :: post))
    (member : x ∈ pre ++ [y]) (dom : Dominates g.Edge entry x z) : Dominates g.Edge entry x y := by
  rcases List.mem_append.mp member with early | here
  · refine nested.together x y z ?_ dom
    have front : Sublist [x] pre := List.singleton_sublist.mpr early
    have back : Sublist [y, z] (y :: z :: post) :=
      (List.nil_sublist post).cons_cons z |>.cons_cons y
    exact front.append back
  · rw [List.mem_singleton.mp here]
    exact .refl

theorem cons (nested : Nested g entry l)
    (proper : ∀ x ∈ l, Reaches g.Edge entry x ∧ Dominates g.Edge entry b x ∧ b ≠ x) :
    Nested g entry (b :: l) := by
  refine ⟨List.pairwise_cons.mpr ⟨fun x member dom => ?_, nested.after⟩, fun w y z sub dom => ?_⟩
  · obtain ⟨reached, above, other⟩ := proper x member
    exact other (above.antisymm reached dom)
  · rcases List.sublist_cons_iff.mp sub with sub | ⟨rest, same, sub⟩
    · exact nested.together w y z sub dom
    · obtain ⟨rfl, rfl⟩ := List.cons_eq_cons.mp same
      exact (proper y (sub.subset List.mem_cons_self)).2.1

end Nested

namespace Sound

variable (h : t.Sound g entry)
include h

theorem children_apart (known : t.blockOf? id = some b) (child : c ∈ t.childrenOf id)
    (child' : c' ∈ t.childrenOf id) (apart : c ≠ c') (hc : t.blockOf? c = some z)
    (hc' : t.blockOf? c' = some y) {w : Block} (above : Dominates g.Edge entry z x)
    (above' : Dominates g.Edge entry y w) (reached : Reaches g.Edge entry w) :
    ¬Dominates g.Edge entry x w := by
  intro dom
  obtain rfl := h.child_unique known child child' hc hc' reached (above.trans dom) above'
  exact apart (h.unique hc hc')

/-- Nested lists for the children of a node make one for all that is below it. -/
theorem nested_children (known : t.blockOf? id = some b) {F : TreeNode → List Block}
    {cs : List TreeNode} (sub : Sublist cs (t.childrenOf id))
    (inner : ∀ c ∈ cs, ∃ z, t.blockOf? c = some z ∧ Nested g entry (F c) ∧
      ∀ x ∈ F c, Reaches g.Edge entry x ∧ Dominates g.Edge entry z x) :
    Nested g entry (cs.flatMap F) := by
  induction cs with
  | nil => exact ⟨.nil, fun _ _ _ sub => by simp at sub⟩
  | cons c cs ih =>
      obtain ⟨⟨z, hc, nested, inside⟩, others⟩ := List.forall_mem_cons.mp inner
      have rest := ih ((List.sublist_cons_self c cs).trans sub) others
      have fresh := (List.nodup_cons.mp ((h.distinct id).sublist sub)).1
      have apart : ∀ x ∈ F c, ∀ y ∈ cs.flatMap F, ¬Dominates g.Edge entry x y ∧
          ¬Dominates g.Edge entry y x := by
        intro x inX y inY
        obtain ⟨c', member, inY⟩ := List.mem_flatMap.mp inY
        obtain ⟨z', hc', _, inside'⟩ := others c' member
        have child := sub.subset List.mem_cons_self
        have child' := sub.subset (List.mem_cons_of_mem c member)
        have other : c ≠ c' := fun same => fresh (same ▸ member)
        obtain ⟨reached, above⟩ := inside x inX
        obtain ⟨reached', above'⟩ := inside' y inY
        exact ⟨h.children_apart known child child' other hc hc' above above' reached',
          h.children_apart known child' child other.symm hc' hc above' above reached⟩
      rw [List.flatMap_cons]
      refine ⟨List.pairwise_append.mpr ⟨nested.after, rest.after, fun x inX y inY =>
        (apart x inX y inY).2⟩, fun w y z sub dom => ?_⟩
      obtain ⟨front, back, split, subFront, subBack⟩ := List.sublist_append_iff.mp sub
      rcases List.eq_nil_or_concat back with rfl | ⟨back, last, rfl⟩
      · rw [List.append_nil] at split
        exact nested.together w y z (split ▸ subFront) dom
      cases front with
      | nil => exact rest.together w y z (split ▸ subBack) dom
      | cons first front =>
          -- The ends of the three are below different children.
          have inFront : w ∈ F c := by
            rw [(List.cons_eq_cons.mp split).1]
            exact subFront.subset List.mem_cons_self
          have inBack : z ∈ cs.flatMap F := by
            have same := congrArg List.getLast? split
            rw [List.concat_eq_append, ← List.append_assoc, List.getLast?_concat] at same
            rw [show z = last from Option.some.inj same]
            exact subBack.subset (by simp)
          exact absurd dom (apart w inFront z inBack).1

/-- The preorder from a node is of the blocks that its block dominates, nested. -/
theorem nested_preorderFrom : ∀ {fuel : Nat} {id : TreeNode} {b : Block},
    t.size ≤ fuel + id.index → t.blockOf? id = some b →
    Nested g entry ((t.preorderFrom fuel id).filterMap t.blockOf?) ∧
      ∀ x, x ∈ (t.preorderFrom fuel id).filterMap t.blockOf? ↔
        Reaches g.Edge entry x ∧ Dominates g.Edge entry b x
  | 0, id, b, enough, known => by
      have inside := lt_of_blockOf? known
      omega
  | fuel + 1, id, b, enough, known => by
      have inner : ∀ c ∈ t.childrenOf id, ∃ z, t.blockOf? c = some z ∧
          Nested g entry ((t.preorderFrom fuel c).filterMap t.blockOf?) ∧
          ∀ x, x ∈ (t.preorderFrom fuel c).filterMap t.blockOf? ↔
            Reaches g.Edge entry x ∧ Dominates g.Edge entry z x := by
        intro c child
        obtain ⟨lower, inside⟩ := h.idom_lt ((h.children id c).mp child)
        obtain ⟨z, hc⟩ := h.block c inside
        exact ⟨z, hc, nested_preorderFrom (by omega) hc⟩
      have below : Nested g entry ((t.childrenOf id).flatMap fun c =>
          (t.preorderFrom fuel c).filterMap t.blockOf?) :=
        h.nested_children known (.refl _) fun c child =>
          let ⟨z, hc, nested, mem⟩ := inner c child
          ⟨z, hc, nested, fun x => (mem x).mp⟩
      have proper : ∀ x ∈ (t.childrenOf id).flatMap fun c =>
          (t.preorderFrom fuel c).filterMap t.blockOf?,
          Reaches g.Edge entry x ∧ Dominates g.Edge entry b x ∧ b ≠ x := by
        intro x member
        obtain ⟨c, child, member⟩ := List.mem_flatMap.mp member
        obtain ⟨z, hc, -, mem⟩ := inner c child
        obtain ⟨reached, dom⟩ := (mem x).mp member
        have idom := h.nearest c id b z ((h.children id c).mp child) known hc
        refine ⟨reached, idom.2.1.trans dom, ?_⟩
        rintro rfl
        exact idom.1 (idom.2.1.antisymm (dom.reaches reached) dom)
      rw [preorderFrom, List.filterMap_cons_some known, List.filterMap_flatMap]
      refine ⟨below.cons proper, fun x => ?_⟩
      rw [List.mem_cons]
      constructor
      · rintro (rfl | member)
        · exact ⟨(h.reaches x).mp (h.contains_of_blockOf? known), .refl⟩
        · exact ⟨(proper x member).1, (proper x member).2.1⟩
      · rintro ⟨reached, dom⟩
        by_cases same : b = x
        · exact .inl same.symm
        · obtain ⟨y, hy⟩ := h.exists_node reached
          obtain ⟨c, z, child, hc, lower⟩ := h.exists_child known hy same dom
          obtain ⟨z', hc', -, mem⟩ := inner c child
          obtain rfl : z = z' := Option.some.inj (hc.symm.trans hc')
          exact .inr (List.mem_flatMap.mpr ⟨c, child, (mem x).mpr ⟨reached, lower⟩⟩)

theorem nested_preorder : Nested g entry (t.preorder.filterMap t.blockOf?) ∧
    ∀ x, x ∈ t.preorder.filterMap t.blockOf? ↔ Reaches g.Edge entry x := by
  obtain ⟨nested, mem⟩ := nested_preorderFrom h (Nat.le_add_right t.size _) h.root
  rw [h.preorder_eq]
  exact ⟨nested, fun x => (mem x).trans ⟨And.left, fun reached => ⟨reached, .from_root⟩⟩⟩

end Sound

end MemoryFlow.Tree
