import Mathlib.Data.List.Basic
import MemoryFlow.Proofs.Dominance.Meet
import MemoryFlow.Proofs.Dominance.Preorder

/-! # Links, intervals and preorder

Three things tell what is below a node of a dominator tree: the links to immediate dominators, the
intervals of a walk around the tree, and the preorder. They agree about all nodes, the virtual root
of a post-dominator tree included. The walk and the preorder both follow the lists of children, so
they come to the nodes in the same order.
-/

namespace MemoryFlow.Tree

variable {g : FlowGraph} {t : Tree} {s : Spanning} {direction : Direction} {c id x y z : TreeNode}
  {n m : Node} {k fuel : Nat}

/-- The node that so many links to immediate dominators lead to. -/
def ancestor? (t : Tree) : Nat → TreeNode → Option TreeNode
  | 0, id => some id
  | k + 1, id => (t.idomOf? id).bind (t.ancestor? k)

def firstOf (t : Tree) (id : TreeNode) : Nat :=
  ((t.node? id).map (·.first)).getD 0

def lastOf (t : Tree) (id : TreeNode) : Nat :=
  ((t.node? id).map (·.last)).getD 0

theorem firstOf_eq (found : t.node? x = some n) : t.firstOf x = n.first := by
  rw [firstOf, found]
  rfl

theorem lastOf_eq (found : t.node? x = some n) : t.lastOf x = n.last := by
  rw [lastOf, found]
  rfl

theorem levelOf_eq (found : t.node? x = some n) : t.levelOf x = n.level := by
  rw [levelOf, found]
  rfl

theorem lt_of_node? (found : t.node? x = some n) : x.index < t.size :=
  (Array.getElem?_eq_some_iff.mp found).1

theorem subtree_iff_ancestor? : t.Subtree y x ↔ ∃ k, t.ancestor? k x = some y := by
  constructor
  · intro within
    induction within with
    | self => exact ⟨0, rfl⟩
    | child isAbove _ ih =>
        obtain ⟨k, reached⟩ := ih
        refine ⟨k + 1, ?_⟩
        rw [ancestor?, isAbove, Option.bind_some, reached]
  · rintro ⟨k, reached⟩
    induction k generalizing x with
    | zero =>
        cases reached
        exact .self
    | succ k ih =>
        obtain ⟨above, isAbove, reached⟩ := Option.bind_eq_some_iff.mp reached
        exact .child isAbove (ih reached)

namespace Ordered

variable (h : Ordered g t)
include h

/-- The level of a node is the number of links from it to the root. -/
theorem ancestor?_root (inside : x.index < t.size) :
    t.ancestor? k x = some Tree.root ↔ k = t.levelOf x := by
  induction k generalizing x with
  | zero =>
      rw [ancestor?, Option.some.injEq]
      constructor
      · rintro rfl
        exact h.level_root.symm
      · exact fun top => h.eq_root_of_level inside top.symm
  | succ k ih =>
      rw [ancestor?]
      rcases Nat.eq_zero_or_pos x.index with zero | positive
      · rw [show x = Tree.root from Entity.ext zero, h.idom_root, h.level_root]
        simp
      · obtain ⟨above, isAbove, lower, level⟩ := h.idom x positive inside
        rw [isAbove, Option.bind_some, ih (Nat.lt_trans lower inside), level,
          Nat.add_right_cancel_iff]

theorem exists_child (within : t.Subtree x y) (other : y ≠ x) :
    ∃ c ∈ t.childrenOf x, t.Subtree c y := by
  induction within with
  | self => exact absurd rfl other
  | @child y above isAbove _ ih =>
      by_cases direct : above = x
      · exact ⟨y, (h.children x y).mpr (direct ▸ isAbove), .self⟩
      · obtain ⟨c, child, below⟩ := ih direct
        exact ⟨c, child, .child isAbove below⟩

theorem mem_preorderFrom (inside : id.index < t.size) (enough : t.size ≤ fuel + id.index) :
    y ∈ t.preorderFrom fuel id ↔ t.Subtree id y := by
  refine ⟨h.subtree_of_mem_preorderFrom, fun within => ?_⟩
  induction fuel generalizing id with
  | zero => omega
  | succ fuel ih =>
      rw [preorderFrom, List.mem_cons, List.mem_flatMap]
      by_cases same : y = id
      · exact .inl same
      · obtain ⟨c, child, below⟩ := h.exists_child within same
        obtain ⟨lower, inside⟩ := h.idom_lt ((h.children id c).mp child)
        exact .inr ⟨c, child, ih inside (by omega) below⟩

theorem mem_preorder : x ∈ t.preorder ↔ x.index < t.size := by
  rcases Nat.eq_zero_or_pos t.size with none | positive
  · simp [preorder, none, unstack]
  · have top : Tree.root.index < t.size := positive
    rw [h.preorder_eq, h.mem_preorderFrom top (Nat.le_add_right _ _)]
    constructor
    · exact h.lt_of_subtree top
    · exact fun inside => subtree_iff_ancestor?.mpr ⟨_, (h.ancestor?_root inside).mpr rfl⟩

theorem preorder_perm : t.preorder.Perm ((List.range t.size).map Entity.mk) := by
  have once : t.preorder.Nodup := h.preorder_eq ▸ h.nodup_preorderFrom
  have distinct : ((List.range t.size).map (Entity.mk : Nat → TreeNode)).Nodup :=
    List.nodup_range.map fun _ _ same => congrArg Entity.index same
  refine (List.perm_ext_iff_of_nodup once distinct).mpr fun x => ?_
  rw [h.mem_preorder, List.mem_map]
  constructor
  · exact fun inside => ⟨x.index, List.mem_range.mpr inside, rfl⟩
  · rintro ⟨v, inside, rfl⟩
    exact List.mem_range.mp inside

/-- In the preorder stands the preorder of all that is below each node, with fuel that is still
enough. -/
theorem preorderFrom_infix (member : x ∈ t.preorderFrom fuel id)
    (enough : t.size ≤ fuel + id.index) :
    ∃ more, t.size ≤ more + 1 + x.index ∧
      t.preorderFrom (more + 1) x <:+: t.preorderFrom fuel id := by
  induction fuel generalizing id with
  | zero => cases member
  | succ fuel ih =>
      rw [preorderFrom, List.mem_cons, List.mem_flatMap] at member
      rcases member with rfl | ⟨c, child, member⟩
      · exact ⟨fuel, enough, List.infix_rfl⟩
      · have lower := (h.idom_lt ((h.children id c).mp child)).1
        obtain ⟨more, enough', inner⟩ := ih member (by omega)
        have outer := List.infix_flatMap_of_mem child (t.preorderFrom fuel)
        exact ⟨more, enough', (inner.trans outer).trans (List.infix_cons List.infix_rfl)⟩

end Ordered

theorem firstOf_ofSpanning (inside : x.index < s.vertices.size) :
    (ofSpanning direction s).firstOf x = ((spans (childLists s.idoms)).getD x.index (0, 0)).1 := by
  rw [firstOf, node?_ofSpanning, Array.getElem?_eq_getElem inside]
  rfl

theorem lastOf_ofSpanning (inside : x.index < s.vertices.size) : (ofSpanning direction s).lastOf x =
    ((spans (childLists s.idoms)).getD x.index (0, 0)).2 := by
  rw [lastOf, node?_ofSpanning, Array.getElem?_eq_getElem inside]
  rfl

theorem childrenOf_ofSpanning (inside : x.index < s.vertices.size) :
    (ofSpanning direction s).childrenOf x =
    ((childLists s.idoms).getD x.index []).map Entity.mk := by
  rw [childrenOf, node?_ofSpanning, Array.getElem?_eq_getElem inside]
  rfl

/-- What the intervals of a tree say of its links and lists of children. -/
structure Timed (t : Tree) : Prop where
  within : ∀ x y, x.index < t.size → y.index < t.size →
    (t.firstOf y ≤ t.firstOf x ∧ t.lastOf x ≤ t.lastOf y ↔ t.Subtree y x)
  proper : ∀ x, x.index < t.size → t.firstOf x < t.lastOf x
  after : ∀ x, ∀ c ∈ t.childrenOf x, t.firstOf x < t.firstOf c
  /-- A child is left before the next is come to. -/
  inTurn : ∀ x, (t.childrenOf x).Pairwise fun c d => t.lastOf c < t.firstOf d

namespace Timed

theorem ofSpanning (df : s.DepthFirst) : Timed (ofSpanning direction s) := by
  have lists := childLists_childLists df
  refine ⟨fun x y insideX insideY => ?_, fun x inside => ?_, fun x c child => ?_, fun x => ?_⟩
  · rw [size_ofSpanning] at insideX insideY
    rw [firstOf_ofSpanning insideX, firstOf_ofSpanning insideY, lastOf_ofSpanning insideX,
      lastOf_ofSpanning insideY, subtree_ofSpanning df insideX]
    exact lists.spans_nested size_childLists insideX insideY
  · rw [size_ofSpanning] at inside
    rw [firstOf_ofSpanning inside, lastOf_ofSpanning inside]
    exact (lists.spans_turns size_childLists inside).1
  · obtain ⟨insideX, _, insideC, _⟩ := (mem_childrenOf_ofSpanning df).mp child
    rw [childrenOf_ofSpanning insideX] at child
    obtain ⟨w, member, rfl⟩ := List.mem_map.mp child
    rw [firstOf_ofSpanning insideX, firstOf_ofSpanning insideC]
    exact (lists.spans_turns size_childLists insideX).2.1 w member
  · by_cases inside : x.index < s.vertices.size
    · have small : ∀ {v}, v ∈ (childLists s.idoms).getD x.index [] → v < s.vertices.size :=
        fun member => ((lists.mem _ _ inside).mp member).2.1
      rw [childrenOf_ofSpanning inside, List.pairwise_map]
      refine (lists.spans_turns size_childLists inside).2.2.imp_of_mem
        fun {v w} memberV memberW turn => ?_
      rwa [lastOf_ofSpanning (x := ⟨v⟩) (small memberV),
        firstOf_ofSpanning (x := ⟨w⟩) (small memberW)]
    · have none : (Tree.ofSpanning direction s).childrenOf x = [] :=
        List.eq_nil_iff_forall_not_mem.mpr fun c child =>
          inside ((mem_childrenOf_ofSpanning df).mp child).1
      rw [none]
      exact .nil

section

variable (timed : Timed t) (h : Ordered g t)
include timed h

theorem below_child (child : c ∈ t.childrenOf x) (within : t.Subtree c y) :
    t.firstOf c ≤ t.firstOf y ∧ t.firstOf y < t.lastOf c := by
  have insideC := (h.idom_lt ((h.children x c).mp child)).2
  have insideY := h.lt_of_subtree insideC within
  have ends := (timed.within y c insideY insideC).mpr within
  exact ⟨ends.1, Nat.lt_of_lt_of_le (timed.proper y insideY) ends.2⟩

/-- The preorder comes to the nodes in the order of the walk. -/
theorem pairwise_preorderFrom :
    (t.preorderFrom fuel id).Pairwise fun x y => t.firstOf x < t.firstOf y := by
  induction fuel generalizing id with
  | zero => exact .nil
  | succ fuel ih =>
      refine List.pairwise_cons.mpr
        ⟨fun y member => ?_, List.pairwise_flatMap.mpr ⟨fun _ _ => ih, ?_⟩⟩
      · obtain ⟨c, child, member⟩ := List.mem_flatMap.mp member
        have later := (timed.below_child h child (h.subtree_of_mem_preorderFrom member)).1
        exact Nat.lt_of_lt_of_le (timed.after id c child) later
      · refine (timed.inTurn id).imp_of_mem fun {c d} childC childD turn y memberY z memberZ => ?_
        have early := (timed.below_child h childC (h.subtree_of_mem_preorderFrom memberY)).2
        have late := (timed.below_child h childD (h.subtree_of_mem_preorderFrom memberZ)).1
        exact Nat.lt_of_lt_of_le (Nat.lt_trans early turn) late

end

theorem ofFlow (planted : ofFlow g direction = .ok t) : Timed t := by
  obtain ⟨entry, _, rfl⟩ := ofFlow_eq_ok.mp planted
  obtain ⟨_, _, e, _⟩ := Spanning.ofFlow_exhaustive g entry direction
  exact .ofSpanning e.toDepthFirst

end Timed

/-- Links, intervals and preorder of a tree agree, in either direction and for all nodes. A node is
within another exactly if links lead there, its level counts the links to the root, and the preorder
has every node once, by the times the walk comes to them, with all that is below a node right after
it. -/
theorem ofFlow_nesting (g : FlowGraph) (direction : Direction) {entry : Block}
    (first : g.entry = some entry) : ∃ t, ofFlow g direction = .ok t ∧
      (∀ x y n m, t.node? x = some n → t.node? y = some m →
        (n.isWithin m = true ↔ ∃ k, t.ancestor? k x = some y)) ∧
      (∀ x n, t.node? x = some n → ∀ k, t.ancestor? k x = some root ↔ k = n.level) ∧
      t.preorder.Perm ((List.range t.size).map Entity.mk) ∧
      (t.preorder.filterMap t.node?).Pairwise (fun n m => n.first < m.first) ∧
      ∀ x n, t.node? x = some n → ∃ below, x :: below <:+: t.preorder ∧
        ∀ y, y ∈ x :: below ↔ ∃ k, t.ancestor? k y = some x := by
  obtain ⟨t, planted⟩ : ∃ t, ofFlow g direction = .ok t := ⟨_, ofFlow_eq_ok.mpr ⟨entry, first, rfl⟩⟩
  have h := ofFlow_ordered planted
  have timed := Timed.ofFlow planted
  refine ⟨t, planted, fun x y n m foundX foundY => ?_, fun x n found k => ?_, h.preorder_perm, ?_,
    fun x n found => ?_⟩
  · have times := timed.within x y (lt_of_node? foundX) (lt_of_node? foundY)
    rw [firstOf_eq foundX, firstOf_eq foundY, lastOf_eq foundX, lastOf_eq foundY] at times
    rw [← subtree_iff_ancestor?, ← times, Node.isWithin, Bool.and_eq_true, decide_eq_true_iff,
      decide_eq_true_iff]
  · rw [h.ancestor?_root (lt_of_node? found), levelOf_eq found]
  · rw [h.preorder_eq]
    refine List.pairwise_filterMap.mpr
      ((timed.pairwise_preorderFrom h).imp fun before n foundN m foundM => ?_)
    rwa [firstOf_eq foundN, firstOf_eq foundM] at before
  · have inside := lt_of_node? found
    have listed := h.mem_preorder.mpr inside
    rw [h.preorder_eq] at listed ⊢
    obtain ⟨more, enough, inner⟩ := h.preorderFrom_infix listed (Nat.le_add_right _ _)
    refine ⟨_, inner, fun y => ?_⟩
    rw [← subtree_iff_ancestor?, ← h.mem_preorderFrom inside enough, preorderFrom]

/-- A choice between two ways to return, one of which leads to the other's end as well. -/
def twoReturns : Procedure where
  name := "returns"
  insts := #[⟨.branch ⟨0⟩ ⟨2⟩ ⟨1⟩, none⟩, ⟨.jump ⟨3⟩, none⟩, ⟨.branch ⟨0⟩ ⟨3⟩ ⟨4⟩, none⟩,
    ⟨.ret none, none⟩, ⟨.ret none, none⟩]
  layout := .ofRows [⟨⟨0⟩, [⟨0⟩]⟩, ⟨⟨1⟩, [⟨1⟩]⟩, ⟨⟨2⟩, [⟨2⟩]⟩, ⟨⟨3⟩, [⟨3⟩]⟩, ⟨⟨4⟩, [⟨4⟩]⟩]

/-- Below the virtual root the preorder is not that of the numbers: the fourth node is below the
first. -/
theorem ofFlow_nesting_twoReturns :
    (FlowGraph.ofProcedure twoReturns).entry = some ⟨0⟩ ∧
    ∃ t, ofFlow (.ofProcedure twoReturns) .backward = .ok t ∧ t.blockOf? root = none ∧
      t.preorder = [⟨0⟩, ⟨1⟩, ⟨4⟩, ⟨2⟩, ⟨3⟩, ⟨5⟩] ∧ t.ancestor? 2 ⟨4⟩ = some root ∧
      (∀ x y n m, t.node? x = some n → t.node? y = some m →
        (n.isWithin m = true ↔ ∃ k, t.ancestor? k x = some y)) ∧
      (∀ x n, t.node? x = some n → ∀ k, t.ancestor? k x = some root ↔ k = n.level) ∧
      t.preorder.Perm ((List.range t.size).map Entity.mk) ∧
      (t.preorder.filterMap t.node?).Pairwise (fun n m => n.first < m.first) ∧
      ∀ x n, t.node? x = some n → ∃ below, x :: below <:+: t.preorder ∧
        ∀ y, y ∈ x :: below ↔ ∃ k, t.ancestor? k y = some x := by
  obtain ⟨t, planted, facts⟩ := exists_of_any (x := ofFlow (.ofProcedure twoReturns) .backward)
    (P := fun t => t.blockOf? root == none && t.preorder == [⟨0⟩, ⟨1⟩, ⟨4⟩, ⟨2⟩, ⟨3⟩, ⟨5⟩] &&
      t.ancestor? 2 ⟨4⟩ == some root) (by decide +kernel)
  simp only [Bool.and_eq_true, beq_iff_eq] at facts
  obtain ⟨⟨virtual, order⟩, links⟩ := facts
  have first : (FlowGraph.ofProcedure twoReturns).entry = some ⟨0⟩ := by decide +kernel
  obtain ⟨t', planted', holds⟩ := ofFlow_nesting _ .backward first
  obtain rfl := Except.ok.inj (planted.symm.trans planted')
  exact ⟨first, t, planted, virtual, order, links, holds⟩

end MemoryFlow.Tree
