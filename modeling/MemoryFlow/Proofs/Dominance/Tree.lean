import MemoryFlow.Proofs.Dominance.Immediate
import MemoryFlow.Proofs.Dominance.Interval
import MemoryFlow.Proofs.Dominance.Spanning
import MemoryFlow.Proofs.Procedure.Layout

/-! # The dominator tree of a flow graph

The tree over a traversal has one node for each vertex, and a node is below another exactly when its
vertex is dominated by the other's. `Tree.Sound` gathers what is true of the dominator tree of a
flow graph, in terms of blocks and routes: nothing later needs to know how the tree was computed.
-/

namespace MemoryFlow

theorem FlowGraph.blocks_ofProcedure (p : Procedure) :
    (ofProcedure p).blocks = p.layout.blocks := by
  simp [blocks, ofProcedure, Layout.rows, Function.comp_def]

theorem FlowGraph.entry_ofProcedure (p : Procedure) : (ofProcedure p).entry = p.entry := by
  rw [entry, blocks_ofProcedure]
  rfl

theorem FlowGraph.nodup_succs (p : Procedure) (b : Block) : ((ofProcedure p).succs b).Nodup := by
  have once : ∀ op : Op, op.successors.Nodup := by
    intro op
    cases op with
    | branch _ thenDest elseDest =>
        rw [Op.successors]
        split
        · simp
        · rename_i other
          simpa using other
    | _ => simp [Op.successors]
  rw [succs]
  cases found : (ofProcedure p).rows.find? (·.block == b) with
  | none => exact List.nodup_nil
  | some row =>
      obtain ⟨source, _, rfl⟩ := List.mem_map.mp (List.mem_of_find?_eq_some found)
      dsimp only [Option.map_some, Option.getD_some]
      cases source.insts.getLast?.bind p.op? with
      | none => exact List.nodup_nil
      | some op => exact once op

namespace Tree

variable {s : Spanning} {direction : Direction} {u v w : Nat} {a b : Block}

/-- The parent of a vertex in the tree of immediate dominators. -/
def up (s : Spanning) (v : Nat) : Nat :=
  s.idoms.getD v 0

theorem getD_childLists (inside : v < s.vertices.size) : (childLists s.idoms).getD v [] =
    (List.range s.vertices.size).filter fun w => w != 0 && up s w == v := by
  simp [childLists, Array.getD_eq_getD_getElem?, inside, up]

theorem size_childLists : (childLists s.idoms).size = s.vertices.size := by
  simp [childLists]

theorem childLists_childLists (df : s.DepthFirst) :
    ChildLists (up s) s.vertices.size (childLists s.idoms) where
  decreasing v positive := Spanning.idoms_lt df positive
  mem v c inside := by
    rw [getD_childLists inside]
    simp only [List.mem_filter, List.mem_range, Bool.and_eq_true, bne_iff_ne, beq_iff_eq]
    omega
  nodup v := by
    by_cases inside : v < s.vertices.size
    · rw [getD_childLists inside]
      exact List.nodup_range.filter _
    · rw [Array.getD_eq_getD_getElem?, Array.getElem?_eq_none (by rw [size_childLists]; omega)]
      exact List.nodup_nil

/-- The level of a vertex, from those of the vertices before it. -/
def nextLevel (idoms levels : Array Nat) (v : Nat) : Nat :=
  if v = 0 then 0 else levels.getD (idoms.getD v 0) 0 + 1

theorem levels_eq (idoms : Array Nat) : levels idoms = tabulate (nextLevel idoms) idoms.size := rfl

theorem levels_zero (idoms : Array Nat) : (levels idoms).getD 0 0 = 0 := by
  rw [levels_eq]
  rcases Nat.eq_zero_or_pos idoms.size with none | some
  · rw [none]
    rfl
  · rw [getD_tabulate _ some]
    rfl

theorem levels_up (df : s.DepthFirst) (positive : 0 < v) (inside : v < s.vertices.size) :
    (levels s.idoms).getD v 0 = (levels s.idoms).getD (up s v) 0 + 1 := by
  have lower : up s v < v := Spanning.idoms_lt df positive
  rw [levels_eq, Spanning.size_idoms, getD_tabulate _ inside,
    getD_tabulate _ (by omega : up s v < _), nextLevel, if_neg (by omega)]
  exact congrArg (· + 1) (getD_tabulate _ lower)

theorem levels_lt (df : s.DepthFirst) (inside : v < s.vertices.size) (above : Ancestor (up s) u v)
    (other : u ≠ v) : (levels s.idoms).getD u 0 < (levels s.idoms).getD v 0 := by
  induction above with
  | self => exact absurd rfl other
  | @up v positive above ih =>
      have lower : Tree.up s v < v := Spanning.idoms_lt df positive
      rw [levels_up df positive inside]
      by_cases direct : u = Tree.up s v
      · rw [← direct]
        exact Nat.lt_succ_self _
      · exact Nat.lt_succ_of_lt (ih (by omega) direct)

theorem exists_find? {t : Tree} : t.contains b = true ↔ ∃ n, t.find? b = some n := by
  rw [contains, find?, Option.isSome_iff_exists]
  constructor
  · rintro ⟨id, found⟩
    have inside : id.index < t.nodes.size := by
      obtain ⟨i, at', rfl⟩ := Option.map_eq_some_iff.mp found
      exact (Array.findIdx?_eq_some_iff_getElem.mp at').1
    exact ⟨t.nodes[id.index],
      by rw [found, Option.bind_some, node?, Array.getElem?_eq_getElem inside]⟩
  · rintro ⟨n, found⟩
    obtain ⟨id, known, _⟩ := Option.bind_eq_some_iff.mp found
    exact ⟨id, known⟩

/-- What properly dominates a block in the tree is in the tree, on a higher level. -/
theorem level_lt_of_dominates {t : Tree} {n : Node} (dominates : t.dominates a b = true)
    (apart : a ≠ b) (found : t.find? b = some n) : ∃ m, t.find? a = some m ∧ m.level < n.level := by
  rw [Tree.dominates, found, beq_false_of_ne apart, Bool.false_or] at dominates
  cases above : t.find? a with
  | none => simp [above] at dominates
  | some m =>
      simp only [above, Bool.and_eq_true, decide_eq_true_eq] at dominates
      exact ⟨m, rfl, dominates.1⟩

def nodeFor (s : Spanning) (v : Nat) (vertex : Vertex) : Node where
  block := vertex.block
  idom := if v = 0 then none else some ⟨up s v⟩
  children := ((childLists s.idoms).getD v []).map Entity.mk
  level := (levels s.idoms).getD v 0
  first := ((spans (childLists s.idoms)).getD v (0, 0)).1
  last := ((spans (childLists s.idoms)).getD v (0, 0)).2

theorem nodes_ofSpanning : (ofSpanning direction s).nodes = s.vertices.mapIdx (nodeFor s) := rfl

@[simp] theorem size_ofSpanning : (ofSpanning direction s).size = s.vertices.size := by
  simp [size, nodes_ofSpanning]

theorem node?_ofSpanning (id : TreeNode) : (ofSpanning direction s).node? id =
    s.vertices[id.index]?.map (nodeFor s id.index) := by
  simp [node?, nodes_ofSpanning]

theorem blockOf?_ofSpanning (id : TreeNode) :
    (ofSpanning direction s).blockOf? id = s.block? id.index := by
  rw [blockOf?, node?_ofSpanning, Spanning.block?]
  cases s.vertices[id.index]? <;> rfl

theorem nodeId?_ofSpanning : (ofSpanning direction s).nodeId? b = (s.number? b).map Entity.mk := by
  rw [nodeId?, nodes_ofSpanning, Spanning.number?]
  congr 1
  apply Option.ext
  intro v
  simp only [Array.findIdx?_eq_some_iff_getElem, Array.size_mapIdx, Array.getElem_mapIdx, nodeFor]

theorem idomOf?_ofSpanning (id : TreeNode) (inside : id.index < s.vertices.size) :
    (ofSpanning direction s).idomOf? id = if id.index = 0 then none else some ⟨up s id.index⟩ := by
  rw [idomOf?, node?_ofSpanning, Array.getElem?_eq_getElem inside]
  rfl

theorem levelOf_ofSpanning (id : TreeNode) (inside : id.index < s.vertices.size) :
    (ofSpanning direction s).levelOf id = (levels s.idoms).getD id.index 0 := by
  rw [levelOf, node?_ofSpanning, Array.getElem?_eq_getElem inside]
  rfl

theorem mem_childrenOf_ofSpanning (df : s.DepthFirst) {id c : TreeNode} :
    c ∈ (ofSpanning direction s).childrenOf id ↔
      id.index < s.vertices.size ∧ 0 < c.index ∧ c.index < s.vertices.size ∧
      up s c.index = id.index := by
  rw [childrenOf, node?_ofSpanning]
  by_cases inside : id.index < s.vertices.size
  · rw [Array.getElem?_eq_getElem inside]
    simp only [Option.map_some, Option.getD_some, nodeFor, List.mem_map, inside, true_and]
    constructor
    · rintro ⟨x, member, rfl⟩
      exact ((childLists_childLists df).mem _ _ inside).mp member
    · intro child
      exact ⟨c.index, ((childLists_childLists df).mem _ _ inside).mpr child, rfl⟩
  · rw [Array.getElem?_eq_none (by omega)]
    simp [inside]

theorem nodup_childrenOf_ofSpanning (df : s.DepthFirst) (id : TreeNode) :
    ((ofSpanning direction s).childrenOf id).Nodup := by
  rw [childrenOf, node?_ofSpanning]
  cases s.vertices[id.index]? with
  | none => exact List.nodup_nil
  | some vertex =>
      have distinct := (childLists_childLists df).nodup id.index
      exact List.Pairwise.map Entity.mk
        (fun _ _ other same => other (congrArg Entity.index same)) distinct

theorem find?_ofSpanning (direction : Direction) {next : Block → List Block} {starts : List Block}
    (f : s.Found next starts) (found : s.block? v = some b) :
    ∃ vertex, (ofSpanning direction s).find? b = some (nodeFor s v vertex) := by
  rw [find?, nodeId?_ofSpanning, f.number?.mpr found]
  simp only [Option.map_some, Option.bind_some, node?_ofSpanning]
  rw [Array.getElem?_eq_getElem (Spanning.lt_of_block? found)]
  exact ⟨_, rfl⟩

theorem find?_ofSpanning_none (absent : ∀ v, s.block? v ≠ some b) :
    (ofSpanning direction s).find? b = none := by
  rw [find?, nodeId?_ofSpanning, Spanning.number?_eq_none.mpr absent]
  rfl

/-- For blocks in the tree, levels and intervals tell dominance. -/
theorem dominates_ofSpanning {next : Block → List Block} {starts : List Block}
    (f : s.Found next starts) (hu : s.block? u = some a) (hv : s.block? v = some b) :
    (ofSpanning direction s).dominates a b = true ↔ Ancestor (up s) u v := by
  obtain ⟨x, findA⟩ := find?_ofSpanning direction f hu
  obtain ⟨y, findB⟩ := find?_ofSpanning direction f hv
  have insideU := Spanning.lt_of_block? hu
  have insideV := Spanning.lt_of_block? hv
  have nested := (childLists_childLists f.toDepthFirst).spans_nested size_childLists insideV insideU
  simp only [dominates, findA, findB, Bool.or_eq_true, beq_iff_eq, Bool.and_eq_true,
    decide_eq_true_eq, Node.isWithin, nodeFor, nested]
  constructor
  · rintro (rfl | ⟨_, above⟩)
    · exact f.distinct u v a hu hv ▸ .self
    · exact above
  · intro above
    by_cases same : u = v
    · subst same
      exact .inl (Option.some.inj (hu.symm.trans hv))
    · exact .inr ⟨levels_lt f.toDepthFirst insideV above same, above⟩

inductive Subtree (t : Tree) (x : TreeNode) : TreeNode → Prop where
  | self : Subtree t x x
  | child {y above : TreeNode} : t.idomOf? y = some above → Subtree t x above → Subtree t x y

structure Ordered (g : FlowGraph) (t : Tree) : Prop where
  /-- Only the root may be virtual. -/
  placed : ∀ id : TreeNode, 0 < id.index → id.index < t.size → ∃ b, t.blockOf? id = some b
  nodeId? : ∀ b id, t.nodeId? b = some id ↔ t.blockOf? id = some b
  idom_root : t.idomOf? Tree.root = none
  level_root : t.levelOf Tree.root = 0
  idom : ∀ id : TreeNode, 0 < id.index → id.index < t.size → ∃ above, t.idomOf? id = some above ∧
    above.index < id.index ∧ t.levelOf id = t.levelOf above + 1
  children : ∀ id c, c ∈ t.childrenOf id ↔ t.idomOf? c = some id
  distinct : ∀ id, (t.childrenOf id).Nodup
  order : ∀ x y a b, t.blockOf? x = some a → t.blockOf? y = some b →
    (t.dominates a b = true ↔ t.Subtree x y)
  closed : ∀ a z, t.contains a = true → z ∈ g.next t.direction a → t.contains z = true
  /-- An edge leads to a node from somewhere below the immediate dominator of the node. -/
  arrives : ∀ source c above a z, t.blockOf? source = some a → z ∈ g.next t.direction a →
    t.blockOf? c = some z → t.idomOf? c = some above → t.Subtree above source

theorem lt_of_blockOf? {t : Tree} {id : TreeNode} (known : t.blockOf? id = some b) :
    id.index < t.size := by
  by_contra outside
  rw [blockOf?, node?, Array.getElem?_eq_none (Nat.le_of_not_lt outside)] at known
  simp at known

theorem subtree_ofSpanning (df : s.DepthFirst) {x y : TreeNode}
    (inside : y.index < s.vertices.size) :
    (ofSpanning direction s).Subtree x y ↔ Ancestor (up s) x.index y.index := by
  constructor
  · intro within
    induction within with
    | self => exact .self
    | @child y above isAbove _ ih =>
        rw [idomOf?_ofSpanning y inside] at isAbove
        split at isAbove
        · cases isAbove
        · rename_i positive
          obtain rfl := Option.some.inj isAbove
          have lower : up s y.index < y.index := Spanning.idoms_lt df (Nat.pos_of_ne_zero positive)
          exact .up (Nat.pos_of_ne_zero positive) (ih (Nat.lt_trans lower inside))
  · intro above
    generalize number : y.index = v at above
    induction above generalizing y with
    | self =>
        obtain rfl : y = x := Entity.ext number
        exact .self
    | up positive _ ih =>
        subst number
        have lower : Tree.up s y.index < y.index := Spanning.idoms_lt df positive
        have isAbove : (ofSpanning direction s).idomOf? y = some ⟨Tree.up s y.index⟩ := by
          rw [idomOf?_ofSpanning y inside, if_neg (Nat.ne_of_gt positive)]
        exact .child isAbove (ih (Nat.lt_trans lower inside) rfl)

namespace Ordered

variable {g : FlowGraph} {t : Tree}

theorem ofSpanning {next : Block → List Block} {starts : List Block} (e : s.Exhaustive next starts)
    (edges : ∀ a z, z ∈ g.next direction a ↔ z ∈ next a) : Ordered g (ofSpanning direction s) where
  placed id positive inside := by
    rw [size_ofSpanning] at inside
    rw [blockOf?_ofSpanning]
    exact e.block?_of_pos positive inside
  nodeId? b id := by
    rw [nodeId?_ofSpanning, blockOf?_ofSpanning, ← e.number?]
    cases s.number? b <;> simp [Entity.ext_iff]
  idom_root := idomOf?_ofSpanning Tree.root e.rooted
  level_root := by
    rw [levelOf_ofSpanning Tree.root e.rooted]
    exact levels_zero s.idoms
  idom id positive inside := by
    rw [size_ofSpanning] at inside
    have lower : up s id.index < id.index := Spanning.idoms_lt e.toDepthFirst positive
    refine ⟨⟨up s id.index⟩, ?_, lower, ?_⟩
    · rw [idomOf?_ofSpanning id inside, if_neg (by omega)]
    · rw [levelOf_ofSpanning id inside,
        levelOf_ofSpanning ⟨up s id.index⟩ (Nat.lt_trans lower inside),
        levels_up e.toDepthFirst positive inside]
  children id c := by
    rw [mem_childrenOf_ofSpanning e.toDepthFirst]
    by_cases inside : c.index < s.vertices.size
    · rw [idomOf?_ofSpanning c inside]
      by_cases positive : c.index = 0
      · simp [positive]
      · have lower : up s c.index < c.index := Spanning.idoms_lt e.toDepthFirst (by omega)
        simp only [if_neg positive, Option.some.injEq, Entity.ext_iff]
        omega
    · simp [inside, idomOf?, node?_ofSpanning]
  distinct := nodup_childrenOf_ofSpanning e.toDepthFirst
  order x y a b hx hy := by
    rw [blockOf?_ofSpanning] at hx hy
    rw [dominates_ofSpanning e.toFound hx hy,
      subtree_ofSpanning e.toDepthFirst (Spanning.lt_of_block? hy)]
  closed a z known edge := by
    rw [contains, nodeId?_ofSpanning, Option.isSome_map, Option.isSome_iff_exists] at known ⊢
    obtain ⟨v, known⟩ := known
    have found := e.number?.mp known
    obtain ⟨w, target, _⟩ :=
      e.finished v (Spanning.lt_of_block? found) a found z ((edges a z).mp edge)
    exact ⟨w, e.number?.mpr target⟩
  arrives source c above a z hsource edge hc isAbove := by
    rw [blockOf?_ofSpanning] at hsource hc
    have insideS := Spanning.lt_of_block? hsource
    have insideC := Spanning.lt_of_block? hc
    obtain ⟨w, target, taken⟩ := e.finished _ insideS a hsource z ((edges a z).mp edge)
    obtain rfl := e.distinct w c.index z target hc
    rw [idomOf?_ofSpanning c insideC] at isAbove
    split at isAbove
    · cases isAbove
    · rename_i positive
      obtain rfl := Option.some.inj isAbove
      have idom := Spanning.idoms_isIdom e.toDepthFirst (Nat.pos_of_ne_zero positive) insideC
      rw [subtree_ofSpanning e.toDepthFirst insideS]
      exact (Spanning.dominates_iff_ancestor e.toDepthFirst insideS).mp
        (idom.2.1.of_edge taken idom.1)

theorem idom_lt (h : Ordered g t) {id above : TreeNode} (isAbove : t.idomOf? id = some above) :
    above.index < id.index ∧ id.index < t.size := by
  have inside : id.index < t.size := by
    by_contra outside
    rw [idomOf?, node?, Array.getElem?_eq_none (Nat.le_of_not_lt outside)] at isAbove
    simp at isAbove
  rcases Nat.eq_zero_or_pos id.index with zero | positive
  · rw [show id = Tree.root from Entity.ext zero, h.idom_root] at isAbove
    simp at isAbove
  · obtain ⟨parent, found, lower, _⟩ := h.idom id positive inside
    rw [found] at isAbove
    exact Option.some.inj isAbove ▸ ⟨lower, inside⟩

theorem levelOf_idom (h : Ordered g t) {id above : TreeNode} (isAbove : t.idomOf? id = some above) :
    t.levelOf id = t.levelOf above + 1 := by
  obtain ⟨lower, inside⟩ := h.idom_lt isAbove
  obtain ⟨above', isAbove', _, level⟩ := h.idom id (by omega) inside
  rwa [Option.some.inj (isAbove.symm.trans isAbove')]

theorem unique (h : Ordered g t) {x y : TreeNode} (hx : t.blockOf? x = some b)
    (hy : t.blockOf? y = some b) : x = y :=
  Option.some.inj (((h.nodeId? b x).mpr hx).symm.trans ((h.nodeId? b y).mpr hy))

theorem contains_iff (h : Ordered g t) : t.contains b = true ↔ ∃ id, t.blockOf? id = some b := by
  rw [contains, Option.isSome_iff_exists]
  exact exists_congr (h.nodeId? b)

theorem contains_of_blockOf? (h : Ordered g t) {id : TreeNode} (known : t.blockOf? id = some b) :
    t.contains b = true :=
  h.contains_iff.mpr ⟨id, known⟩

theorem levelOf_subtree (h : Ordered g t) {x y : TreeNode} (within : t.Subtree x y) :
    x = y ∨ t.levelOf x < t.levelOf y := by
  induction within with
  | self => exact .inl rfl
  | child isAbove _ ih =>
      have level := h.levelOf_idom isAbove
      rcases ih with rfl | lower
      · exact .inr (by omega)
      · exact .inr (by omega)

end Ordered

/-- Of two subtrees with a common node one is part of the other. -/
theorem Subtree.chain {t : Tree} {x y z : TreeNode} (first : t.Subtree x z)
    (second : t.Subtree y z) : t.Subtree x y ∨ t.Subtree y x := by
  induction first with
  | self => exact .inr second
  | child isAbove within ih =>
      cases second with
      | self => exact .inl (.child isAbove within)
      | child isAbove' second =>
          obtain rfl := Option.some.inj (isAbove.symm.trans isAbove')
          exact ih second

structure Sound (g : FlowGraph) (entry : Block) (t : Tree) : Prop extends Ordered g t where
  direction : t.direction = .forward
  block : ∀ id : TreeNode, id.index < t.size → ∃ b, t.blockOf? id = some b
  root : t.blockOf? root = some entry
  reaches : ∀ b, t.contains b = true ↔ Reaches g.Edge entry b
  dominates : ∀ a b, t.dominates a b = true ↔ Dominates g.Edge entry a b
  nearest : ∀ id above a b, t.idomOf? id = some above → t.blockOf? above = some a →
    t.blockOf? id = some b → IsIdom g.Edge entry a b

namespace Sound

variable {g : FlowGraph} {entry : Block} {t : Tree}

theorem dominates_ofSpanning_iff (f : s.Forward g entry) (a b : Block) :
    (Tree.ofSpanning .forward s).dominates a b = true ↔ Dominates g.Edge entry a b := by
  by_cases reached : Reaches g.Edge entry b
  · obtain ⟨v, hv⟩ := f.reaches_iff.mp reached
    by_cases known : ∃ u, s.block? u = some a
    · obtain ⟨u, hu⟩ := known
      rw [dominates_ofSpanning f.toFound hu hv, ← f.dominates_iff hu hv]
      exact (Spanning.dominates_iff_ancestor f.toDepthFirst (Spanning.lt_of_block? hv)).symm
    · have missed : ¬Dominates g.Edge entry a b :=
        fun dom => known (f.reaches_iff.mp (dom.reaches reached))
      have other : a ≠ b := fun same => missed (same ▸ .refl)
      obtain ⟨_, found⟩ := find?_ofSpanning .forward f.toFound hv
      simp [Tree.dominates, found, find?_ofSpanning_none (not_exists.mp known), other, missed]
  · -- Everything dominates what cannot be reached.
    have unknown := not_exists.mp (mt f.reaches_iff.mpr reached)
    have dom : Dominates g.Edge entry a b := fun l r => absurd ⟨l, r⟩ reached
    simp [Tree.dominates, find?_ofSpanning_none unknown, dom]

theorem isIdom_ofSpanning (f : s.Forward g entry) {id above : TreeNode}
    (isAbove : (Tree.ofSpanning .forward s).idomOf? id = some above)
    (ha : s.block? above.index = some a) (hb : s.block? id.index = some b) :
    IsIdom g.Edge entry a b := by
  have inside := Spanning.lt_of_block? hb
  rw [idomOf?_ofSpanning id inside] at isAbove
  split at isAbove
  · exact absurd isAbove (by simp)
  · rename_i positive
    obtain rfl := Option.some.inj isAbove
    have idom := Spanning.idoms_isIdom f.toDepthFirst (Nat.pos_of_ne_zero positive) inside
    refine ⟨?_, (f.dominates_iff ha hb).mp idom.2.1, ?_⟩
    · rintro rfl
      exact idom.1 (f.distinct _ _ a ha hb)
    · intro d other dom
      obtain ⟨u, hu⟩ := f.reaches_iff.mp (dom.reaches (f.reaches_iff.mpr ⟨_, hb⟩))
      refine (f.dominates_iff hu ha).mp (idom.2.2 u ?_ ((f.dominates_iff hu hb).mpr dom))
      rintro rfl
      exact other (Option.some.inj (hu.symm.trans hb))

theorem ofSpanning (f : s.Forward g entry) : Sound g entry (ofSpanning .forward s) where
  toOrdered := .ofSpanning f.exhaustive fun _ _ => Iff.rfl
  direction := rfl
  block id inside := by
    rw [size_ofSpanning] at inside
    rw [blockOf?_ofSpanning]
    exact f.block?_of_lt inside
  root := by
    rw [blockOf?_ofSpanning]
    exact f.root
  reaches b := by
    rw [f.reaches_iff, contains, nodeId?_ofSpanning, Option.isSome_map, Option.isSome_iff_exists]
    exact exists_congr fun v => f.number?
  dominates := dominates_ofSpanning_iff f
  nearest id above a b isAbove ha hb := by
    rw [blockOf?_ofSpanning] at ha hb
    exact isIdom_ofSpanning f isAbove ha hb

theorem above_fuel (h : Sound g entry t) : ∀ fuel more id, id.index ≤ fuel → id.index ≤ more →
    t.above fuel id = t.above more id := by
  intro fuel
  induction fuel with
  | zero =>
      intro more id enough _
      obtain rfl : id = Tree.root := Entity.ext (Nat.le_zero.mp enough)
      cases more <;> simp [above, h.idom_root]
  | succ fuel ih =>
      intro more id enough enough'
      cases more with
      | zero =>
          obtain rfl : id = Tree.root := Entity.ext (Nat.le_zero.mp enough')
          simp [above, h.idom_root]
      | succ more =>
          simp only [above]
          cases isAbove : t.idomOf? id with
          | none => rfl
          | some parent =>
              have lower := (h.idom_lt isAbove).1
              exact congrArg (parent :: ·) (ih more parent (by omega) (by omega))

theorem dominators_root (h : Sound g entry t) : t.dominators entry = [] := by
  rw [dominators, (h.nodeId? entry Tree.root).mpr h.root]
  cases size : t.size with
  | zero => rfl
  | succ n => simp [above, h.idom_root]

/-- The proper dominators of a block are its immediate dominator and the proper dominators of
that. -/
theorem dominators_idom (h : Sound g entry t) {id above : TreeNode}
    (isAbove : t.idomOf? id = some above) (ha : t.blockOf? above = some a)
    (hb : t.blockOf? id = some b) : t.dominators b = a :: t.dominators a := by
  obtain ⟨lower, inside⟩ := h.idom_lt isAbove
  obtain ⟨n, size⟩ : ∃ n, t.size = n + 1 := ⟨t.size - 1, by omega⟩
  rw [dominators, dominators, (h.nodeId? b id).mpr hb, (h.nodeId? a above).mpr ha, size]
  simp only [Tree.above, isAbove, List.filterMap_cons, ha]
  rw [h.above_fuel n (n + 1) above (by omega) (by omega)]
  rfl

theorem idom?_eq (h : Sound g entry t) {id above : TreeNode} (isAbove : t.idomOf? id = some above)
    (ha : t.blockOf? above = some a) (hb : t.blockOf? id = some b) : t.idom? b = some a := by
  rw [idom?, find?, (h.nodeId? b id).mpr hb]
  rw [idomOf?] at isAbove
  simp [isAbove, ha]

theorem exists_node (h : Sound g entry t) (reached : Reaches g.Edge entry b) :
    ∃ id, t.blockOf? id = some b :=
  h.contains_iff.mp ((h.reaches b).mpr reached)

theorem entry_or_idom (h : Sound g entry t) {id : TreeNode} (known : t.blockOf? id = some b) :
    b = entry ∨ ∃ above a, t.idomOf? id = some above ∧ t.blockOf? above = some a := by
  rcases Nat.eq_zero_or_pos id.index with zero | positive
  · rw [show id = Tree.root from Entity.ext zero, h.root] at known
    exact .inl (Option.some.inj known).symm
  · obtain ⟨above, isAbove, lower, _⟩ := h.idom id positive (lt_of_blockOf? known)
    obtain ⟨a, ha⟩ := h.block above (Nat.lt_trans lower (lt_of_blockOf? known))
    exact .inr ⟨above, a, isAbove, ha⟩

theorem exists_child (h : Sound g entry t) {x y : TreeNode} (hx : t.blockOf? x = some a)
    (hy : t.blockOf? y = some b) (other : a ≠ b) (dom : Dominates g.Edge entry a b) :
    ∃ c z, c ∈ t.childrenOf x ∧ t.blockOf? c = some z ∧ Dominates g.Edge entry z b := by
  induction number : y.index using Nat.strongRecOn generalizing y b with
  | _ n ih =>
      rcases h.entry_or_idom hy with rfl | ⟨above, d, isAbove, hd⟩
      · exact absurd (by simpa using dom _ (.here b)) other
      · have idom := h.nearest y above d b isAbove hd hy
        have lower := (h.idom_lt isAbove).1
        by_cases same : a = d
        · subst same
          exact ⟨y, b, (h.children x y).mpr (h.unique hx hd ▸ isAbove), hy, .refl⟩
        · obtain ⟨c, z, child, hc, below⟩ :=
            ih above.index (by omega) hd same (idom.2.2 a other dom) rfl
          exact ⟨c, z, child, hc, below.trans idom.2.1⟩

theorem child_unique (h : Sound g entry t) {x c c' : TreeNode} {z z' : Block}
    (hx : t.blockOf? x = some a) (child : c ∈ t.childrenOf x) (child' : c' ∈ t.childrenOf x)
    (hc : t.blockOf? c = some z) (hc' : t.blockOf? c' = some z') (reached : Reaches g.Edge entry b)
    (dom : Dominates g.Edge entry z b) (dom' : Dominates g.Edge entry z' b) : z = z' := by
  have idom := h.nearest c x a z ((h.children x c).mp child) hx hc
  have idom' := h.nearest c' x a z' ((h.children x c').mp child') hx hc'
  by_contra other
  rcases dom.chain reached dom' with precedes | under
  · exact idom.1 (idom.2.1.antisymm (dom.reaches reached) (idom'.2.2 z other precedes))
  · exact idom'.1 (idom'.2.1.antisymm (dom'.reaches reached) (idom.2.2 z' (Ne.symm other) under))

theorem mem_dominators (h : Sound g entry t) (reached : Reaches g.Edge entry b) :
    a ∈ t.dominators b ↔ a ≠ b ∧ Dominates g.Edge entry a b := by
  obtain ⟨id, known⟩ := h.exists_node reached
  induction number : id.index using Nat.strongRecOn generalizing id b with
  | _ n ih =>
      rcases h.entry_or_idom known with rfl | ⟨above, x, isAbove, hx⟩
      · rw [h.dominators_root]
        refine ⟨fun member => by simp at member, fun ⟨other, dom⟩ => ?_⟩
        exact absurd (by simpa using dom _ (.here b)) other
      · have idom := h.nearest id above x b isAbove hx known
        have lower := (h.idom_lt isAbove).1
        have reachedX := idom.2.1.reaches reached
        rw [h.dominators_idom isAbove hx known, List.mem_cons,
          ih above.index (by omega) reachedX above hx rfl]
        constructor
        · rintro (rfl | ⟨_, dom⟩)
          · exact ⟨idom.1, idom.2.1⟩
          · refine ⟨?_, dom.trans idom.2.1⟩
            rintro rfl
            exact idom.1 (idom.2.1.antisymm reached dom)
        · rintro ⟨other, dom⟩
          by_cases same : a = x
          · exact .inl same
          · exact .inr ⟨same, idom.2.2 a other dom⟩

end Sound

theorem ofFlow_eq_ok {g : FlowGraph} {t : Tree} : ofFlow g direction = .ok t ↔
    ∃ entry, g.entry = some entry ∧ Tree.ofSpanning direction (.ofFlow g entry direction) = t := by
  cases first : g.entry <;> simp [ofFlow, first]

theorem ofFlow_sound (g : FlowGraph) {entry : Block} (first : g.entry = some entry) :
    ∃ t, ofFlow g .forward = .ok t ∧ Sound g entry t :=
  ⟨_, ofFlow_eq_ok.mpr ⟨entry, first, rfl⟩, Sound.ofSpanning (Spanning.forward_forward g entry)⟩

theorem ofFlow_direction {g : FlowGraph} {t : Tree} (planted : ofFlow g direction = .ok t) :
    t.direction = direction := by
  obtain ⟨_, _, rfl⟩ := ofFlow_eq_ok.mp planted
  rfl

theorem ofFlow_ordered {g : FlowGraph} {t : Tree} (planted : ofFlow g direction = .ok t) :
    Ordered g t := by
  obtain ⟨entry, _, rfl⟩ := ofFlow_eq_ok.mp planted
  obtain ⟨_, _, e, edges⟩ := Spanning.ofFlow_exhaustive g entry direction
  exact .ofSpanning e edges

/-- The dominator tree of a procedure with blocks. Nothing is asked of the procedure beyond that: a
block may be placed twice, end in no terminator or lead to blocks that are not placed. -/
theorem ofFlow_dominance (p : Procedure) (placed : p.layout.blocks ≠ []) :
    ∃ entry t, p.entry = some entry ∧ ofFlow (.ofProcedure p) .forward = .ok t ∧
      (∀ b, t.contains b = true ↔ Reaches (FlowGraph.ofProcedure p).Edge entry b) ∧
      (∀ a b, t.dominates a b = true ↔
        a = b ∨ ∀ l, Route (FlowGraph.ofProcedure p).Edge entry b l → a ∈ l) ∧
      ∀ b, Reaches (FlowGraph.ofProcedure p).Edge entry b → b ≠ entry →
        ∃ d, t.idom? b = some d ∧ IsIdom (FlowGraph.ofProcedure p).Edge entry d b := by
  obtain ⟨entry, first⟩ := Option.isSome_iff_exists.mp (List.isSome_head?.mpr placed)
  obtain ⟨t, built, h⟩ := ofFlow_sound _ ((FlowGraph.entry_ofProcedure p).trans first)
  refine ⟨entry, t, first, built, h.reaches, ?_, ?_⟩
  · intro a b
    rw [h.dominates a b]
    exact ⟨.inr, fun either => either.elim (fun same => same ▸ .refl) id⟩
  · intro b reached other
    obtain ⟨id, known⟩ := h.exists_node reached
    obtain ⟨above, d, isAbove, hd⟩ := (h.entry_or_idom known).resolve_left other
    exact ⟨d, h.idom?_eq isAbove hd known, h.nearest id above d b isAbove hd known⟩

/-- A loop that is entered at both its blocks. -/
def twoWayLoop : Procedure where
  name := "loop"
  insts := #[⟨.branch ⟨0⟩ ⟨1⟩ ⟨2⟩, none⟩, ⟨.jump ⟨2⟩, none⟩, ⟨.jump ⟨1⟩, none⟩]
  layout := .ofRows [⟨⟨0⟩, [⟨0⟩]⟩, ⟨⟨1⟩, [⟨1⟩]⟩, ⟨⟨2⟩, [⟨2⟩]⟩]

theorem ofFlow_dominance_twoWayLoop : twoWayLoop.layout.blocks ≠ [] ∧
    ∃ entry t, twoWayLoop.entry = some entry ∧ ofFlow (.ofProcedure twoWayLoop) .forward = .ok t ∧
      (∀ b, t.contains b = true ↔ Reaches (FlowGraph.ofProcedure twoWayLoop).Edge entry b) ∧
      (∀ a b, t.dominates a b = true ↔
        a = b ∨ ∀ l, Route (FlowGraph.ofProcedure twoWayLoop).Edge entry b l → a ∈ l) ∧
      ∀ b, Reaches (FlowGraph.ofProcedure twoWayLoop).Edge entry b → b ≠ entry →
        ∃ d, t.idom? b = some d ∧ IsIdom (FlowGraph.ofProcedure twoWayLoop).Edge entry d b :=
  ⟨by decide, ofFlow_dominance twoWayLoop (by decide)⟩

end Tree

end MemoryFlow
