import Mathlib.Order.Bounds.Basic
import MemoryFlow.Dominance.Frontier
import MemoryFlow.Proofs.Basic
import MemoryFlow.Proofs.Dominance.Tree

/-! # Iterated frontiers

The frontier of a block is where its dominance ends. The search for an iterated frontier walks each
subtree once only and looks, on a walk below a root, only at edges that lead no lower than the root.
This misses nothing because roots are taken from the bottom of the tree upwards: an edge passed over
on an earlier walk, below a root that was at least as low, is not looked for later either.

All of this is about nodes of the tree and holds in both directions. For dominator trees the
frontier is also described by routes.
-/

namespace MemoryFlow

/-- Whether an edge leaves at `z` what `x` dominates. -/
def FlowGraph.InFrontier (g : FlowGraph) (entry x z : Block) : Prop :=
  ∃ y, Reaches g.Edge entry y ∧ Dominates g.Edge entry x y ∧ g.Edge y z ∧
    (x = z ∨ ¬Dominates g.Edge entry x z)

/-- The frontier of the blocks in `starts`, the frontier of that, and so on. -/
inductive FlowGraph.IteratedFrontier (g : FlowGraph) (entry : Block) (starts : Block → Prop) :
    Block → Prop where
  | first {x z : Block} : starts x → g.InFrontier entry x z → g.IteratedFrontier entry starts z
  | next {x z : Block} : g.IteratedFrontier entry starts x → g.InFrontier entry x z →
      g.IteratedFrontier entry starts z

namespace Tree

/-- Whether an edge from a block of the tree leaves at `z` what `x` dominates in the tree. -/
def InFrontier (t : Tree) (g : FlowGraph) (x z : Block) : Prop :=
  ∃ y, t.contains y = true ∧ z ∈ g.next t.direction y ∧ t.dominates x y = true ∧
    t.properlyDominates x z = false

/-- Whether `S` holds each block in the frontier of a defining block in the tree or of one of its
own, unless the block is defining or not live. -/
def FrontierClosed (t : Tree) (g : FlowGraph) (defining : List Block) (live : Option (List Block))
    (S : Set Block) : Prop :=
  ∀ x z, x ∈ defining ∧ t.contains x = true ∨ x ∈ S → t.InFrontier g x z → z ∉ defining →
    (∀ l, live = some l → z ∈ l) → z ∈ S

/-- Whether an edge leads to `c` from the subtree of `x`, where `c` is not below `x`. -/
def Leaves (t : Tree) (g : FlowGraph) (x c : TreeNode) : Prop :=
  ∃ source b z, t.blockOf? source = some b ∧ z ∈ g.next t.direction b ∧ t.blockOf? c = some z ∧
    t.Subtree x source ∧ (x = c ∨ ¬t.Subtree x c)

variable {g : FlowGraph} {t : Tree} {a b z : Block} {x c source root : TreeNode}

theorem Ordered.inFrontier_iff (h : t.Ordered g) (hx : t.blockOf? x = some a)
    (hc : t.blockOf? c = some z) : t.InFrontier g a z ↔ t.Leaves g x c := by
  have same : a = z ↔ x = c := by
    constructor
    · rintro rfl
      exact h.unique hx hc
    · rintro rfl
      exact Option.some.inj (hx.symm.trans hc)
  have ends : t.properlyDominates a z = false ↔ x = c ∨ ¬t.Subtree x c := by
    rw [properlyDominates, ← h.order x c a z hx hc, ← same]
    cases t.dominates a z <;> simp
  constructor
  · rintro ⟨y, known, edge, dom, leaves⟩
    obtain ⟨source, hy⟩ := h.contains_iff.mp known
    exact ⟨source, y, z, hy, edge, hc, (h.order x source a y hx hy).mp dom, ends.mp leaves⟩
  · rintro ⟨source, y, z', hy, edge, hc', within, leaves⟩
    obtain rfl := Option.some.inj (hc.symm.trans hc')
    exact ⟨y, h.contains_of_blockOf? hy, edge, (h.order x source a y hx hy).mpr within,
      ends.mpr leaves⟩

/-- An edge that leads no lower than a root above its source leaves the subtree of the root. -/
theorem Ordered.leaves_of_edge (h : t.Ordered g) (hsource : t.blockOf? source = some b)
    (edge : z ∈ g.next t.direction b) (hc : t.blockOf? c = some z) (within : t.Subtree root source)
    (low : t.levelOf c ≤ t.levelOf root) : t.Leaves g root c := by
  refine ⟨source, b, z, hsource, edge, hc, within, ?_⟩
  by_cases inside : t.Subtree root c
  · exact .inl ((h.levelOf_subtree inside).resolve_right (by omega))
  · exact .inr inside

/-- An edge that leaves the subtree of a root is no edge of the tree, and leads no lower than the
root. -/
theorem Ordered.edge_of_leaves (h : t.Ordered g) (leaves : t.Leaves g root c) :
    ∃ source b z, t.blockOf? source = some b ∧ z ∈ g.next t.direction b ∧ t.blockOf? c = some z ∧
      t.Subtree root source ∧ t.idomOf? c ≠ some source ∧ t.levelOf c ≤ t.levelOf root := by
  obtain ⟨source, b, z, hsource, edge, hc, within, ends⟩ := leaves
  -- Nothing at or below the root is the immediate dominator of the target.
  have outside : ∀ above, t.idomOf? c = some above → ¬t.Subtree root above := by
    intro above isAbove inside
    have level := h.levelOf_idom isAbove
    rcases ends with rfl | missed
    · rcases h.levelOf_subtree inside with rfl | lower <;> omega
    · exact missed (.child isAbove inside)
  refine ⟨source, b, z, hsource, edge, hc, within, fun below => outside source below within, ?_⟩
  rcases Nat.eq_zero_or_pos c.index with zero | positive
  · rw [show c = Tree.root from Entity.ext zero, h.level_root]
    exact Nat.zero_le _
  · obtain ⟨above, isAbove, _, level⟩ := h.idom c positive (lt_of_blockOf? hc)
    have under := (within.chain (h.arrives source c above b z hsource edge hc isAbove)).resolve_left
      (outside above isAbove)
    rcases h.levelOf_subtree under with rfl | lower
    · exact absurd .self (outside above isAbove)
    · omega

end Tree

namespace FrontierSearch

variable {g : FlowGraph} {t : Tree} {defining : List Block} {live : Option (List Block)}
  {done active : List TreeNode} {a b z : Block} {level fuel : Nat} {id c root source : TreeNode}
  {s s' : FrontierSearch}

def Entered (t : Tree) (defining : List Block) (s : FrontierSearch) (id : TreeNode) : Prop :=
  ∃ b, t.blockOf? id = some b ∧ (b ∈ defining ∨ b ∈ s.found)

theorem Entered.mono (entered : Entered t defining s id) (kept : ∀ b ∈ s.found, b ∈ s'.found) :
    Entered t defining s' id := by
  obtain ⟨b, known, inside⟩ := entered
  exact ⟨b, known, inside.imp_right (kept b)⟩

/-- The books of a search: what has been seen has been put in the queue or is not live, and what has
been put in the queue and is not done waits there. -/
structure Tally (g : FlowGraph) (t : Tree) (defining : List Block) (live : Option (List Block))
    (done : List TreeNode) (level : Nat) (s : FrontierSearch) : Prop where
  entered : ∀ id, Entered t defining s id → id ∈ s.seen
  seen : ∀ id ∈ s.seen, Entered t defining s id ∨
    ∃ b l, t.blockOf? id = some b ∧ live = some l ∧ b ∉ l
  distinct : s.found.Nodup
  sound : ∀ S, t.FrontierClosed g defining live S → ∀ b ∈ s.found, b ∈ S
  queue : ∀ id, id ∈ s.queue ↔ Entered t defining s id ∧ id ∉ done
  once : s.queue.Nodup
  finished : ∀ id ∈ done, Entered t defining s id
  low : ∀ id ∈ s.queue, t.levelOf id ≤ level

/-- Whether every edge from a node that leads no lower than `level` has been seen. -/
def Covered (g : FlowGraph) (t : Tree) (level : Nat) (s : FrontierSearch) (id : TreeNode) : Prop :=
  ∀ a z c, t.blockOf? id = some a → z ∈ g.next t.direction a → t.blockOf? c = some z →
    t.idomOf? c ≠ some id → t.levelOf c ≤ level → c ∈ s.seen

theorem Covered.mono (more : ∀ id ∈ s.seen, id ∈ s'.seen) (covered : Covered g t level s id)
    {low : Nat} (order : low ≤ level) : Covered g t low s' id := by
  intro a z c known e target other small
  exact more c (covered a z c known e target other (Nat.le_trans small order))

/-- What an edge on a walk below a root can do: nothing, or its target is seen for the first time
and is put in the queue if it is live. -/
theorem edge_cases (h : t.Ordered g) (live : Option (List Block)) (level : Nat) (source : TreeNode)
    (s : FrontierSearch) (z : Block) :
    (edge t live level source s z = s ∧ ∀ c, t.blockOf? c = some z → t.idomOf? c ≠ some source →
        t.levelOf c ≤ level → c ∈ s.seen) ∨
      ∃ c, t.blockOf? c = some z ∧ t.levelOf c ≤ level ∧ c ∉ s.seen ∧
        ((∃ l, live = some l ∧ z ∉ l) ∧
            edge t live level source s z = { s with seen := c :: s.seen } ∨
          (∀ l, live = some l → z ∈ l) ∧ edge t live level source s z =
            { s with seen := c :: s.seen, found := s.found ++ [z], queue := c :: s.queue }) := by
  rw [edge]
  cases target : t.nodeId? z with
  | none =>
      refine .inl ⟨rfl, fun c known => ?_⟩
      rw [(h.nodeId? z c).mpr known] at target
      simp at target
  | some c =>
      have known := (h.nodeId? z c).mp target
      by_cases passed : t.idomOf? c = some source ∨ level < t.levelOf c ∨ s.seen.contains c
      · refine .inl ⟨if_pos passed, fun c' known' other small => ?_⟩
        obtain rfl := Option.some.inj (target.symm.trans ((h.nodeId? z c').mpr known'))
        simpa [other, Nat.not_lt.mpr small] using passed
      · dsimp only
        rw [if_neg passed]
        simp only [not_or, Nat.not_lt, List.contains_iff_mem] at passed
        refine .inr ⟨c, known, passed.2.1, passed.2.2, ?_⟩
        cases live with
        | none => exact .inr ⟨by simp, rfl⟩
        | some l =>
            by_cases member : z ∈ l
            · exact .inr ⟨by simpa using member, by simp [member]⟩
            · exact .inl ⟨⟨l, rfl, member⟩, by simp [member]⟩

theorem entered_found (h : t.Ordered g) (hc : t.blockOf? c = some z)
    (found : s'.found = s.found ++ [z]) :
    Entered t defining s' id ↔ id = c ∨ Entered t defining s id := by
  simp only [Entered, found, List.mem_append, List.mem_singleton]
  constructor
  · rintro ⟨b, known, inside | member | rfl⟩
    · exact .inr ⟨b, known, .inl inside⟩
    · exact .inr ⟨b, known, .inr member⟩
    · exact .inl (h.unique known hc)
  · rintro (rfl | ⟨b, known, inside⟩)
    · exact ⟨z, hc, .inr (.inr rfl)⟩
    · exact ⟨b, known, inside.imp_right .inl⟩

theorem Tally.mem_closed (h : t.Ordered g) (tally : Tally g t defining live done level s)
    {S : Set Block} (closed : t.FrontierClosed g defining live S)
    (isRoot : Entered t defining s root) (leaves : t.Leaves g root c) (hc : t.blockOf? c = some z)
    (new : z ∉ defining) (alive : ∀ l, live = some l → z ∈ l) : z ∈ S := by
  obtain ⟨a, hroot, entered⟩ := isRoot
  refine closed a z ?_ ((h.inFrontier_iff hroot hc).mpr leaves) new alive
  exact entered.imp (fun start => ⟨start, h.contains_of_blockOf? hroot⟩) (tally.sound S closed a)

theorem Tally.edge (h : t.Ordered g) (tally : Tally g t defining live done (t.levelOf root) s)
    (isRoot : Entered t defining s root) (hsource : t.blockOf? source = some b)
    (within : t.Subtree root source) (e : z ∈ g.next t.direction b) :
    Tally g t defining live done (t.levelOf root) (edge t live (t.levelOf root) source s z) := by
  obtain ⟨same, _⟩ | ⟨c, hc, low, new, ⟨⟨l, isLive, dead⟩, grown⟩ | ⟨alive, grown⟩⟩ :=
    edge_cases h live (t.levelOf root) source s z
  · rwa [same]
  · rw [grown]
    refine ⟨fun id inside => List.mem_cons_of_mem _ (tally.entered id inside), ?_, tally.distinct,
      tally.sound, tally.queue, tally.once, tally.finished, tally.low⟩
    exact List.forall_mem_cons.mpr ⟨.inr ⟨z, l, hc, isLive, dead⟩, tally.seen⟩
  · rw [grown]
    have unentered : ¬Entered t defining s c := fun inside => new (tally.entered c inside)
    have entered : ∀ id, Entered t defining { s with
        seen := c :: s.seen, found := s.found ++ [z], queue := c :: s.queue } id ↔
          id = c ∨ Entered t defining s id := fun id => entered_found h hc rfl
    refine ⟨?_, ?_, ?_, ?_, ?_, ?_, ?_, ?_⟩
    · intro id inside
      rcases (entered id).mp inside with rfl | inside
      · exact List.mem_cons_self
      · exact List.mem_cons_of_mem _ (tally.entered id inside)
    · refine List.forall_mem_cons.mpr ⟨.inl ((entered c).mpr (.inl rfl)), fun id member => ?_⟩
      exact (tally.seen id member).imp_left fun inside => (entered id).mpr (.inr inside)
    · refine List.nodup_append.mpr ⟨tally.distinct, by simp, ?_⟩
      rintro x member y single rfl
      exact unentered ⟨z, hc, .inr (List.mem_singleton.mp single ▸ member)⟩
    · intro S closed x member
      rcases List.mem_append.mp member with member | single
      · exact tally.sound S closed x member
      · rw [List.mem_singleton.mp single]
        exact tally.mem_closed h closed isRoot (h.leaves_of_edge hsource e hc within low) hc
          (fun start => unentered ⟨z, hc, .inl start⟩) alive
    · intro id
      have unfinished : c ∉ done := fun member => unentered (tally.finished c member)
      rw [entered, List.mem_cons, tally.queue id]
      constructor
      · rintro (rfl | ⟨inside, waits⟩)
        · exact ⟨.inl rfl, unfinished⟩
        · exact ⟨.inr inside, waits⟩
      · rintro ⟨rfl | inside, waits⟩
        · exact .inl rfl
        · exact .inr ⟨inside, waits⟩
    · exact List.nodup_cons.mpr ⟨fun member => unentered ((tally.queue c).mp member).1, tally.once⟩
    · exact fun id member => (entered id).mpr (.inr (tally.finished id member))
    · exact List.forall_mem_cons.mpr ⟨low, tally.low⟩

theorem edges (h : t.Ordered g) (hsource : t.blockOf? source = some b)
    (within : t.Subtree root source) (targets : List Block)
    (real : ∀ z ∈ targets, z ∈ g.next t.direction b) (s : FrontierSearch)
    (tally : Tally g t defining live done (t.levelOf root) s) (isRoot : Entered t defining s root) :
    ∃ s', targets.foldl (edge t live (t.levelOf root) source) s = s' ∧
      Tally g t defining live done (t.levelOf root) s' ∧ s'.walked = s.walked ∧
      (∀ b ∈ s.found, b ∈ s'.found) ∧ (∀ id ∈ s.seen, id ∈ s'.seen) ∧
      ∀ z ∈ targets, ∀ c, t.blockOf? c = some z → t.idomOf? c ≠ some source →
        t.levelOf c ≤ t.levelOf root → c ∈ s'.seen := by
  induction targets generalizing s with
  | nil => exact ⟨s, rfl, tally, rfl, fun _ member => member, fun _ member => member, by simp⟩
  | cons z targets ih =>
      have tally' := tally.edge h isRoot hsource within (real z (by simp))
      obtain ⟨walked, kept, more, all⟩ :
        (edge t live (t.levelOf root) source s z).walked = s.walked ∧
          (∀ b ∈ s.found, b ∈ (edge t live (t.levelOf root) source s z).found) ∧
          (∀ id ∈ s.seen, id ∈ (edge t live (t.levelOf root) source s z).seen) ∧
          ∀ c, t.blockOf? c = some z → t.idomOf? c ≠ some source → t.levelOf c ≤ t.levelOf root →
            c ∈ (edge t live (t.levelOf root) source s z).seen := by
        obtain ⟨same, all⟩ | ⟨c, hc, _, _, ⟨_, grown⟩ | ⟨_, grown⟩⟩ :=
          edge_cases h live (t.levelOf root) source s z
        · rw [same]
          exact ⟨rfl, fun _ member => member, fun _ member => member, all⟩
        · rw [grown]
          exact ⟨rfl, fun _ member => member, fun _ member => List.mem_cons_of_mem _ member,
            fun c' hc' _ _ => List.mem_cons.mpr (.inl (h.unique hc' hc))⟩
        · rw [grown]
          exact ⟨rfl, fun _ member => List.mem_append_left _ member,
            fun _ member => List.mem_cons_of_mem _ member,
            fun c' hc' _ _ => List.mem_cons.mpr (.inl (h.unique hc' hc))⟩
      obtain ⟨s', run, final, walked', kept', more', rest⟩ :=
        ih (fun z member => real z (List.mem_cons_of_mem _ member)) _ tally' (isRoot.mono kept)
      refine ⟨s', run, final, walked'.trans walked, fun b member => kept' b (kept b member),
        fun id member => more' id (more id member), ?_⟩
      exact List.forall_mem_cons.mpr ⟨fun c hc other low => more' c (all c hc other low), rest⟩

/-- A search in the middle of a walk. What has been walked is covered, and its children have been
walked too, except below the nodes that are being walked. -/
structure Searching (g : FlowGraph) (t : Tree) (defining : List Block) (live : Option (List Block))
    (done : List TreeNode) (level : Nat) (active : List TreeNode) (s : FrontierSearch) : Prop
    extends Tally g t defining live done level s where
  covered : ∀ id ∈ s.walked, Covered g t level s id
  closed : ∀ id ∈ s.walked, id ∉ active → ∀ c ∈ t.childrenOf id, c ∈ s.walked

structure Continues (s s' : FrontierSearch) : Prop where
  found : ∀ b ∈ s.found, b ∈ s'.found
  seen : ∀ id ∈ s.seen, id ∈ s'.seen
  walked : ∀ id ∈ s.walked, id ∈ s'.walked

theorem Continues.refl : Continues s s :=
  ⟨fun _ member => member, fun _ member => member, fun _ member => member⟩

theorem Continues.trans {s'' : FrontierSearch} (first : Continues s s')
    (second : Continues s' s'') : Continues s s'' :=
  ⟨fun b member => second.found b (first.found b member),
    fun id member => second.seen id (first.seen id member),
    fun id member => second.walked id (first.walked id member)⟩

theorem Searching.enter (h : t.Ordered g)
    (searching : Searching g t defining live done (t.levelOf root) active s)
    (isRoot : Entered t defining s root) (known : t.blockOf? id = some b)
    (within : t.Subtree root id) :
    ∃ s', (g.next t.direction b).foldl (FrontierSearch.edge t live (t.levelOf root) id)
        { s with walked := id :: s.walked } = s' ∧
      Searching g t defining live done (t.levelOf root) (id :: active) s' ∧ Continues s s' ∧
      id ∈ s'.walked := by
  obtain ⟨s', run, tally, walked, found, more, all⟩ := edges h known within (g.next t.direction b)
    (fun _ member => member) { s with walked := id :: s.walked }
    ⟨searching.entered, searching.seen, searching.distinct, searching.sound,
      searching.queue, searching.once, searching.finished, searching.low⟩ isRoot
  refine ⟨s', run, ⟨tally, ?_, ?_⟩, ⟨found, more, fun x member => ?_⟩, walked ▸ List.mem_cons_self⟩
  · intro x member
    rcases List.mem_cons.mp (walked ▸ member) with rfl | member
    · intro a' z c known' e hc other low
      rw [Option.some.inj (known'.symm.trans known)] at e
      exact all z e c hc other low
    · exact (searching.covered x member).mono more (Nat.le_refl _)
  · intro x member inactive c child
    simp only [List.mem_cons, not_or] at inactive
    rcases List.mem_cons.mp (walked ▸ member) with same | member
    · exact absurd same inactive.1
    · exact walked ▸ List.mem_cons_of_mem _ (searching.closed x member inactive.2 c child)
  · exact walked ▸ List.mem_cons_of_mem _ member

theorem Searching.leave (searching : Searching g t defining live done level (id :: active) s)
    (below : ∀ c ∈ t.childrenOf id, c ∈ s.walked) :
    Searching g t defining live done level active s := by
  refine ⟨searching.toTally, searching.covered, ?_⟩
  intro x member inactive c child
  by_cases same : x = id
  · subst same
    exact below c child
  · exact searching.closed x member (by simp [same, inactive]) c child

theorem walks_searching (nodes : List TreeNode)
    (each : ∀ c ∈ nodes, ∀ s, Entered t defining s root →
      Searching g t defining live done level active s →
      Searching g t defining live done level active (walk g t live level fuel s c) ∧
        Continues s (walk g t live level fuel s c) ∧ c ∈ (walk g t live level fuel s c).walked)
    (s : FrontierSearch) (isRoot : Entered t defining s root)
    (searching : Searching g t defining live done level active s) :
    ∃ s', nodes.foldl (walk g t live level fuel) s = s' ∧
      Searching g t defining live done level active s' ∧ Continues s s' ∧
      ∀ c ∈ nodes, c ∈ s'.walked := by
  induction nodes generalizing s with
  | nil => exact ⟨s, rfl, searching, .refl, by simp⟩
  | cons c nodes ih =>
      obtain ⟨searching₁, more, here⟩ := each c (by simp) s isRoot searching
      obtain ⟨s', run, final, more', rest⟩ :=
        ih (fun c member => each c (List.mem_cons_of_mem _ member)) _ (isRoot.mono more.found)
          searching₁
      exact ⟨s', run, final, more.trans more',
        List.forall_mem_cons.mpr ⟨more'.walked c here, rest⟩⟩

theorem walk_searching (h : t.Ordered g) : ∀ fuel active s id b, t.size ≤ fuel + id.index →
    t.blockOf? id = some b → t.Subtree root id → Entered t defining s root →
    Searching g t defining live done (t.levelOf root) active s →
    Searching g t defining live done (t.levelOf root) active
    (walk g t live (t.levelOf root) fuel s id) ∧
    Continues s (walk g t live (t.levelOf root) fuel s id) ∧
      id ∈ (walk g t live (t.levelOf root) fuel s id).walked := by
  intro fuel
  induction fuel with
  | zero =>
      intro active s id b enough known
      have inside := Tree.lt_of_blockOf? known
      omega
  | succ fuel ih =>
      intro active s id b enough known within isRoot searching
      rw [walk]
      by_cases before : id ∈ s.walked
      · rw [if_pos (List.contains_iff_mem.mpr before)]
        exact ⟨searching, .refl, before⟩
      · rw [if_neg (by simpa using before)]
        simp only [known, Option.map_some, Option.getD_some]
        obtain ⟨s₁, run, opened, more, here⟩ := searching.enter h isRoot known within
        obtain ⟨s₂, run₂, searching₂, more₂, below⟩ :=
          walks_searching (t.childrenOf id).reverse (fun c member s isRoot searching => by
            have isAbove := (h.children id c).mp (List.mem_reverse.mp member)
            obtain ⟨lower, inside⟩ := h.idom_lt isAbove
            obtain ⟨z, hc⟩ := h.placed c (by omega) inside
            exact ih (id :: active) s c z (by omega) hc (.child isAbove within) isRoot searching)
            s₁ (isRoot.mono more.found) opened
        rw [run, run₂]
        exact ⟨searching₂.leave fun c child => below c (List.mem_reverse.mpr child),
          more.trans more₂, more₂.walked id here⟩

/-- Whether all that the subtree of a node leads to has been seen. -/
def Exhausted (g : FlowGraph) (t : Tree) (s : FrontierSearch) (root : TreeNode) : Prop :=
  ∀ c, t.Leaves g root c → c ∈ s.seen

theorem Searching.walked_below (h : t.Ordered g)
    (searching : Searching g t defining live done level [] s) (walked : root ∈ s.walked)
    (within : t.Subtree root id) : id ∈ s.walked := by
  induction within with
  | self => exact walked
  | child isAbove _ ih => exact searching.closed _ ih (by simp) _ ((h.children _ _).mpr isAbove)

theorem Searching.exhausted (h : t.Ordered g)
    (searching : Searching g t defining live done (t.levelOf root) [] s)
    (walked : root ∈ s.walked) : Exhausted g t s root := by
  intro c leaves
  obtain ⟨source, b, z, hsource, e, hc, within, other, low⟩ := h.edge_of_leaves leaves
  exact searching.covered source (searching.walked_below h walked within) b z c hsource e
    hc other low

theorem lowest?_cons (t : Tree) (x : TreeNode) (queue : List TreeNode) :
    ∃ id, lowest? t (x :: queue) = some id ∧ id ∈ x :: queue ∧
      ∀ y ∈ x :: queue, t.levelOf y ≤ t.levelOf id := by
  induction queue generalizing x with
  | nil => exact ⟨x, rfl, by simp⟩
  | cons y queue ih =>
      have step : lowest? t (x :: y :: queue) = lowest? t ((if t.levelOf x < t.levelOf y ∨
          (t.levelOf x = t.levelOf y ∧ x.index < y.index) then y else x) :: queue) := by
        simp only [lowest?, List.foldl_cons]
        split <;> rfl
      rw [step]
      split
      · obtain ⟨id, found, member, all⟩ := ih y
        have first := all y (by simp)
        refine ⟨id, found, List.mem_cons_of_mem _ member, ?_⟩
        exact List.forall_mem_cons.mpr ⟨by omega, all⟩
      · obtain ⟨id, found, member, all⟩ := ih x
        have first := all x (by simp)
        refine ⟨id, found, by grind, ?_⟩
        simp only [List.forall_mem_cons] at all ⊢
        exact ⟨all.1, by omega, all.2⟩

theorem Searching.pop (searching : Searching g t defining live done level [] s)
    (member : id ∈ s.queue) (lowest : ∀ x ∈ s.queue, t.levelOf x ≤ t.levelOf id) :
    Searching g t defining live (id :: done) (t.levelOf id)
    [] { s with queue := s.queue.erase id } := by
  refine ⟨⟨searching.entered, searching.seen, searching.distinct, searching.sound, ?_,
    searching.once.erase id, ?_, ?_⟩, ?_, searching.closed⟩
  · intro x
    change x ∈ s.queue.erase id ↔ Entered t defining s x ∧ x ∉ id :: done
    rw [searching.once.mem_erase_iff, searching.queue x, List.mem_cons]
    tauto
  · exact List.forall_mem_cons.mpr ⟨((searching.queue id).mp member).1, searching.finished⟩
  · exact fun x left => lowest x (List.mem_of_mem_erase left)
  · exact fun x walked =>
      (searching.covered x walked).mono (fun _ seen => seen) (searching.low id member)

/-- When the queue has run empty, all that has been put in it is exhausted. -/
theorem run_exhausted (h : t.Ordered g) : ∀ fuel done level s, t.size ≤ fuel + done.length →
    done.Nodup → Searching g t defining live done level [] s → (∀ id ∈ done, Exhausted g t s id) →
    ∃ done' level' s', run g t live fuel s = s' ∧ Searching g t defining live done' level' [] s' ∧
      ∀ id, Entered t defining s' id → Exhausted g t s' id := by
  intro fuel
  induction fuel with
  | zero =>
      intro done level s enough distinct searching exhausted
      refine ⟨done, level, s, rfl, searching, fun id entered => exhausted id ?_⟩
      -- Every round is done with one node more, so by now there is none left.
      by_contra waits
      have bounded : ∀ x ∈ id :: done, x.index < t.size := by
        refine List.forall_mem_cons.mpr ⟨?_, fun x member => ?_⟩
        · obtain ⟨b, known, _⟩ := entered
          exact Tree.lt_of_blockOf? known
        · obtain ⟨b, known, _⟩ := searching.finished x member
          exact Tree.lt_of_blockOf? known
      have count := Entity.length_le (List.nodup_cons.mpr ⟨waits, distinct⟩) bounded
      simp only [List.length_cons] at count
      omega
  | succ fuel ih =>
      intro done level s enough distinct searching exhausted
      cases waiting : s.queue with
      | nil =>
          refine ⟨done, level, s, by rw [run, waiting]; rfl, searching,
            fun id entered => exhausted id ?_⟩
          by_contra waits
          have member := (searching.queue id).mpr ⟨entered, waits⟩
          simp [waiting] at member
      | cons x queue =>
          obtain ⟨id, next, member, lowest⟩ := lowest?_cons t x queue
          rw [← waiting] at next member lowest
          obtain ⟨⟨a, hid, inside⟩, waits⟩ := (searching.queue id).mp member
          obtain ⟨searching₁, more, here⟩ := walk_searching h t.size []
            { s with queue := s.queue.erase id } id a (Nat.le_add_right _ _) hid .self
            ⟨a, hid, inside⟩ (searching.pop member lowest)
          have count : t.size ≤ fuel + (id :: done).length := by
            simp only [List.length_cons]
            omega
          have spent : ∀ x ∈ id :: done, Exhausted g t (walk g t live (t.levelOf id) t.size
              { s with queue := s.queue.erase id } id) x := by
            refine List.forall_mem_cons.mpr
              ⟨searching₁.exhausted h here, fun x member c leaves => ?_⟩
            exact more.seen c (exhausted x member c leaves)
          obtain ⟨done', level', s', finished, final, all⟩ :=
            ih (id :: done) _ _ count (List.nodup_cons.mpr ⟨waits, distinct⟩) searching₁ spent
          refine ⟨done', level', s', ?_, final, all⟩
          rw [run, next, ← finished]

end FrontierSearch

theorem FlowGraph.IteratedFrontier.mono {g : FlowGraph} {entry z : Block} {P Q : Block → Prop}
    (sub : ∀ b, P b → Q b) (inside : g.IteratedFrontier entry P z) :
    g.IteratedFrontier entry Q z := by
  induction inside with
  | first start leaves => exact .first (sub _ start) leaves
  | next _ leaves ih => exact .next ih leaves

theorem FlowGraph.IteratedFrontier.reaches {g : FlowGraph} {entry z : Block} {P : Block → Prop}
    (inside : g.IteratedFrontier entry P z) : Reaches g.Edge entry z := by
  cases inside with
  | first _ leaves | next _ leaves =>
      obtain ⟨y, reached, _, e, _⟩ := leaves
      exact reached.step e

/-- A block that is come to from one other block alone is in no frontier, unless it dominates that
block. -/
theorem FlowGraph.not_inFrontier {g : FlowGraph} {entry x y z : Block}
    (only : ∀ c, g.Edge c z → c = y) (other : z ≠ entry) (not : ¬Dominates g.Edge entry z y) :
    ¬g.InFrontier entry x z := by
  rintro ⟨c, _, dom, edge, same | missed⟩ <;> obtain rfl := only c edge
  · exact not (same ▸ dom)
  · refine missed fun l r => ?_
    obtain ⟨init, rfl⟩ := r.ends
    have some_step : init ≠ [] := by
      rintro rfl
      exact other r.cons_start
    obtain ⟨d, last, toD⟩ := r.last_step some_step
    obtain rfl := only d last
    exact List.mem_append_left _ (dom init toD)

namespace Tree

variable {g : FlowGraph} {t : Tree}

/-- A search finds the least set that is closed under frontiers, and each of its blocks once. -/
theorem Ordered.frontier_spec (h : t.Ordered g) (defining : List Block)
    (live : Option (List Block)) : (t.frontier g defining live).Nodup ∧
      IsLeast {S | t.FrontierClosed g defining live S} {z | z ∈ t.frontier g defining live} := by
  have start_iff : ∀ id, id ∈ (defining.filterMap t.nodeId?).eraseDups ↔
      FrontierSearch.Entered t defining
        { queue := (defining.filterMap t.nodeId?).eraseDups,
          seen := (defining.filterMap t.nodeId?).eraseDups } id := by
    intro id
    simp [FrontierSearch.Entered, h.nodeId?, and_comm]
  obtain ⟨level, bounded⟩ : ∃ level, ∀ id ∈ (defining.filterMap t.nodeId?).eraseDups,
      t.levelOf id ≤ level := by
    cases (defining.filterMap t.nodeId?).eraseDups with
    | nil => exact ⟨0, by simp⟩
    | cons x rest =>
        obtain ⟨id, _, _, lowest⟩ := FrontierSearch.lowest?_cons t x rest
        exact ⟨t.levelOf id, lowest⟩
  have first : FrontierSearch.Searching g t defining live [] level []
      { queue := (defining.filterMap t.nodeId?).eraseDups,
        seen := (defining.filterMap t.nodeId?).eraseDups } := by
    refine ⟨⟨fun id => (start_iff id).mpr,
      fun id member => .inl ((start_iff id).mp member), by simp,
      by simp, fun id => ?_, nodup_eraseDups _, by simp, bounded⟩, by simp, by simp⟩
    rw [start_iff]
    simp
  obtain ⟨done, level, s, ran, searching, exhausted⟩ :=
    FrontierSearch.run_exhausted h t.size [] _ _ (by simp) (by simp) first (by simp)
  have found : t.frontier g defining live = s.found := by
    rw [← ran]
    rfl
  rw [found]
  refine ⟨searching.distinct, ?_, searching.sound⟩
  intro x z start leaves new alive
  -- Edges do not leave the tree, so all that is found is in it.
  have placed : ∀ y ∈ s.found, t.contains y = true :=
    searching.sound {y | t.contains y = true} fun _ y _ ⟨source, known, edge, _⟩ _ _ =>
      h.closed source y known edge
  have inside : t.contains x = true ∧ (x ∈ defining ∨ x ∈ s.found) :=
    start.elim (fun ⟨member, known⟩ => ⟨known, .inl member⟩) fun member =>
      ⟨placed x member, .inr member⟩
  obtain ⟨root, hroot⟩ := h.contains_iff.mp inside.1
  obtain ⟨c, hc⟩ : ∃ c, t.blockOf? c = some z := by
    obtain ⟨source, known, edge, _⟩ := leaves
    exact h.contains_iff.mp (h.closed source z known edge)
  have seen := exhausted root ⟨x, hroot, inside.2⟩ c ((h.inFrontier_iff hroot hc).mp leaves)
  rcases searching.seen c seen with ⟨z', hc', member⟩ | ⟨z', l, hc', isLive, dead⟩ <;>
    obtain rfl := Option.some.inj (hc.symm.trans hc')
  · exact member.resolve_left new
  · exact absurd (alive l isLive) dead

end Tree

namespace Tree.Sound

variable {g : FlowGraph} {entry : Block} {t : Tree}

theorem inFrontier_iff (h : t.Sound g entry) (x z : Block) :
    t.InFrontier g x z ↔ g.InFrontier entry x z := by
  have ends : t.properlyDominates x z = false ↔ x = z ∨ ¬Dominates g.Edge entry x z := by
    rw [properlyDominates, ← h.dominates x z]
    cases t.dominates x z <;> simp
  simp only [InFrontier, FlowGraph.InFrontier, h.reaches, h.dominates, ends, h.direction]
  exact exists_congr fun y => and_congr_right fun _ => and_left_comm

/-- A search finds the blocks of the iterated frontier that it did not start with, each once. -/
theorem frontier_spec (h : t.Sound g entry) (defining : List Block) :
    (t.frontier g defining none).Nodup ∧ ∀ z, z ∈ t.frontier g defining none ↔
      g.IteratedFrontier entry (· ∈ defining) z ∧ z ∉ defining := by
  obtain ⟨distinct, closed, least⟩ := h.toOrdered.frontier_spec defining none
  refine ⟨distinct, fun z => ⟨fun member => ?_, ?_⟩⟩
  · refine least (a := {z | g.IteratedFrontier entry (· ∈ defining) z ∧ z ∉ defining}) ?_ member
    rintro x z (⟨start, _⟩ | ⟨inside, _⟩) leaves new _
    · exact ⟨.first start ((h.inFrontier_iff x z).mp leaves), new⟩
    · exact ⟨.next inside ((h.inFrontier_iff x z).mp leaves), new⟩
  · rintro ⟨inside, new⟩
    induction inside with
    | @first x z start leaves =>
        have leaves' := (h.inFrontier_iff x z).mpr leaves
        obtain ⟨y, reached, dom, _⟩ := leaves
        exact closed x z (.inl ⟨start, (h.reaches x).mpr (dom.reaches reached)⟩) leaves'
          new (by simp)
    | @next x z above leaves ih =>
        refine closed x z ?_ ((h.inFrontier_iff x z).mpr leaves) new (by simp)
        by_cases start : x ∈ defining
        · exact .inl ⟨start, (h.reaches x).mpr above.reaches⟩
        · exact .inr (ih start)

end Tree.Sound

namespace Tree

/-- What a search answers in either direction is the least set that is closed under frontiers. So
the order in which the defining blocks are listed does not matter. -/
theorem frontier_isLeast {g : FlowGraph} {direction : Direction} {t : Tree}
    (planted : ofFlow g direction = .ok t) (defining : List Block) (live : Option (List Block)) :
    t.direction = direction ∧ (t.frontier g defining live).Nodup ∧
      IsLeast {S | t.FrontierClosed g defining live S} {z | z ∈ t.frontier g defining live} ∧
      ∀ other, (∀ b, b ∈ other ↔ b ∈ defining) →
        ∀ z, z ∈ t.frontier g other live ↔ z ∈ t.frontier g defining live := by
  have h := ofFlow_ordered planted
  obtain ⟨distinct, least⟩ := h.frontier_spec defining live
  refine ⟨ofFlow_direction planted, distinct, least, fun other same z => ?_⟩
  have least' : IsLeast {S | t.FrontierClosed g defining live S}
      {z | z ∈ t.frontier g other live} := by
    simpa only [FrontierClosed, same] using (h.frontier_spec other live).2
  exact Set.ext_iff.mp (least'.unique least) z

/-- A diamond with a way back from its bottom to one of its sides. -/
def loopedDiamond : Procedure where
  name := "diamond"
  insts := #[⟨.branch ⟨0⟩ ⟨1⟩ ⟨2⟩, none⟩, ⟨.jump ⟨3⟩, none⟩, ⟨.jump ⟨3⟩, none⟩,
    ⟨.branch ⟨0⟩ ⟨1⟩ ⟨4⟩, none⟩, ⟨.ret none, none⟩]
  layout := .ofRows [⟨⟨0⟩, [⟨0⟩]⟩, ⟨⟨1⟩, [⟨1⟩]⟩, ⟨⟨2⟩, [⟨2⟩]⟩, ⟨⟨3⟩, [⟨3⟩]⟩, ⟨⟨4⟩, [⟨4⟩]⟩]

theorem frontier_isLeast_loopedDiamond :
    ∃ t, ofFlow (.ofProcedure loopedDiamond) .backward = .ok t ∧
    t.frontier (.ofProcedure loopedDiamond) [⟨1⟩] (some [⟨0⟩]) = [⟨0⟩] ∧
    t.direction = .backward ∧ (t.frontier (.ofProcedure loopedDiamond) [⟨1⟩] (some [⟨0⟩])).Nodup ∧
    IsLeast {S | t.FrontierClosed (.ofProcedure loopedDiamond) [⟨1⟩] (some [⟨0⟩]) S}
      {z | z ∈ t.frontier (.ofProcedure loopedDiamond) [⟨1⟩] (some [⟨0⟩])} ∧
    ∀ other, (∀ b, b ∈ other ↔ b ∈ [⟨1⟩]) →
      ∀ z, z ∈ t.frontier (.ofProcedure loopedDiamond) other (some [⟨0⟩]) ↔
        z ∈ t.frontier (.ofProcedure loopedDiamond) [⟨1⟩] (some [⟨0⟩]) := by
  obtain ⟨t, planted, answer⟩ := exists_of_any (x := ofFlow (.ofProcedure loopedDiamond) .backward)
    (P := fun t => t.frontier (.ofProcedure loopedDiamond) [⟨1⟩] (some [⟨0⟩]) == [⟨0⟩])
    (by decide +kernel)
  exact ⟨t, planted, eq_of_beq answer, frontier_isLeast planted [⟨1⟩] (some [⟨0⟩])⟩

/-- A branch to two blocks, and a block that control never comes to and that leads to one of
them. -/
def deadEntrance : Procedure where
  name := "dead"
  insts := #[⟨.branch ⟨0⟩ ⟨2⟩ ⟨3⟩, none⟩, ⟨.jump ⟨2⟩, none⟩, ⟨.ret none, none⟩, ⟨.ret none, none⟩]
  layout := .ofRows [⟨⟨0⟩, [⟨0⟩]⟩, ⟨⟨1⟩, [⟨1⟩]⟩, ⟨⟨2⟩, [⟨2⟩]⟩, ⟨⟨3⟩, [⟨3⟩]⟩]

/-- Every block dominates a block outside the tree, but the edges from there are not looked at: if
they counted, the answers would not be closed under frontiers. -/
theorem frontier_passes_dead_edge : ∃ t, ofFlow (.ofProcedure deadEntrance) .forward = .ok t ∧
    ¬∀ x z,
      x ∈ [⟨3⟩] ∧ t.contains x = true ∨ x ∈ t.frontier (.ofProcedure deadEntrance) [⟨3⟩] none →
      (∃ y, z ∈ (FlowGraph.ofProcedure deadEntrance).next t.direction y ∧ t.dominates x y = true ∧
        t.properlyDominates x z = false) →
      z ∉ [⟨3⟩] → z ∈ t.frontier (.ofProcedure deadEntrance) [⟨3⟩] none := by
  obtain ⟨t, planted, facts⟩ := exists_of_any (x := ofFlow (.ofProcedure deadEntrance) .forward)
    (P := fun t => t.contains ⟨3⟩ &&
    (FlowGraph.ofProcedure deadEntrance).next t.direction ⟨1⟩ == [⟨2⟩] &&
      t.dominates ⟨3⟩ ⟨1⟩ && !t.properlyDominates ⟨3⟩ ⟨2⟩ &&
      t.frontier (.ofProcedure deadEntrance) [⟨3⟩] none == []) (by decide +kernel)
  simp only [Bool.and_eq_true, beq_iff_eq, Bool.not_eq_true'] at facts
  obtain ⟨⟨⟨⟨inside, edge⟩, dom⟩, leaves⟩, none⟩ := facts
  refine ⟨t, planted, fun closed => ?_⟩
  have member :=
    closed ⟨3⟩ ⟨2⟩ (.inl ⟨by simp, inside⟩) ⟨⟨1⟩, by simp [edge], dom, leaves⟩ (by decide)
  simp [none] at member

end Tree

end MemoryFlow
