import MemoryFlow.Proofs.Dominance.Traversal

/-! # The traversals of a flow graph

A traversal keeps the edges it has to take in a worklist. The fuel is enough for every edge, so it
finds what following the edges one inside the other finds (`Spanning.explore_root`). Forward it has
come to all that can be reached from the entry; backward it has come to every placed block.
-/

namespace MemoryFlow

def FlowGraph.Edge (g : FlowGraph) (a b : Block) : Prop :=
  b ∈ g.succs a

theorem FlowGraph.exists_row {g : FlowGraph} {a b : Block} (e : g.Edge a b) :
    ∃ row ∈ g.rows, row.block = a ∧ b ∈ row.succs := by
  simp only [Edge, succs] at e
  cases found : g.rows.find? (·.block == a) with
  | none => simp [found] at e
  | some row =>
      refine ⟨row, List.mem_of_find?_eq_some found, by simpa using List.find?_some found, ?_⟩
      simpa [found] using e

theorem FlowGraph.mem_blocks_of_edge {g : FlowGraph} {a b : Block} (e : g.Edge a b) :
    a ∈ g.blocks := by
  obtain ⟨row, listed, rfl, _⟩ := exists_row e
  exact List.mem_map_of_mem listed

theorem FlowGraph.succs_eq {g : FlowGraph} {row : Row} (distinct : g.blocks.Nodup)
    (listed : row ∈ g.rows) : g.succs row.block = row.succs := by
  have only : ∀ other ∈ g.rows, (other.block == row.block) = true → other = row :=
    fun other member same => List.inj_on_of_nodup_map distinct member listed (beq_iff_eq.mp same)
  rw [succs, find?_eq_of_unique listed (by simp) only]
  rfl

/-- A block leads to another just if it is one of those before it, as long as no block is placed
twice. -/
theorem FlowGraph.mem_preds {g : FlowGraph} {a b : Block} (distinct : g.blocks.Nodup) :
    a ∈ g.preds b ↔ g.Edge a b := by
  rw [preds, List.mem_map, Edge]
  constructor
  · rintro ⟨row, member, rfl⟩
    obtain ⟨listed, leads⟩ := List.mem_filter.mp member
    rw [succs_eq distinct listed]
    exact List.contains_iff_mem.mp leads
  · intro edge
    obtain ⟨row, listed, same, leads⟩ := exists_row edge
    exact ⟨row, List.mem_filter.mpr ⟨listed, List.contains_iff_mem.mpr leads⟩, same⟩

theorem FlowGraph.mem_blocks_of_mem_preds {g : FlowGraph} {a b : Block} (leads : b ∈ g.preds a) :
    b ∈ g.blocks := by
  obtain ⟨row, listed, rfl⟩ := List.mem_map.mp leads
  exact List.mem_map_of_mem (List.mem_filter.mp listed).1

namespace Spanning

section Worklist

variable {next : Block → List Block} {starts domain : List Block} {s t : Spanning}
  {source v fuel more : Nat} {block : Block} {work : List (Nat × Block)}

theorem explore_of_some (known : s.number? block = some v) :
    explore next (more + 1) ((source, block) :: work) s =
      explore next more work (s.addSource v source) := by
  rw [explore, known]

theorem explore_of_none (fresh : s.number? block = none) :
    explore next (more + 1) ((source, block) :: work) s =
      explore next more ((next block).map (s.vertices.size, ·) ++ work)
      (s.addVertex block source) := by
  rw [explore, fresh]

theorem roots_explore : (explore next fuel work s).roots = s.roots := by
  induction fuel generalizing work s with
  | zero => rfl
  | succ fuel ih =>
      cases work with
      | nil => rfl
      | cons edge work =>
          obtain ⟨source, block⟩ := edge
          cases known : s.number? block with
          | some v => exact (congrArg roots (explore_of_some known)).trans ih
          | none => exact (congrArg roots (explore_of_none known)).trans ih

def numbered (s : Spanning) : List Block :=
  (List.range s.vertices.size).filterMap s.block?

theorem numbered_addSource : (s.addSource v source).numbered = s.numbered := by
  rw [numbered, size_addSource, numbered]
  exact List.filterMap_congr fun _ _ => block?_addSource

theorem numbered_addVertex : (s.addVertex block source).numbered = s.numbered ++ [block] := by
  have old : ∀ v ∈ List.range s.vertices.size, (s.addVertex block source).block? v = s.block? v :=
    fun v inside => Extends.addVertex.block?_eq v (List.mem_range.mp inside)
  have new : (s.addVertex block source).block? s.vertices.size = some block := by
    rw [block?_addVertex, if_pos rfl]
  rw [numbered, size_addVertex, List.range_succ, List.filterMap_append, List.filterMap_congr old,
    List.filterMap_cons_some new]
  rfl

theorem mem_numbered : block ∈ s.numbered ↔ ∃ v, s.block? v = some block := by
  rw [numbered, List.mem_filterMap]
  exact exists_congr fun v => and_iff_right_of_imp fun found =>
    List.mem_range.mpr (lt_of_block? found)

theorem Found.nodup_numbered (f : s.Found next starts) : s.numbered.Nodup :=
  List.nodup_range.filterMap f.distinct

/-- How many edges there are from the blocks that have been numbered. -/
def outgoing (next : Block → List Block) (s : Spanning) : Nat :=
  (s.numbered.flatMap next).length

theorem Extends.foldl {step : Spanning → Block → Spanning} {targets : List Block}
    (each : ∀ (s : Spanning) c, s.Extends (step s c)) : s.Extends (targets.foldl step s) :=
  List.foldlRecOn (motive := s.Extends) _ _ .refl fun t ext c _ => ext.trans (each t c)

theorem follow_extends (fuel : Nat) : ∀ (source : Nat) (s : Spanning) (block : Block),
    s.Extends (follow next fuel source s block) := by
  induction fuel with
  | zero => exact fun _ _ _ => .refl
  | succ fuel ih =>
      intro source s block
      cases known : s.number? block with
      | some v =>
          rw [follow_of_some fuel known]
          exact .addSource (lt_of_block? (block?_of_number? known))
      | none =>
          rw [follow_of_none fuel known]
          exact Extends.addVertex.trans (.foldl (ih _))

/-- The worklist is worked off as the edges are followed one inside the other. A step takes one
edge, so there are as many steps as edges from the blocks numbered meanwhile, and those at the
start. -/
theorem explore_eq (covers : ∀ b, (b ∈ starts ∨ ∃ a, b ∈ next a) → next b ≠ [] → b ∈ domain)
    (fuel : Nat) : ∀ targets source s, (∀ c ∈ targets, c ∈ starts ∨ ∃ a, c ∈ next a) →
      (targets ≠ [] → s.unnumbered domain < fuel) →
      ∃ n, (targets.foldl (follow next fuel source) s).outgoing next = s.outgoing next + n ∧
        ∀ more work, explore next (targets.length + n + more) (targets.map (source, ·) ++ work) s =
          explore next more work (targets.foldl (follow next fuel source) s) := by
  have none : ∀ (fuel source : Nat) (s : Spanning),
      ∃ n, (([] : List Block).foldl (follow next fuel source) s).outgoing next =
        s.outgoing next + n ∧
        ∀ more work, explore next (0 + n + more) ([] ++ work) s = explore next more work s := by
    intro fuel source s
    exact ⟨0, rfl, fun more work => by simp⟩
  induction fuel with
  | zero =>
      intro targets source s led room
      obtain rfl : targets = [] := by
        by_contra some
        exact Nat.not_lt_zero _ (room some)
      exact none 0 source s
  | succ fuel ih =>
      intro targets source s led room
      induction targets generalizing s with
      | nil => exact none (fuel + 1) source s
      | cons c targets again =>
          obtain ⟨ledC, led⟩ := List.forall_mem_cons.mp led
          have room := room (List.cons_ne_nil _ _)
          have ext : s.Extends (follow next (fuel + 1) source s c) := follow_extends _ _ _ _
          obtain ⟨n, count, run⟩ := again (follow next (fuel + 1) source s c) led fun _ =>
            Nat.lt_of_le_of_lt (unnumbered_le ext domain) room
          rw [List.foldl_cons]
          cases known : s.number? c with
          | some v =>
              rw [follow_of_some fuel known] at count run ⊢
              refine ⟨n, ?_, fun more work => ?_⟩
              · rw [count, outgoing, numbered_addSource, outgoing]
              · have steps : (c :: targets).length + n + more = targets.length + n + more + 1 := by
                  rw [List.length_cons]
                  omega
                rw [steps, List.map_cons, List.cons_append, explore_of_some known, run]
          | none =>
              rw [follow_of_none fuel known] at count run ⊢
              obtain ⟨n', count', run'⟩ := ih (next c) s.vertices.size (s.addVertex c source)
                (fun d member => .inr ⟨c, member⟩) fun some => Nat.lt_of_lt_of_le
                  (unnumbered_addVertex known (covers c ledC some)) (Nat.le_of_lt_succ room)
              refine ⟨(next c).length + n' + n, ?_, fun more work => ?_⟩
              · rw [count, count', outgoing, numbered_addVertex, List.flatMap_append,
                  List.length_append, List.flatMap_singleton, outgoing]
                omega
              · have steps : (c :: targets).length + ((next c).length + n' + n) + more =
                    (next c).length + n' + (targets.length + n + more) + 1 := by
                  rw [List.length_cons]
                  omega
                rw [steps, List.map_cons, List.cons_append, explore_of_none known, run', run]

/-- From one block the worklist is worked off before the fuel is used up. -/
theorem explore_root (covers : ∀ b, (b ∈ starts ∨ ∃ a, b ∈ next a) → next b ≠ [] → b ∈ domain)
    (start : block ∈ starts) (room : s.unnumbered domain < fuel)
    (found : (follow next fuel 0 s block).Found next starts)
    (top : ∀ b, (follow next fuel 0 s block).block? 0 = some b → b ∈ starts) :
    explore next ((domain.flatMap next).length + 1)
    [(0, block)] s = follow next fuel 0 s block := by
  have most : (follow next fuel 0 s block).outgoing next ≤ (domain.flatMap next).length := by
    refine length_flatMap_le found.nodup_numbered fun b member => covers b ?_
    obtain ⟨v, here⟩ := mem_numbered.mp member
    rcases Nat.eq_zero_or_pos v with rfl | positive
    · exact .inl (top b here)
    · obtain ⟨c, there, ⟨a, _, leads⟩ | ⟨_, start⟩⟩ :=
        found.genuine _ v (found.parent_edge v positive (lt_of_block? here))
      · exact .inr ⟨a, Option.some.inj (there.symm.trans here) ▸ leads⟩
      · exact .inl (Option.some.inj (there.symm.trans here) ▸ start)
  obtain ⟨n, count, run⟩ :=
    explore_eq covers fuel [block] 0 s (by simpa using .inl start) fun _ => room
  rw [List.foldl_cons, List.foldl_nil] at count
  obtain ⟨more, steps⟩ : ∃ more, (domain.flatMap next).length + 1 = [block].length + n + more :=
    Nat.exists_eq_add_of_le (by rw [List.length_singleton]; omega)
  rw [steps]
  refine (run more []).trans ?_
  cases more <;> rfl

theorem Found.withRoots (f : s.Found next starts) (roots : List Block) :
    Found next starts { s with roots } :=
  ⟨⟨f.parent_zero, f.parent_lt, f.parent_edge, f.source_lt, f.forward, f.interval⟩,
    f.distinct, f.genuine⟩

theorem Extends.withRoots (ext : s.Extends t) (roots : List Block) : s.Extends { t with roots } :=
  ⟨ext.size_le, ext.block?_eq, ext.parent_eq, ext.edge⟩

theorem Exhaustive.explore_root (e : s.Exhaustive next starts) (virtual : s.block? 0 = none)
    (covers : ∀ b, (b ∈ starts ∨ ∃ a, b ∈ next a) → next b ≠ [] → b ∈ domain)
    (start : block ∈ starts) :
    Followed next starts 0 [block] s
    (explore next ((domain.flatMap next).length + 1) [(0, block)] s) := by
  have followed := e.follow_root covers (Nat.lt_succ_self _) start
  rw [Spanning.explore_root covers start (Nat.lt_succ_of_le List.countP_le_length) followed.found]
  · exact followed
  · intro b found
    rw [followed.ext.block?_eq 0 e.rooted, virtual] at found
    cases found

theorem Exhaustive.addRoot (e : s.Exhaustive next starts) {g : FlowGraph}
    (followed : Followed next starts 0 [block] s
      (explore next ((g.blocks.flatMap next).length + 1) [(0, block)] s)) :
    (addRoot g next s block).Exhaustive next starts := by
  refine ⟨followed.found.withRoots _, Nat.lt_of_lt_of_le e.rooted followed.ext.size_le, ?_⟩
  intro v inside
  by_cases old : v < s.vertices.size
  · exact (e.finished v old).mono (followed.ext.withRoots _) old
  · exact followed.finished v (Nat.le_of_not_lt old) inside

theorem roots_addRoot {g : FlowGraph} : (addRoot g next s block).roots = s.roots ++ [block] :=
  congrArg (· ++ [block]) roots_explore

end Worklist

/-- What a complete forward traversal is: vertex 0 is the entry, and the edges between vertices are
those between their blocks. The root also counts as its own source. -/
structure Forward (g : FlowGraph) (entry : Block) (s : Spanning) : Prop
    extends s.Found g.succs [entry] where
  root : s.block? 0 = some entry
  finished : ∀ v, v < s.vertices.size → s.Finished g.succs v

theorem forward_forward (g : FlowGraph) (entry : Block) : (forward g entry).Forward g entry := by
  have fresh : number? {} entry = none := number?_eq_none.mpr (by simp [block?])
  have covers : ∀ b, (b ∈ [entry] ∨ ∃ a, b ∈ g.succs a) → g.succs b ≠ [] → b ∈ g.blocks := by
    intro b _ leads
    obtain ⟨c, member⟩ := List.exists_mem_of_ne_nil _ leads
    exact FlowGraph.mem_blocks_of_edge member
  have isOpen : Open {} 0 := fun m _ y _ bounded => by simp at bounded
  have start : entry ∈ [entry] := List.mem_singleton_self entry
  have room : unnumbered {} g.blocks < g.blocks.length + 1 :=
    Nat.lt_succ_of_le List.countP_le_length
  have followed :=
    follow_followed covers (g.blocks.length + 1) {} 0 entry .empty isOpen (.inr ⟨rfl, start⟩)
      (by simp) room
  have root : (follow g.succs (g.blocks.length + 1) 0 {} entry).block? 0 = some entry := by
    rw [follow_of_none _ fresh]
    exact (Extends.foldl (follow_extends _ _)).block? rfl
  have top : ∀ b, (follow g.succs (g.blocks.length + 1) 0 {} entry).block? 0 = some b →
      b ∈ [entry] := by
    intro b found
    exact List.mem_singleton.mpr (Option.some.inj (found.symm.trans root))
  have same := explore_root covers start room followed.found top
  rw [← same] at followed root
  exact ⟨followed.found.withRoots _, root,
    fun v inside => followed.finished v (Nat.zero_le v) inside⟩

theorem virtual_exhaustive {next : Block → List Block} {starts : List Block} :
    Exhaustive next starts { vertices := #[⟨none, 0, []⟩] } := by
  have noEdge : ∀ u v, ¬Edge { vertices := #[⟨none, 0, []⟩] } u v := by
    intro u v
    cases v <;> simp [Edge, sources]
  have noBlock : ∀ v b, block? { vertices := #[⟨none, 0, []⟩] } v ≠ some b := by
    intro v b
    cases v <;> simp [block?]
  have parent : ∀ v, parent { vertices := #[⟨none, 0, []⟩] } v = 0 := by
    intro v
    cases v <;> rfl
  have only : ∀ {v}, v < Array.size #[(⟨none, 0, []⟩ : Vertex)] → v = 0 := by
    intro v inside
    simpa using inside
  refine ⟨⟨⟨parent 0, ?_, ?_, ?_, ?_, ?_⟩, ?_, ?_⟩, Nat.one_pos, ?_⟩
  · intro v positive
    rw [parent v]
    exact positive
  · intro v positive inside
    have := only inside
    omega
  · exact fun u v e => absurd e (noEdge u v)
  · exact fun u v e => absurd e (noEdge u v)
  · intro m y x inside above low high
    have := only inside
    obtain rfl : y = x := by omega
    exact above
  · exact fun u v b found => absurd found (noBlock u b)
  · exact fun u v e => absurd e (noEdge u v)
  · exact fun v _ b found => absurd found (noBlock v b)

/-- What is true of a backward traversal at all times: it has started at its roots and nowhere else,
and has taken every edge back from the blocks it has come to. -/
structure Backward (g : FlowGraph) (s : Spanning) : Prop
    extends s.Exhaustive (fun b => (g.preds b).reverse) s.roots where
  virtual : s.block? 0 = none
  placed : ∀ r ∈ s.roots, r ∈ g.blocks
  started : ∀ r ∈ s.roots, ∃ v, s.block? v = some r ∧ s.Edge 0 v

theorem Backward.start (g : FlowGraph) : Backward g { vertices := #[⟨none, 0, []⟩] } :=
  ⟨virtual_exhaustive, rfl, by simp, by simp⟩

/-- A traversal that starts at one block more keeps what it has found and comes to the block. -/
theorem Backward.addRoot {g : FlowGraph} {s : Spanning} (back : s.Backward g) {block : Block}
    (member : block ∈ g.blocks) :
    let t := addRoot g (fun b => (g.preds b).reverse) s block
    t.Backward g ∧ s.Extends t ∧ ∃ v, t.block? v = some block := by
  have covers : ∀ b, (b ∈ s.roots ++ [block] ∨ ∃ a, b ∈ (g.preds a).reverse) →
      (g.preds b).reverse ≠ [] → b ∈ g.blocks := by
    rintro b (start | ⟨a, leads⟩) _
    · rcases List.mem_append.mp start with old | new
      · exact back.placed b old
      · exact List.mem_singleton.mp new ▸ member
    · exact FlowGraph.mem_blocks_of_mem_preds (List.mem_reverse.mp leads)
  have wider : s.Exhaustive (fun b => (g.preds b).reverse) (s.roots ++ [block]) :=
    back.toExhaustive.mono (List.subset_append_left _ _)
  have start : block ∈ s.roots ++ [block] := by simp
  have followed := wider.explore_root back.virtual covers start
  obtain ⟨v, found, edge⟩ := followed.taken block (List.mem_singleton_self block)
  have roots : (Spanning.addRoot g (fun b => (g.preds b).reverse) s block).roots =
      s.roots ++ [block] := roots_addRoot
  refine ⟨⟨roots ▸ wider.addRoot followed, ?_, ?_, ?_⟩, followed.ext.withRoots _, v, found⟩
  · exact (followed.ext.block?_eq 0 back.rooted).trans back.virtual
  · rw [roots]
    simp only [List.mem_append, List.mem_singleton]
    rintro r (old | rfl)
    · exact back.placed r old
    · exact member
  · rw [roots]
    simp only [List.mem_append, List.mem_singleton]
    rintro r (old | rfl)
    · obtain ⟨w, found, edge⟩ := back.started r old
      exact ⟨w, followed.ext.block? found, followed.ext.edge _ _ edge⟩
    · exact ⟨v, found, edge⟩

theorem backward_backward (g : FlowGraph) :
    (backward g).Backward g ∧ ∀ b ∈ g.blocks, ∃ v, (backward g).block? v = some b := by
  have exits := List.foldlRecOn (motive := Backward g) g.exits
    (addRoot g (fun b => (g.preds b).reverse)) (Backward.start g)
    fun s back block member => by
      obtain ⟨row, listed, rfl⟩ := List.mem_map.mp member
      exact (back.addRoot (List.mem_map_of_mem (List.mem_filter.mp listed).1)).1
  -- A block that was numbered before stays so, the next one is numbered now.
  have rest : ∀ (blocks : List Block) (s : Spanning), s.Backward g → (∀ b ∈ blocks, b ∈ g.blocks) →
      let t := blocks.foldl (fun s block => if (s.number? block).isSome then s else
        addRoot g (fun b => (g.preds b).reverse) s block) s
      t.Backward g ∧ s.Extends t ∧ ∀ b ∈ blocks, ∃ v, t.block? v = some b := by
    intro blocks
    induction blocks with
    | nil => exact fun s back _ => ⟨back, .refl, by simp⟩
    | cons block blocks ih =>
        intro s back inside
        obtain ⟨here, later⟩ := List.forall_mem_cons.mp inside
        rw [List.foldl_cons]
        split
        · rename_i numbered
          obtain ⟨v, known⟩ := Option.isSome_iff_exists.mp numbered
          obtain ⟨back', ext, all⟩ := ih s back later
          exact ⟨back', ext,
            List.forall_mem_cons.mpr ⟨⟨v, ext.block? (block?_of_number? known)⟩, all⟩⟩
        · obtain ⟨next, added, v, found⟩ := back.addRoot here
          obtain ⟨back', ext, all⟩ := ih _ next later
          exact ⟨back', added.trans ext, List.forall_mem_cons.mpr ⟨⟨v, ext.block? found⟩, all⟩⟩
  obtain ⟨back, _, all⟩ := rest g.blocks.reverse _ exits fun b member => List.mem_reverse.mp member
  exact ⟨back, fun b member => all b (List.mem_reverse.mpr member)⟩

theorem Forward.exhaustive {g : FlowGraph} {entry : Block} {s : Spanning} (f : s.Forward g entry) :
    s.Exhaustive g.succs [entry] :=
  ⟨f.toFound, lt_of_block? f.root, f.finished⟩

namespace Forward

variable {g : FlowGraph} {entry a b : Block} {s : Spanning} {u v d : Nat}

theorem block?_of_lt (f : s.Forward g entry) (inside : v < s.vertices.size) :
    ∃ b, s.block? v = some b := by
  by_cases positive : 0 < v
  · obtain ⟨c, found, _⟩ := f.genuine _ _ (f.parent_edge v positive inside)
    exact ⟨c, found⟩
  · obtain rfl : v = 0 := by omega
    exact ⟨entry, f.root⟩

theorem edge_blocks (f : s.Forward g entry) (e : s.Edge u v) (hu : s.block? u = some a)
    (hv : s.block? v = some b) : v = 0 ∨ g.Edge a b := by
  obtain ⟨c, found, ⟨b', source, member⟩ | ⟨_, start⟩⟩ := f.genuine u v e
  · obtain rfl := Option.some.inj (hu.symm.trans source)
    obtain rfl := Option.some.inj (hv.symm.trans found)
    exact .inr member
  · rw [List.mem_singleton.mp start] at found
    exact .inl (f.distinct v 0 entry found f.root)

theorem reaches_iff (f : s.Forward g entry) :
    Reaches g.Edge entry b ↔ ∃ v, s.block? v = some b := by
  constructor
  · have walk : ∀ a l, Route g.Edge a b l → ∀ v, s.block? v = some a →
        ∃ w, s.block? w = some b := by
      intro a l r
      induction r with
      | here => exact fun v found => ⟨v, found⟩
      | step e _ ih =>
          intro v found
          obtain ⟨w, target, _⟩ := f.finished v (lt_of_block? found) _ found _ e
          exact ih w target
    rintro ⟨l, r⟩
    exact walk entry l r 0 f.root
  · rintro ⟨v, found⟩
    induction v using Nat.strongRecOn generalizing b with
    | _ v ih =>
        by_cases positive : 0 < v
        · have e := f.parent_edge v positive (lt_of_block? found)
          obtain ⟨a, source⟩ := f.block?_of_lt (f.source_lt _ _ e)
          have reached := ih _ (f.parent_lt v positive) source
          rcases f.edge_blocks e source found with rfl | edge
          · omega
          · exact reached.step edge
        · obtain rfl : v = 0 := by omega
          obtain rfl := Option.some.inj (f.root.symm.trans found)
          exact .self

theorem avoids_vertices (f : s.Forward g entry) (hd : s.block? d = some a)
    (avoids : Avoids g.Edge entry a b) : ∃ v, s.block? v = some b ∧ Avoids s.Edge 0 d v := by
  induction avoids with
  | start other =>
      refine ⟨0, f.root, .start ?_⟩
      rintro rfl
      exact other (Option.some.inj (f.root.symm.trans hd))
  | step _ e other ih =>
      obtain ⟨u, source, front⟩ := ih
      obtain ⟨v, target, edge⟩ := f.finished u (lt_of_block? source) _ source _ e
      refine ⟨v, target, front.step edge ?_⟩
      rintro rfl
      exact other (Option.some.inj (target.symm.trans hd))

theorem avoids_blocks (f : s.Forward g entry) (hd : s.block? d = some a)
    (avoids : Avoids s.Edge 0 d v) : ∀ b, s.block? v = some b → Avoids g.Edge entry a b := by
  have atRoot : 0 ≠ d → Avoids g.Edge entry a entry := by
    intro other
    refine .start ?_
    rintro rfl
    exact other (f.distinct 0 d entry f.root hd)
  induction avoids with
  | start other =>
      intro b found
      obtain rfl := Option.some.inj (f.root.symm.trans found)
      exact atRoot other
  | @step u v _ e other ih =>
      intro b target
      obtain ⟨c, source⟩ := f.block?_of_lt (f.source_lt u v e)
      -- The root counts as its own source, so an edge to it need not be one of the graph.
      rcases f.edge_blocks e source target with rfl | edge
      · obtain rfl := Option.some.inj (f.root.symm.trans target)
        exact atRoot other
      · refine (ih c source).step edge ?_
        rintro rfl
        exact other (f.distinct v d b target hd)

theorem dominates_iff (f : s.Forward g entry) (hd : s.block? d = some a)
    (hv : s.block? v = some b) : Dominates s.Edge 0 d v ↔ Dominates g.Edge entry a b := by
  rw [← not_iff_not, Dominates.not_iff_avoids, Dominates.not_iff_avoids]
  constructor
  · intro avoids
    exact f.avoids_blocks hd avoids b hv
  · intro avoids
    obtain ⟨w, target, front⟩ := f.avoids_vertices hd avoids
    exact f.distinct w v b target hv ▸ front

end Forward

/-- In either direction a traversal follows all edges of the flow graph from what it has found. -/
theorem ofFlow_exhaustive (g : FlowGraph) (entry : Block) (direction : Direction) :
    ∃ next starts, (ofFlow g entry direction).Exhaustive next starts ∧
      ∀ a z, z ∈ g.next direction a ↔ z ∈ next a := by
  cases direction with
  | forward => exact ⟨_, _, (forward_forward g entry).exhaustive, fun _ _ => Iff.rfl⟩
  | backward => exact ⟨_, _, (backward_backward g).1.toExhaustive, fun _ _ => List.mem_reverse.symm⟩

end Spanning

end MemoryFlow
