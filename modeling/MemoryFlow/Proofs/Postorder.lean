import MemoryFlow.Proofs.Dominance.Tree

/-! # Finishing order

A depth-first walk lists a block when it is done with the block's successors. At that moment every
successor has been seen: it is listed already, or the walk is still inside it. The walk is inside
the blocks it came through, and those reach the block. So an edge to a block that is listed later
always leads back, whatever circles there are (`Sweep.order`).
-/

namespace MemoryFlow

theorem Reaches.of_edge {α : Type} {edge : α → α → Prop} {a b c : α} (e : edge a b)
    (rest : Reaches edge b c) : Reaches edge a c := by
  obtain ⟨l, r⟩ := rest
  exact ⟨_, .step e r⟩

namespace FlowGraph

variable {g : FlowGraph} {a b : Block} {seen seen' starts starts' new new' : List Block}
  {state state' state'' : List Block × List Block}

/-- What is listed by a walk from some blocks when others have been seen before it. -/
structure Sweep (g : FlowGraph) (seen starts new : List Block) : Prop where
  nodup : new.Nodup
  fresh : ∀ b ∈ new, b ∉ seen
  reached : ∀ b ∈ new, ∃ a ∈ starts, Reaches g.Edge a b
  started : ∀ a ∈ starts, a ∈ seen ∨ a ∈ new
  closed : ∀ a ∈ new, ∀ b, g.Edge a b → b ∈ seen ∨ b ∈ new
  /-- An edge to a block that is listed later leads back. -/
  order : new.Pairwise fun a b => g.Edge a b → Reaches g.Edge b a

namespace Sweep

theorem nil (known : ∀ a ∈ starts, a ∈ seen) : Sweep g seen starts [] where
  nodup := .nil
  fresh := by simp
  reached := by simp
  started a start := .inl (known a start)
  closed := by simp
  order := .nil

theorem append (first : Sweep g seen starts new) (second : Sweep g seen' starts' new')
    (between : ∀ b, b ∈ seen' ↔ b ∈ seen ∨ b ∈ new) :
    Sweep g seen (starts ++ starts') (new ++ new') where
  nodup := by
    refine List.nodup_append'.mpr ⟨first.nodup, second.nodup, ?_⟩
    intro b old late
    exact second.fresh b late ((between b).mpr (.inr old))
  fresh b member := by
    rcases List.mem_append.mp member with early | late
    · exact first.fresh b early
    · exact fun known => second.fresh b late ((between b).mpr (.inl known))
  reached b member := by
    rcases List.mem_append.mp member with early | late
    · obtain ⟨a, start, way⟩ := first.reached b early
      exact ⟨a, List.mem_append_left _ start, way⟩
    · obtain ⟨a, start, way⟩ := second.reached b late
      exact ⟨a, List.mem_append_right _ start, way⟩
  started a start := by
    rcases List.mem_append.mp start with early | late
    · grind [first.started a early]
    · grind [second.started a late]
  closed a member b edge := by
    rcases List.mem_append.mp member with early | late
    · grind [first.closed a early b edge]
    · grind [second.closed a late b edge]
  order := by
    refine List.pairwise_append.mpr ⟨first.order, second.order, ?_⟩
    -- What the first walk leads to has been seen when the second begins.
    intro a early b late edge
    exact absurd ((between b).mpr (first.closed a early b edge)) (second.fresh b late)

theorem leads (below : Sweep g seen (g.succs b) new) (member : a ∈ new) : Reaches g.Edge b a := by
  obtain ⟨next, edge, way⟩ := below.reached a member
  exact .of_edge edge way

theorem finish (below : Sweep g (b :: seen) (g.succs b) new) (unseen : b ∉ seen) :
    Sweep g seen [b] (new ++ [b]) where
  nodup := by
    have other : b ∉ new := fun member => below.fresh b member List.mem_cons_self
    exact List.nodup_append'.mpr ⟨below.nodup, List.nodup_singleton b, by simpa using other⟩
  fresh a member := by
    rcases List.mem_append.mp member with early | last
    · exact fun known => below.fresh a early (List.mem_cons_of_mem b known)
    · exact List.mem_singleton.mp last ▸ unseen
  reached a member := by
    refine ⟨b, List.mem_singleton_self b, ?_⟩
    rcases List.mem_append.mp member with early | last
    · exact below.leads early
    · exact List.mem_singleton.mp last ▸ .self
  started := by simp
  closed a member c edge := by
    have seen_or_below : c ∈ b :: seen ∨ c ∈ new := by
      rcases List.mem_append.mp member with early | last
      · exact below.closed a early c edge
      · exact below.started c (List.mem_singleton.mp last ▸ edge)
    grind
  order := by
    refine List.pairwise_append.mpr ⟨below.order, List.pairwise_singleton _ b, ?_⟩
    intro a early c last _
    exact List.mem_singleton.mp last ▸ below.leads early

theorem mem_of_reaches (sweep : Sweep g [] starts new) (listed : a ∈ new)
    (way : Reaches g.Edge a b) : b ∈ new := by
  obtain ⟨l, route⟩ := way
  induction route with
  | here => exact listed
  | step edge _ ih => exact ih (by simpa using sweep.closed _ listed _ edge)

theorem before (sweep : Sweep g [] starts new) (listed : a ∈ new) (edge : g.Edge a b)
    (onward : ¬Reaches g.Edge b a) : [b, a].Sublist new := by
  obtain ⟨pre, post, rfl⟩ := List.append_of_mem listed
  have found : b ∈ pre ++ a :: post := by simpa using sweep.closed a listed b edge
  obtain ⟨_, later, _⟩ := List.pairwise_append.mp sweep.order
  rcases List.mem_append.mp found with early | late
  · exact (List.singleton_sublist.mpr early).append (List.singleton_sublist.mpr List.mem_cons_self)
  · rcases List.mem_cons.mp late with rfl | late
    · exact absurd .self onward
    · exact absurd (List.rel_of_pairwise_cons later late edge) onward

end Sweep

/-- What a walk from some blocks makes of the blocks seen and the blocks listed. -/
def Sweeps (g : FlowGraph) (starts : List Block) (state state' : List Block × List Block) : Prop :=
  ∃ new, Sweep g state.1 starts new ∧ state'.2 = state.2 ++ new ∧
    ∀ b, b ∈ state'.1 ↔ b ∈ state.1 ∨ b ∈ new

namespace Sweeps

theorem refl (known : ∀ a ∈ starts, a ∈ state.1) : Sweeps g starts state state :=
  ⟨[], .nil known, by simp, by simp⟩

theorem append (first : Sweeps g starts state state') (second : Sweeps g starts' state' state'') :
    Sweeps g (starts ++ starts') state state'' := by
  obtain ⟨new, early, listed, seen⟩ := first
  obtain ⟨new', late, listed', seen'⟩ := second
  refine ⟨new ++ new', early.append late seen, ?_, ?_⟩
  · rw [listed', listed, List.append_assoc]
  · simp [seen', seen, or_assoc]

theorem finish (below : Sweeps g (g.succs b) (b :: state.1, state.2) state')
    (unseen : b ∉ state.1) : Sweeps g [b] state (state'.1, state'.2 ++ [b]) := by
  obtain ⟨new, sweep, listed, seen⟩ := below
  refine ⟨new ++ [b], sweep.finish unseen, ?_, ?_⟩
  · simp [listed]
  · intro a
    simp only [seen, List.mem_cons, List.mem_append]
    grind

end Sweeps

def unseen (g : FlowGraph) (seen : List Block) : Nat :=
  g.blocks.countP fun b => !seen.contains b

theorem not_contains_of_subset (more : ∀ b ∈ seen, b ∈ seen')
    (missing : (!seen'.contains b) = true) : (!seen.contains b) = true := by
  simp only [Bool.not_eq_true', List.contains_eq_mem, decide_eq_false_iff_not] at missing ⊢
  exact fun known => missing (more b known)

theorem unseen_le (more : ∀ b ∈ seen, b ∈ seen') : g.unseen seen' ≤ g.unseen seen :=
  List.countP_mono_left fun _ _ => not_contains_of_subset more

theorem unseen_cons (placed : b ∈ g.blocks) (fresh : b ∉ seen) :
    g.unseen (b :: seen) < g.unseen seen :=
  countP_lt (fun _ _ => not_contains_of_subset fun _ => List.mem_cons_of_mem b) placed
    (by simpa using fresh) (by simp)

theorem unseen_nil_lt (g : FlowGraph) : g.unseen [] < g.rows.length + 1 := by
  have most : g.unseen [] ≤ g.blocks.length := List.countP_le_length
  rw [blocks, List.length_map] at most
  omega

/-- Add to the blocks listed those reachable from a block that have not been seen, each after the
blocks first reached through it. The fuel bounds the length of a path through fresh blocks. -/
def finishFrom (g : FlowGraph) : Nat → List Block × List Block → Block → List Block × List Block
  | 0, state, _ => state
  | fuel + 1, (seen, done), block =>
      if seen.contains block then (seen, done)
      else
        let (seen, done) := (g.succs block).foldl (g.finishFrom fuel) (block :: seen, done)
        (seen, done ++ [block])

theorem finishFrom_known {fuel : Nat} (known : b ∈ state.1) :
    g.finishFrom (fuel + 1) state b = state := by
  rw [finishFrom, if_pos (List.contains_iff_mem.mpr known)]

theorem finishFrom_fresh {fuel : Nat} (fresh : b ∉ state.1) : g.finishFrom (fuel + 1) state b =
    (((g.succs b).foldl (g.finishFrom fuel) (b :: state.1, state.2)).1,
      ((g.succs b).foldl (g.finishFrom fuel) (b :: state.1, state.2)).2 ++ [b]) := by
  rw [finishFrom, if_neg (mt List.contains_iff_mem.mp fresh)]

theorem foldl_sweeps {fuel : Nat}
    (single : ∀ state b, g.unseen state.1 < fuel → Sweeps g [b] state (g.finishFrom fuel state b)) :
    ∀ starts state, g.unseen state.1 < fuel →
      Sweeps g starts state (starts.foldl (g.finishFrom fuel) state) := by
  intro starts
  induction starts with
  | nil => exact fun state _ => .refl (by simp)
  | cons b rest ih =>
      intro state room
      have first := single state b room
      have more : ∀ a ∈ state.1, a ∈ (g.finishFrom fuel state b).1 := by
        obtain ⟨_, _, _, seen⟩ := first
        exact fun a known => (seen a).mpr (.inl known)
      exact first.append (ih _ (Nat.lt_of_le_of_lt (unseen_le more) room))

/-- A walk sweeps what it leads to, if there is fuel for every block that has not been seen. -/
theorem finishFrom_sweeps (fuel : Nat) : ∀ state b, g.unseen state.1 < fuel →
    Sweeps g [b] state (g.finishFrom fuel state b) := by
  induction fuel with
  | zero => exact fun _ _ room => absurd room (Nat.not_lt_zero _)
  | succ fuel ih =>
      intro state b room
      by_cases known : b ∈ state.1
      · rw [finishFrom_known known]
        exact .refl (by simpa using known)
      rw [finishFrom_fresh known]
      refine Sweeps.finish ?_ known
      -- A block that is not placed leads nowhere, and no fuel is needed below it.
      by_cases placed : b ∈ g.blocks
      · have fewer : g.unseen (b :: state.1) < g.unseen state.1 := unseen_cons placed known
        exact foldl_sweeps ih _ _ (Nat.lt_of_lt_of_le fewer (Nat.le_of_lt_succ room))
      · rw [List.eq_nil_iff_forall_not_mem.mpr fun c edge => placed (mem_blocks_of_edge edge)]
        exact .refl (by simp)

/-- How many steps a walk makes inside these blocks: it looks at their successors and leaves
them. -/
def cost (g : FlowGraph) (l : List Block) : Nat :=
  (l.flatMap g.succs).length + l.length

theorem cost_append : g.cost (new ++ new') = g.cost new + g.cost new' := by
  simp only [cost, List.flatMap_append, List.length_append]
  omega

theorem cost_singleton : g.cost [b] = (g.succs b).length + 1 := by
  simp [cost]

/-- There is fuel for the blocks that are placed or have an edge to them, each once. -/
theorem cost_le {l : List Block} (nodup : l.Nodup)
    (known : ∀ b ∈ l, b ∈ g.blocks ∨ ∃ a, g.Edge a b) :
    g.cost l ≤ g.blocks.length + 2 * (g.blocks.flatMap g.succs).length := by
  have within : l ⊆ g.blocks ++ g.blocks.flatMap g.succs := by
    intro b member
    rw [List.mem_append]
    refine (known b member).imp_right fun ⟨a, edge⟩ => ?_
    exact List.mem_flatMap.mpr ⟨a, mem_blocks_of_edge edge, edge⟩
  have few := (nodup.subperm within).length_le
  have edges : (l.flatMap g.succs).length ≤ (g.blocks.flatMap g.succs).length := by
    refine length_flatMap_le nodup fun b _ leads => ?_
    obtain ⟨c, edge⟩ := List.exists_mem_of_ne_nil _ leads
    exact mem_blocks_of_edge edge
  rw [List.length_append] at few
  rw [cost]
  omega

section Steps

variable {c : Block} {next more : Nat} {stack : List (Block × Nat)} {left : List Block}

theorem finishOn_done (rest : (g.succs b).drop next = []) :
    g.finishOn (more + 1) ((b, next) :: stack) state =
      g.finishOn more stack (state.1, state.2 ++ [b]) := by
  rw [finishOn, List.getElem?_eq_none_iff.mpr (List.drop_eq_nil_iff.mp rest)]

theorem finishOn_known (rest : (g.succs b).drop next = c :: left) (known : c ∈ state.1) :
    g.finishOn (more + 1) ((b, next) :: stack) state =
      g.finishOn more ((b, next + 1) :: stack) state := by
  rw [finishOn, (drop_eq_cons rest).1]
  exact if_pos (List.contains_iff_mem.mpr known)

theorem finishOn_fresh (rest : (g.succs b).drop next = c :: left) (fresh : c ∉ state.1) :
    g.finishOn (more + 1) ((b, next) :: stack) state =
      g.finishOn more ((c, 0) :: (b, next + 1) :: stack) (c :: state.1, state.2) := by
  rw [finishOn, (drop_eq_cons rest).1]
  exact if_neg (mt List.contains_iff_mem.mp fresh)

end Steps

/-- The walk with a stack looks at the successors of a block that are left, one by one, and lists
the block. A step looks at a successor, and goes there if it has not been seen. -/
theorem finishOn_eq (fuel : Nat) : ∀ b next left state, (b ∈ g.blocks → g.unseen state.1 < fuel) →
    (g.succs b).drop next = left →
    ∃ new, (left.foldl (g.finishFrom fuel) state).2 = state.2 ++ new ∧
      ∀ more stack, g.finishOn (g.cost new + left.length + 1 + more) ((b, next) :: stack) state =
        g.finishOn more stack ((left.foldl (g.finishFrom fuel) state).1,
          (left.foldl (g.finishFrom fuel) state).2 ++ [b]) := by
  have last : ∀ {b next} fuel state, (g.succs b).drop next = [] →
      ∃ new, (([] : List Block).foldl (g.finishFrom fuel) state).2 = state.2 ++ new ∧
        ∀ more stack, g.finishOn (g.cost new + 0 + 1 + more) ((b, next) :: stack) state =
          g.finishOn more stack (state.1, state.2 ++ [b]) := by
    intro b next fuel state rest
    refine ⟨[], (List.append_nil _).symm, fun more stack => ?_⟩
    rw [show g.cost [] + 0 + 1 + more = more + 1 from Nat.add_comm 1 more, finishOn_done rest]
  induction fuel with
  | zero =>
      intro b next left state room rest
      have nowhere : g.succs b = [] := List.eq_nil_iff_forall_not_mem.mpr fun c edge =>
        absurd (room (mem_blocks_of_edge edge)) (Nat.not_lt_zero _)
      obtain rfl : left = [] := by rw [← rest, nowhere, List.drop_nil]
      exact last 0 state rest
  | succ fuel ih =>
      intro b next left state room rest
      induction left generalizing next state with
      | nil => exact last (fuel + 1) state rest
      | cons c left again =>
          obtain ⟨looked, rest'⟩ := drop_eq_cons rest
          have room' := room (mem_blocks_of_edge (List.mem_of_getElem? looked))
          rw [List.foldl_cons]
          by_cases known : c ∈ state.1
          · rw [finishFrom_known known]
            obtain ⟨new, listed, run⟩ := again (next + 1) state (fun _ => room') rest'
            refine ⟨new, listed, fun more stack => ?_⟩
            have steps : g.cost new + (c :: left).length + 1 + more =
                g.cost new + left.length + 1 + more + 1 := by
              rw [List.length_cons]
              omega
            rw [steps, finishOn_known rest known, run]
          · have fewer : g.unseen (g.finishFrom (fuel + 1) state c).1 < fuel + 1 := by
              obtain ⟨_, _, _, seen⟩ := finishFrom_sweeps (fuel + 1) state c room'
              exact Nat.lt_of_le_of_lt (unseen_le fun a known => (seen a).mpr (.inl known)) room'
            obtain ⟨new', listed', run'⟩ := again (next + 1) _ (fun _ => fewer) rest'
            rw [finishFrom_fresh known] at listed' run' ⊢
            obtain ⟨new, listed, run⟩ := ih c 0 _ (c :: state.1, state.2)
              (fun placed => Nat.lt_of_lt_of_le (unseen_cons placed known)
              (Nat.le_of_lt_succ room')) List.drop_zero
            refine ⟨new ++ [c] ++ new', listed'.trans (by simp [listed]), fun more stack => ?_⟩
            have steps : g.cost (new ++ [c] ++ new') + (c :: left).length + 1 + more =
                g.cost new + (g.succs c).length + 1 +
                (g.cost new' + left.length + 1 + more) + 1 := by
              rw [cost_append, cost_append, cost_singleton, List.length_cons]
              omega
            rw [steps, finishOn_fresh rest known, run, run']

/-- The walk with a stack lists what is found from the entry. -/
theorem postorder_eq {entry : Block} (first : g.entry = some entry) :
    g.postorder = (g.finishFrom (g.rows.length + 1) ([], []) entry).2 := by
  have placed : entry ∈ g.blocks := List.mem_of_head? first
  have room : g.unseen [entry] < g.rows.length :=
    Nat.lt_of_lt_of_le (unseen_cons placed List.not_mem_nil) (Nat.le_of_lt_succ g.unseen_nil_lt)
  obtain ⟨new, listed, run⟩ :=
    finishOn_eq g.rows.length entry 0 _ ([entry], []) (fun _ => room) List.drop_zero
  have into : (g.finishFrom (g.rows.length + 1) ([], []) entry).2 =
      ((g.succs entry).foldl (g.finishFrom g.rows.length) ([entry], [])).2 ++ [entry] := by
    rw [finishFrom_fresh List.not_mem_nil]
  obtain ⟨all, sweep, whole, _⟩ := finishFrom_sweeps _ ([], []) entry g.unseen_nil_lt
  have enough : g.cost new + (g.succs entry).length + 1 ≤
      g.blocks.length + 2 * (g.blocks.flatMap g.succs).length := by
    have same : all = new ++ [entry] := by
      simpa [into, listed] using whole.symm
    have most : g.cost all ≤ _ := cost_le sweep.nodup fun b member => by
      obtain ⟨a, start, way⟩ := sweep.reached b member
      obtain rfl := List.mem_singleton.mp start
      rcases way.eq_or_edge with rfl | into
      · exact .inl placed
      · exact .inr into
    rwa [same, cost_append, cost_singleton] at most
  obtain ⟨more, steps⟩ := Nat.exists_eq_add_of_le enough
  rw [postorder, first, into]
  dsimp only
  rw [steps, run]
  cases more <;> rfl

/-- The walk from the entry starts with nothing seen, and ends by listing the entry. -/
theorem postorder_sweep {entry : Block} (first : g.entry = some entry) :
    Sweep g [] [entry] g.postorder ∧ g.postorder.getLast? = some entry := by
  obtain ⟨new, sweep, listed, _⟩ := finishFrom_sweeps _ ([], []) entry g.unseen_nil_lt
  have order : g.postorder = new := by simpa [postorder_eq first] using listed
  refine ⟨order ▸ sweep, ?_⟩
  simp [postorder_eq first, finishFrom]

/-- The finishing order of a procedure with blocks: what control may come to, the entry last, and
each block after its successors as far as these do not lead back. So the reverse is a topological
order of what is not on a circle. -/
theorem postorder_topological (p : Procedure) (placed : p.layout.blocks ≠ []) :
    ∃ entry, p.entry = some entry ∧
      (∀ b, b ∈ (ofProcedure p).postorder ↔ Reaches (ofProcedure p).Edge entry b) ∧
      (ofProcedure p).postorder.Nodup ∧ (ofProcedure p).postorder.getLast? = some entry ∧
      ∀ u v, u ∈ (ofProcedure p).postorder → (ofProcedure p).Edge u v →
        v ∈ (ofProcedure p).postorder ∧ (¬Reaches (ofProcedure p).Edge v u →
          [v, u].Sublist (ofProcedure p).postorder ∧
          [u, v].Sublist (ofProcedure p).reversePostorder) := by
  obtain ⟨entry, first⟩ := Option.isSome_iff_exists.mp (List.isSome_head?.mpr placed)
  obtain ⟨sweep, last⟩ := postorder_sweep ((entry_ofProcedure p).trans first)
  refine ⟨entry, first, fun b => ⟨?_, ?_⟩, sweep.nodup, last,
    fun u v listed edge => ⟨?_, fun onward => ?_⟩⟩
  · intro listed
    simpa using sweep.reached b listed
  · exact sweep.mem_of_reaches (by simpa using sweep.started entry)
  · simpa using sweep.closed u listed v edge
  · have before := sweep.before listed edge onward
    exact ⟨before, before.reverse⟩

/-- The entry of the loop comes after both its blocks, for neither leads back to it. The blocks of
the loop lead to each other, and only one of them can be listed after its successor. -/
theorem postorder_topological_twoWayLoop :
    Tree.twoWayLoop.layout.blocks ≠ [] ∧ (ofProcedure Tree.twoWayLoop).postorder = [⟨2⟩, ⟨1⟩, ⟨0⟩] ∧
      (ofProcedure Tree.twoWayLoop).Edge ⟨0⟩ ⟨1⟩ ∧
      ¬Reaches (ofProcedure Tree.twoWayLoop).Edge ⟨1⟩ ⟨0⟩ ∧
      [⟨1⟩, ⟨0⟩].Sublist (ofProcedure Tree.twoWayLoop).postorder ∧
      [⟨0⟩, ⟨1⟩].Sublist (ofProcedure Tree.twoWayLoop).reversePostorder ∧
      (ofProcedure Tree.twoWayLoop).Edge ⟨1⟩ ⟨2⟩ ∧ (ofProcedure Tree.twoWayLoop).Edge ⟨2⟩ ⟨1⟩ := by
  have listed : (ofProcedure Tree.twoWayLoop).postorder = [⟨2⟩, ⟨1⟩, ⟨0⟩] := by decide +kernel
  have edge : ∀ u v, v ∈ (ofProcedure Tree.twoWayLoop).succs u →
      (ofProcedure Tree.twoWayLoop).Edge u v :=
    fun _ _ member => member
  have onward : ¬Reaches (ofProcedure Tree.twoWayLoop).Edge ⟨1⟩ ⟨0⟩ := by
    rintro ⟨l, way⟩
    obtain ⟨front, rfl⟩ := way.ends
    have moves : front ≠ [] := by
      rintro rfl
      exact absurd way.cons_start (by decide)
    obtain ⟨u, leads, _⟩ := way.last_step moves
    have sources : ∀ u ∈ (ofProcedure Tree.twoWayLoop).blocks,
        ⟨0⟩ ∉ (ofProcedure Tree.twoWayLoop).succs u := by decide
    exact sources u (mem_blocks_of_edge leads) leads
  obtain ⟨_, _, _, _, _, order⟩ := postorder_topological Tree.twoWayLoop (by decide)
  obtain ⟨before, after⟩ := (order ⟨0⟩ ⟨1⟩ (by simp [listed]) (edge _ _ (by decide))).2 onward
  exact ⟨by decide, listed, edge _ _ (by decide), onward, before, after, edge _ _ (by decide),
    edge _ _ (by decide)⟩

end FlowGraph

end MemoryFlow
