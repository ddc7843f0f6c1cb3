import MemoryFlow.Proofs.Clobber.Execution
import MemoryFlow.Proofs.Graph.Construction

/-! # What memory holds along executions

Along an execution memory is first as on entry, then what each phi and each definition makes of it.
A graph is faithful if its links tell what memory holds on every execution. It is so just if phis
are placed completely: a block that defines memory gets no phi, so if it is one where definitions
flow together, the first access there is linked to one of them and some execution brings another.
-/

namespace MemoryFlow.Graph

open Walker

variable {g : Graph} {p : Procedure} {o : Oracle} {config : Config} {entry b : Block} {x : Access}
  {way : List Block}

def stateAfter (g : Graph) (moments : List Moment) : Access :=
  moments.foldl (fun held moment => (g.definerAt moment).getD held) .liveOnEntry

/-- Whether what an access is linked to, and what flows into a phi, is what memory holds there on
every execution. -/
structure Faithful (p : Procedure) (entry : Block) (g : Graph) : Prop where
  linked : ∀ a n inst way earlier later, g.node? a = some n → n.inst? = some inst →
    Route (FlowGraph.ofProcedure p).Edge entry n.block (way ++ [n.block]) →
    p.layout.insts n.block = earlier ++ inst :: later →
    n.defining? = some (g.stateAfter (p.happens way n.block earlier))
  flows : ∀ phi n way pred, g.node? phi = some n → n.isPhi = true →
    Route (FlowGraph.ofProcedure p).Edge entry pred (way ++ [pred]) →
    (FlowGraph.ofProcedure p).Edge pred n.block →
    ∀ value, (pred, value) ∈ n.incoming ↔
      value = g.stateAfter (p.happens way pred (p.layout.insts pred))

theorem stateAfter_snoc (g : Graph) (moments : List Moment) (moment : Moment) :
    g.stateAfter (moments ++ [moment]) = (g.definerAt moment).getD (g.stateAfter moments) := by
  rw [stateAfter, List.foldl_append]
  rfl

theorem stateAfter_eq (g : Graph) (moments : List Moment) :
    g.stateAfter moments = (moments.filterMap g.definerAt).getLast?.getD .liveOnEntry := by
  induction moments using List.reverseRecOn with
  | nil => rfl
  | append_singleton moments moment ih =>
      rw [stateAfter_snoc, List.filterMap_append]
      cases here : g.definerAt moment with
      | none => rw [List.filterMap_cons_none here, List.filterMap_nil, List.append_nil, ← ih]; rfl
      | some a => rw [List.filterMap_cons_some here, List.filterMap_nil, List.getLast?_concat]; rfl

namespace Shaped

variable (h : g.Shaped p entry)
include h

theorem stateAfter_happens (way : List Block) (b : Block) (earlier : List Inst) :
    g.stateAfter (p.happens way b earlier) =
      (way.flatMap g.definitions ++ g.defining ((g.phi? b).toList ++
        earlier.filterMap g.access?)).getLast?.getD .liveOnEntry := by
  rw [stateAfter_eq, h.filterMap_happens, List.getLast?_cons, Option.getD_some]

/-- A route up through what was defined on the way starts at what memory holds. -/
theorem stateAfter_of_route {earlier : List Inst} {seen : List Access}
    (run : seen = (g.phi? b).toList ++ earlier.filterMap g.access?)
    (up : Route g.Above x .liveOnEntry
      ((g.defining seen).reverse ++ ((way.flatMap g.definitions).reverse ++ [.liveOnEntry]))) :
    g.stateAfter (p.happens way b earlier) = x := by
  obtain ⟨tail, top⟩ := up.begins
  have newest : (Access.liveOnEntry :: (way.flatMap g.definitions ++ g.defining seen)).reverse =
      x :: tail := by simpa using top
  rw [stateAfter_eq, h.filterMap_happens, ← run, List.getLast?_eq_head?_reverse, newest]
  rfl

theorem definitions_ne_nil (merges : g.DefinesIn b ∨ g.flow.IteratedFrontier entry g.DefinesIn b) :
    g.definitions b ≠ [] := by
  obtain ⟨a, member⟩ : ∃ a, a ∈ g.definitions b := by
    by_cases defines : g.DefinesIn b
    · obtain ⟨a, n, inst, outline, isDefinition, hasInst, rfl⟩ := defines
      obtain ⟨m, found, rfl⟩ := node?_of_outline? outline
      have notUse := m.isUse_of_isDefinition (by simpa using isDefinition)
      have other := h.ne_liveOnEntry outline (.inr (by simp [hasInst]))
      exact ⟨a, h.mem_definitions.mpr ⟨other, m, found, rfl, notUse⟩⟩
    · have some := (h.merges b).mpr ⟨merges.resolve_left defines, defines⟩
      obtain ⟨phi, known⟩ := Option.isSome_iff_exists.mp some
      obtain ⟨n, found, isPhi, rfl⟩ := h.phi?_eq_some.mp known
      have other := h.ne_liveOnEntry (outline?_eq found) (.inl (by simpa using isPhi))
      exact ⟨phi, h.mem_definitions.mpr ⟨other, n, found, rfl, n.isUse_of_isPhi isPhi⟩⟩
  exact List.ne_nil_of_mem member

theorem block_unique {c d : Block} (first : x ∈ g.definitions c) (second : x ∈ g.definitions d) :
    c = d := by
  obtain ⟨_, n, found, rfl, _⟩ := h.mem_definitions.mp first
  obtain ⟨_, m, found', rfl, _⟩ := h.mem_definitions.mp second
  rw [Option.some.inj (found.symm.trans found')]

/-- On the way to an edge where the dominance of a block with definitions ends, the last definition
is not what comes in where the edge leads. -/
theorem ne_reachIn {y z : Block} (defines : g.definitions b ≠ [])
    (arrives : Route g.flow.Edge entry y way) (dom : Dominates g.flow.Edge entry b y)
    (edge : g.flow.Edge y z) (leaves : b = z ∨ ¬Dominates g.flow.Edge entry b z) :
    (way.flatMap g.definitions).getLast?.getD .liveOnEntry ≠ g.reachIn z := by
  intro same
  have comes := h.comesIn_reachIn (Reaches.step ⟨_, arrives⟩ edge)
  obtain ⟨pre, _, post, rfl, rfl, fresh⟩ := exists_last (P := (b = ·)) ⟨b, dom way arrives, rfl⟩
  have some : (b :: post).flatMap g.definitions ≠ [] := by simp [defines]
  rw [List.flatMap_append, List.getLast?_append_of_ne_nil _ some,
    List.getLast?_eq_some_getLast some, Option.getD_some] at same
  obtain ⟨d, visited, defined⟩ := List.mem_flatMap.mp (same ▸ List.getLast_mem some)
  generalize g.reachIn z = c at comes defined
  cases comes with
  | onEntry => exact (h.mem_definitions.mp defined).1 rfl
  | above other above last _ =>
      obtain rfl := h.block_unique defined (List.mem_of_getLast? last)
      exact Dominates.not_mem_after arrives (fun again => fresh _ again rfl) dom edge leaves
        other above visited

end Shaped

namespace Linked

variable (h : g.Linked p entry)
include h

theorem faithful_of_complete (complete : g.Complete entry) : g.Faithful p entry where
  linked := by
    intro a n inst way earlier later found hasInst arrives place
    rw [← h.flow] at arrives
    have notPhi := n.isPhi_of_inst? hasInst
    have listed := h.accesses_around found hasInst place
    rw [h.defined _ _ _ _ _ listed found notPhi,
      h.stateAfter_of_route rfl (h.route_executed complete arrives listed found notPhi)]
  flows := by
    intro phi n way pred found isPhi arrives edge value
    rw [← h.flow] at arrives edge
    have reached : Reaches g.flow.Edge entry pred := ⟨_, arrives⟩
    obtain ⟨x, entered, up⟩ := h.route_along complete arrives
    have through := h.route_through_block reached entered up
    rw [h.definitions_eq] at through
    rw [h.incoming phi n pred value found isPhi ((h.tree.reaches pred).mpr reached),
      h.stateAfter_of_route (h.program pred) through]
    exact and_iff_right edge

theorem complete_of_faithful (faithful : g.Faithful p entry) : g.Complete entry := by
  intro b defines merges
  have noPhi : g.phi? b = none := by
    rw [← Option.not_isSome_iff_eq_none, h.merges]
    exact fun ⟨_, not⟩ => not defines
  have program := h.program b
  rw [noPhi, Option.toList_none, List.nil_append] at program
  -- The first access of the block is linked to what comes in.
  obtain ⟨a, rest, place⟩ : ∃ a rest, g.accesses b = a :: rest := by
    have some := h.definitions_ne_nil (.inl defines)
    rw [h.definitions] at some
    exact List.exists_cons_of_ne_nil fun empty => some (by rw [empty]; rfl)
  obtain ⟨earlier, inst, later, insts, silent, known, _⟩ :=
    List.filterMap_eq_cons_iff.mp (program.symm.trans place)
  obtain ⟨n, outline, hasInst⟩ := (h.access inst a).mp known
  obtain ⟨m, found, rfl⟩ := node?_of_outline? outline
  obtain ⟨_, _, found', rfl⟩ := h.mem_accesses.mp (place ▸ List.mem_cons_self : a ∈ g.accesses b)
  obtain rfl := Option.some.inj (found.symm.trans found')
  have hasInst' : m.inst? = some inst := by simpa using hasInst
  have link := h.defined _ [] _ _ _ place found (m.isPhi_of_inst? hasInst')
  -- Some execution comes in over the edge that ends the dominance of another block with
  -- definitions.
  obtain ⟨x, some, y, ⟨way, arrives⟩, dom, edge, leaves⟩ : ∃ x, g.definitions x ≠ [] ∧
      g.flow.InFrontier entry x m.block := by
    cases merges with
    | first start leaves => exact ⟨_, h.definitions_ne_nil (.inl start), leaves⟩
    | next above leaves => exact ⟨_, h.definitions_ne_nil (.inr above), leaves⟩
  have reached : Reaches g.flow.Edge entry m.block := Reaches.step ⟨_, arrives⟩ edge
  have state := faithful.linked a m inst way earlier later found hasInst'
    (h.flow ▸ arrives.snoc edge) insts
  rw [link, holdsAfter_nil ((h.tree.reaches _).mpr reached), h.stateAfter_happens, noPhi,
    List.filterMap_eq_nil_iff.mpr silent] at state
  refine h.ne_reachIn some arrives dom edge leaves ?_
  simpa [defining] using (Option.some.inj state).symm

end Linked

/-- The graph of an accepted procedure, however it is configured, tells what memory holds on every
execution just if no block that defines memory is one where definitions flow together. -/
theorem faithful_iff_complete (accepted : p.Accepted) (built : build p o config = .ok g)
    (first : p.entry = some entry) : g.Faithful p entry ↔ g.Complete entry := by
  obtain ⟨entry', first', h⟩ := build_built accepted.distinct built
  obtain rfl := Option.some.inj (first.symm.trans first')
  have linked := h.linked accepted first
  exact ⟨linked.complete_of_faithful, linked.faithful_of_complete⟩

theorem faithful_iff_complete_storeBeforeLoop : storeBeforeLoop.Accepted ∧
    storeBeforeLoop.entry = some ⟨0⟩ ∧ ∃ g, build storeBeforeLoop byAddress {} = .ok g ∧
      g.Complete ⟨0⟩ ∧ g.Faithful storeBeforeLoop ⟨0⟩ := by
  obtain ⟨g, built, phi⟩ := exists_of_any (x := build storeBeforeLoop byAddress {})
    (P := fun g => (g.phi? ⟨1⟩).isSome) (by decide +kernel)
  obtain ⟨entry, first, h⟩ := build_built storeBeforeLoop_accepted.distinct built
  obtain rfl : ⟨0⟩ = entry := Option.some.inj first
  have complete := storeBeforeLoop_complete (h.linked storeBeforeLoop_accepted first) h.flow phi
  exact ⟨storeBeforeLoop_accepted, first, g, built, complete,
    (faithful_iff_complete storeBeforeLoop_accepted built first).mpr complete⟩

/-- A loop of one block, which stores. -/
def storeInLoop : Procedure where
  name := "loop"
  params := [⟨0⟩]
  blockNames := #[none, none, none]
  insts := #[⟨.jump ⟨1⟩, none⟩, ⟨.store ⟨0⟩ ⟨0⟩ 8 ⟨false, false, .notAtomic⟩, none⟩,
    ⟨.branch ⟨0⟩ ⟨1⟩ ⟨2⟩, none⟩, ⟨.ret none, none⟩]
  values := #[.parameter 0]
  layout := .ofRows [⟨⟨0⟩, [⟨0⟩]⟩, ⟨⟨1⟩, [⟨1⟩, ⟨2⟩]⟩, ⟨⟨2⟩, [⟨3⟩]⟩]

/-- The second time round the loop memory holds what was stored the first time, but the store is
linked to memory on entry. -/
theorem storeInLoop_not_faithful : storeInLoop.Accepted ∧ storeInLoop.entry = some ⟨0⟩ ∧
    ∃ g n, build storeInLoop byAddress { refineUses := false } = .ok g ∧ g.node? ⟨1⟩ = some n ∧
      n.block = ⟨1⟩ ∧ n.inst? = some ⟨1⟩ ∧ n.defining? = some .liveOnEntry ∧
      Route (FlowGraph.ofProcedure storeInLoop).Edge ⟨0⟩ ⟨1⟩ [⟨0⟩, ⟨1⟩, ⟨1⟩] ∧
      g.stateAfter (storeInLoop.happens [⟨0⟩, ⟨1⟩] ⟨1⟩ []) = ⟨1⟩ ∧ ¬g.Faithful storeInLoop ⟨0⟩ := by
  have accepted : storeInLoop.Accepted :=
    ⟨⟨storeInLoop, some ⟨2⟩⟩, .append (.ret none) (.select ⟨2⟩ (.append (.branch ⟨0⟩ ⟨1⟩ ⟨2⟩)
      (.append (.store ⟨0⟩ ⟨0⟩ 8 ⟨false, false, .notAtomic⟩)
      (.select ⟨1⟩ (.append (.jump ⟨1⟩) (.select ⟨0⟩
        (.addBlock none (.addBlock none (.addBlock none (.addParam (.start "loop")) rfl) rfl) rfl))
        rfl)) rfl) rfl)) rfl, rfl⟩
  obtain ⟨g, built, passes⟩ :=
    exists_of_any (x := build storeInLoop byAddress { refineUses := false })
      (P := fun g => g.node? ⟨1⟩ == some
          ⟨1, ⟨1⟩, .definition (some ⟨1⟩) { defining := some ⟨0⟩ }, []⟩ &&
        g.stateAfter (storeInLoop.happens [⟨0⟩, ⟨1⟩] ⟨1⟩ []) == ⟨1⟩) (by decide +kernel)
  rw [Bool.and_eq_true] at passes
  have store := eq_of_beq passes.1
  have state := eq_of_beq passes.2
  have enter : (FlowGraph.ofProcedure storeInLoop).Edge ⟨0⟩ ⟨1⟩ := by
    rw [FlowGraph.Edge]
    decide
  have again : (FlowGraph.ofProcedure storeInLoop).Edge ⟨1⟩ ⟨1⟩ := by
    rw [FlowGraph.Edge]
    decide
  have twice := Route.step enter (.step again (.here _))
  refine ⟨accepted, rfl, g, _, built, store, rfl, rfl, rfl, twice, state, fun faithful => ?_⟩
  have link := faithful.linked ⟨1⟩ _ ⟨1⟩ [⟨0⟩, ⟨1⟩] [] [⟨2⟩] store rfl twice rfl
  cases link.trans (congrArg some state)

end MemoryFlow.Graph
