import MemoryFlow.Proofs.Graph.Stack

/-! # Executions

An execution goes along a way through the blocks and runs the instructions of each. Where phis are
placed completely, what it has defined, the last first, is a route up from what holds at the place
it has come to (`Linked.route_executed`). For an edge to a block without a phi this is since all
that dominates the end of the block before dominates the start of this one; otherwise the block were
in the iterated frontier.
-/

namespace MemoryFlow

/-- What happens on an execution. -/
inductive Moment where
  | start
  | enter (block : Block)
  | execute (inst : Inst)
  deriving DecidableEq, Repr

namespace Procedure

def passing (p : Procedure) (b : Block) : List Moment :=
  .enter b :: (p.layout.insts b).map .execute

/-- What happens along a way, and then in a block until `earlier` have been run. -/
def happens (p : Procedure) (way : List Block) (b : Block) (earlier : List Inst) : List Moment :=
  .start :: (way.flatMap p.passing ++ .enter b :: earlier.map .execute)

end Procedure

def Node.moment (n : Node) : Moment :=
  match n.role with
  | .definition none _ => .start
  | .definition (some inst) _ | .use inst _ => .execute inst
  | .phi _ => .enter n.block

namespace Node

variable (n : Node)

theorem moment_eq_start : n.moment = .start ↔ n.isPhi = false ∧ n.inst? = none := by
  obtain ⟨_, _, role, _⟩ := n
  rcases role with ⟨_ | inst, link⟩ | ⟨inst, link⟩ | values <;> simp [moment, isPhi, inst?]

theorem moment_eq_enter {b : Block} : n.moment = .enter b ↔ n.isPhi = true ∧ n.block = b := by
  obtain ⟨_, _, role, _⟩ := n
  rcases role with ⟨_ | inst, link⟩ | ⟨inst, link⟩ | values <;> simp [moment, isPhi]

theorem moment_eq_execute {inst : Inst} : n.moment = .execute inst ↔ n.inst? = some inst := by
  obtain ⟨_, _, role, _⟩ := n
  rcases role with ⟨_ | inst, link⟩ | ⟨inst, link⟩ | values <;> simp [moment, inst?]

end Node

namespace Graph

variable {g : Graph} {p : Procedure} {entry b pred : Block} {a x : Access} {n : Node} {inst : Inst}
  {before after rest : List Access} {way : List Block}

def definerAt (g : Graph) : Moment → Option Access
  | .start => some .liveOnEntry
  | .enter b => g.phi? b
  | .execute inst => (g.access? inst).filter fun a => (g.outline? a).any (!·.isUse)

/-- Whether `x` may have held just before a block was entered. -/
def Enters (g : Graph) (b : Block) (x : Access) : Prop :=
  match g.phi? b with
  | none => x = g.reachIn b
  | some phi => g.Above phi x

/-- Whether no block that defines memory is one where definitions may flow together. Such a block
gets no phi. -/
def Complete (g : Graph) (entry : Block) : Prop :=
  ∀ b, g.DefinesIn b → ¬g.flow.IteratedFrontier entry g.DefinesIn b

namespace Shaped

variable (h : g.Shaped p entry)
include h

/-- A block with a definition or phi defines memory or is in the iterated frontier. -/
theorem defines_or_merges (found : g.node? a = some n) (notUse : n.isUse = false)
    (other : a ≠ .liveOnEntry) :
    g.DefinesIn n.block ∨ g.flow.IteratedFrontier entry g.DefinesIn n.block := by
  have outline := outline?_eq found
  cases hasInst : n.inst? with
  | some inst =>
      refine .inl ⟨a, _, inst, outline, ?_, by simpa using hasInst, rfl⟩
      rw [Node.isDefinition_outline, Node.isDefinition_eq hasInst, notUse]
      rfl
  | none =>
      have isPhi := (h.only a _ outline (by simpa using hasInst)).resolve_right other
      have known := h.phi?_eq_some.mpr ⟨n, found, by simpa using isPhi, rfl⟩
      exact .inr ((h.merges n.block).mp (by rw [known]; rfl)).1

/-- Some of what dominates the end of a block does not dominate the start of the next only if the
next is in the iterated frontier. -/
theorem iteratedFrontier_of_edge (reached : Reaches g.flow.Edge entry pred)
    (edge : g.flow.Edge pred b) (member : a ∈ g.stackOut pred) (missing : a ∉ g.stackIn b) :
    g.flow.IteratedFrontier entry g.DefinesIn b := by
  obtain ⟨n, found, notUse, dom⟩ := (h.mem_stackOut reached).mp member
  rw [stackIn, List.mem_append, List.mem_singleton, not_or, List.mem_flatMap] at missing
  have leaves : g.flow.InFrontier entry n.block b := by
    refine ⟨pred, reached, dom, edge, or_iff_not_imp_left.mpr fun other precedes => missing.1 ?_⟩
    refine ⟨n.block, (h.tree.mem_dominators (reached.step edge)).mpr ⟨other, precedes⟩, ?_⟩
    exact List.mem_reverse.mpr (h.mem_definitions.mpr ⟨missing.2, n, found, rfl, notUse⟩)
  rcases h.defines_or_merges found notUse missing.2 with defines | merges
  · exact .first defines leaves
  · exact .next merges leaves

theorem phi_before (place : g.accesses b = before ++ a :: after) (found : g.node? a = some n)
    (notPhi : n.isPhi = false) : g.phi? b = none ∨ before ≠ [] := by
  refine or_iff_not_imp_right.mpr fun first => ?_
  rw [not_not] at first
  cases known : g.phi? b with
  | none => rfl
  | some phi =>
      rw [h.program, known, first] at place
      obtain ⟨rfl, _⟩ := List.cons_eq_cons.mp place
      obtain ⟨m, outline, isPhi, _⟩ := (h.phi b phi).mp known
      rw [outline?_eq found] at outline
      rw [← Option.some.inj outline, Node.isPhi_outline, notPhi] at isPhi
      cases isPhi

theorem accesses_around {earlier later : List Inst} (found : g.node? a = some n)
    (hasInst : n.inst? = some inst) (place : p.layout.insts n.block = earlier ++ inst :: later) :
    g.accesses n.block = ((g.phi? n.block).toList ++ earlier.filterMap g.access?) ++
      a :: later.filterMap g.access? := by
  have known := (h.access inst a).mpr ⟨_, outline?_eq found, by simpa using hasInst⟩
  rw [h.program, place, List.filterMap_append, List.filterMap_cons_some known, List.append_assoc]

theorem filterMap_definerAt (b : Block) (earlier : List Inst) :
    (Moment.enter b :: earlier.map .execute).filterMap g.definerAt =
      g.defining ((g.phi? b).toList ++ earlier.filterMap g.access?) := by
  have insts : (earlier.map Moment.execute).filterMap g.definerAt =
      g.defining (earlier.filterMap g.access?) := by
    rw [List.filterMap_map, defining, List.filter_filterMap]
    rfl
  cases known : g.phi? b with
  | none =>
      have here : g.definerAt (.enter b) = none := known
      rw [List.filterMap_cons_none here, insts]
      rfl
  | some phi =>
      have here : g.definerAt (.enter b) = some phi := known
      obtain ⟨m, outline, isPhi, _⟩ := (h.phi b phi).mp known
      rw [List.filterMap_cons_some here, insts, Option.toList_some, List.singleton_append, defining,
        defining, List.filter_cons_of_pos (by simp [outline, m.isUse_of_isPhi isPhi])]

theorem filterMap_happens (way : List Block) (b : Block) (earlier : List Inst) :
    (p.happens way b earlier).filterMap g.definerAt = .liveOnEntry :: (way.flatMap g.definitions ++
      g.defining ((g.phi? b).toList ++ earlier.filterMap g.access?)) := by
  have block : ∀ b, (p.passing b).filterMap g.definerAt = g.definitions b := by
    intro b
    rw [Procedure.passing, h.filterMap_definerAt, h.definitions_eq, h.program]
  have first : g.definerAt .start = some .liveOnEntry := rfl
  rw [Procedure.happens, List.filterMap_cons_some first, List.filterMap_append,
    h.filterMap_definerAt, List.filterMap_flatMap]
  simp only [block]

theorem definerAt_eq_some {moment : Moment} (found : g.node? a = some n)
    (notUse : n.isUse = false) : g.definerAt moment = some a ↔ moment = n.moment := by
  have outline := outline?_eq found
  cases moment with
  | start =>
      rw [eq_comm (a := Moment.start), n.moment_eq_start]
      constructor
      · intro same
        obtain rfl := Option.some.inj same
        rw [h.entryNode] at outline
        refine ⟨(h.entry_kind found).1, ?_⟩
        rw [← n.inst?_outline, ← Option.some.inj outline]
        rfl
      · rintro ⟨notPhi, noInst⟩
        have isEntry := (h.only a _ outline (by simpa using noInst)).resolve_left (by simp [notPhi])
        exact congrArg some isEntry.symm
  | enter b =>
      rw [eq_comm (a := Moment.enter b), n.moment_eq_enter]
      refine (h.phi b a).trans ?_
      simp [outline]
  | execute inst =>
      rw [eq_comm (a := Moment.execute inst), n.moment_eq_execute, definerAt,
        Option.filter_eq_some_iff, h.access]
      simp [outline, notUse]

end Shaped

namespace Linked

variable (h : g.Linked p entry) (complete : g.Complete entry)
include h complete

/-- What holds on entry to a block without a phi held at the end of any block before. -/
theorem reachIn_of_edge (reached : Reaches g.flow.Edge entry pred) (edge : g.flow.Edge pred b)
    (noPhi : g.phi? b = none) : g.reachIn b = g.reachOut pred := by
  have none : ¬g.flow.IteratedFrontier entry g.DefinesIn b := by
    intro merges
    by_cases defines : g.DefinesIn b
    · exact complete b defines merges
    · have some := (h.merges b).mpr ⟨merges, defines⟩
      rw [noPhi] at some
      cases some
  obtain ⟨mid, same⟩ := h.stackIn_suffix reached edge
  obtain ⟨l, top⟩ := g.stackIn_eq b
  obtain ⟨l', top'⟩ := g.stackOut_eq pred
  cases mid with
  | nil =>
      rw [List.nil_append, top, top'] at same
      exact (List.cons_eq_cons.mp same).1
  | cons a mid =>
      -- Something is dropped on this edge, so definitions flow together where it leads.
      have member : a ∈ g.stackOut pred := same ▸ List.mem_cons_self
      have distinct := same ▸ h.nodup_stack (h.stack_out reached)
      rw [List.cons_append, List.nodup_cons, List.mem_append, not_or] at distinct
      exact absurd (h.iteratedFrontier_of_edge reached edge member distinct.1.2) none

omit complete in
/-- What is defined in a block, the last first, leads up to what held when the block was entered. -/
theorem route_in_block (reached : g.tree.contains b = true) (place : g.accesses b = before ++ after)
    (entered : g.Enters b x) (up : Route g.Above x .liveOnEntry rest)
    (inside : g.phi? b = none ∨ before ≠ []) :
    Route g.Above (g.holdsAfter b before) .liveOnEntry ((g.defining before).reverse ++ rest) := by
  induction before using List.reverseRecOn generalizing after with
  | nil =>
      have noPhi := inside.resolve_right (by simp)
      rw [Enters, noPhi] at entered
      rw [holdsAfter_nil reached, ← entered]
      exact up
  | append_singleton before a ih =>
      have place' : g.accesses b = before ++ a :: after := by simpa using place
      obtain ⟨_, n, found, block⟩ :=
        h.mem_accesses.mp (place' ▸ List.mem_append_right _ List.mem_cons_self)
      have outline := outline?_eq found
      cases isUse : n.isUse with
      | true =>
          have notPhi : n.isPhi = false := by
            rw [Bool.eq_false_iff]
            intro isPhi
            rw [n.isUse_of_isPhi isPhi] at isUse
            cases isUse
          have isUse' : n.outline.isUse = true := by simpa using isUse
          rw [holdsAfter_use outline isUse', defining_use outline isUse']
          exact ih place' (h.phi_before place' found notPhi)
      | false =>
          have notUse : n.outline.isUse = false := by simpa using isUse
          rw [holdsAfter_define reached outline notUse, defining_define outline notUse,
            List.reverse_append]
          cases isPhi : n.isPhi with
          | true =>
              obtain rfl := h.phi_first place' found isPhi
              have known := h.phi?_eq_some.mpr ⟨n, found, isPhi, block⟩
              rw [Enters, known] at entered
              exact .step entered up
          | false =>
              have link := h.defined b before a after n place' found isPhi
              exact .step ⟨n, found, .inl ⟨n.isDefinition_of isUse isPhi, link⟩⟩
                (ih place' (h.phi_before place' found isPhi))

omit complete in
theorem route_through_block (reached : Reaches g.flow.Edge entry b) (entered : g.Enters b x)
    (up : Route g.Above x .liveOnEntry rest) :
    Route g.Above (g.reachOut b) .liveOnEntry ((g.definitions b).reverse ++ rest) := by
  have contained := (h.tree.reaches b).mpr reached
  rw [← h.holdsAfter_accesses contained, h.definitions_eq]
  refine h.route_in_block contained (List.append_nil _).symm entered up ?_
  cases known : g.phi? b with
  | none => exact .inl rfl
  | some phi =>
      refine .inr ?_
      rw [h.program, known]
      exact List.cons_ne_nil _ _

/-- What has been defined along a way, the last first, leads up to memory on entry. -/
theorem route_along (arrives : Route g.flow.Edge entry b (way ++ [b])) : ∃ x, g.Enters b x ∧
    Route g.Above x .liveOnEntry ((way.flatMap g.definitions).reverse ++ [.liveOnEntry]) := by
  induction way using List.reverseRecOn generalizing b with
  | nil =>
      obtain rfl := arrives.cons_start
      refine ⟨.liveOnEntry, ?_, .here _⟩
      have noPhi : g.phi? b = none := by
        cases known : g.phi? b with
        | none => rfl
        | some phi =>
            obtain ⟨pred, _, edge⟩ := h.phi_edge known
            exact absurd edge (h.first pred)
      obtain ⟨l, top⟩ := g.stackIn_eq b
      rw [h.stackIn_entry] at top
      rw [Enters, noPhi]
      exact (List.cons_eq_cons.mp top).1
  | append_singleton way pred ih =>
      obtain ⟨pred', edge, toPred⟩ := arrives.last_step (by simp)
      obtain rfl : pred = pred' := by
        obtain ⟨init, same⟩ := toPred.ends
        exact (List.append_inj' same rfl).2 |> List.singleton_inj.mp
      obtain ⟨x, entered, up⟩ := ih toPred
      have reached : Reaches g.flow.Edge entry pred := ⟨_, toPred⟩
      refine ⟨g.reachOut pred, ?_, ?_⟩
      · rw [Enters]
        cases known : g.phi? b with
        | none => exact (h.reachIn_of_edge complete reached edge known).symm
        | some phi =>
            obtain ⟨n, found, isPhi, rfl⟩ := h.phi?_eq_some.mp known
            exact h.phi_above found isPhi reached edge
      · simpa using h.route_through_block reached entered up

/-- What has been defined on coming to an access, the last first, is a route up from what holds
there. -/
theorem route_executed (arrives : Route g.flow.Edge entry b (way ++ [b]))
    (place : g.accesses b = before ++ a :: after) (found : g.node? a = some n)
    (notPhi : n.isPhi = false) : Route g.Above (g.holdsAfter b before) .liveOnEntry
      ((g.defining before).reverse ++ ((way.flatMap g.definitions).reverse ++ [.liveOnEntry])) := by
  obtain ⟨x, entered, up⟩ := h.route_along complete arrives
  exact h.route_in_block ((h.tree.reaches b).mpr ⟨_, arrives⟩) place entered up
    (h.phi_before place found notPhi)

end Linked

end Graph

end MemoryFlow
