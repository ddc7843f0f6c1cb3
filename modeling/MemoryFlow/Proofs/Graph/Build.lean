import MemoryFlow.Proofs.Graph.Cache

/-! # Built graphs

A graph is built whenever nothing is placed twice, there is an entry and the oracle tells what each
instruction does to memory. Every access is then linked to what holds before it. If the procedure is
accepted, no block leads back to the entry either.
-/

namespace MemoryFlow.Graph

variable {g : Graph} {p : Procedure} {o : Oracle} {config : Config} {entry : Block}

structure Built (p : Procedure) (o : Oracle) (entry : Block) (g : Graph) : Prop
    extends g.Shaped p entry, g.Wired p entry where
  planted : Tree.ofFlow (.ofProcedure p) .forward = .ok g.tree
  kinds : g.Classified o p
  recorded : g.Recorded o p

theorem Agrees.built {g' : Graph} (agrees : g.Agrees g') (built : g.Built p o entry) :
    g'.Built p o entry where
  toShaped := agrees.shaped built.toShaped
  __ := agrees.wired built.toWired
  planted := agrees.tree ▸ built.planted
  kinds := fun a n inst found => built.kinds a n inst (agrees.outline? a ▸ found)
  recorded := by
    intro inst member role known
    rw [access?, agrees.instAccess]
    exact built.recorded inst member role known

theorem Built.linked (built : g.Built p o entry) (accepted : p.Accepted)
    (first : p.entry = some entry) : g.Linked p entry where
  toShaped := built.toShaped
  __ := built.toWired
  first := fun _ edge => accepted.edge_ne_entry first (built.flow ▸ edge) rfl

theorem construct_built {o : Oracle} {tree : Tree} (orderly : p.Orderly)
    (classifies : o.Classifies p) (planted : Tree.ofFlow (.ofProcedure p) .forward = .ok tree)
    (sound : tree.Sound (.ofProcedure p) entry) :
    ∃ g, construct p o (.ofProcedure p) tree entry = .ok g ∧ g.Built p o entry ∧ g.Uncached ∧
      g.order.settled = {} := by
  obtain ⟨g₁, rows, listed, _, flow₁, tree₁⟩ :=
    rows_listed orderly classifies {} (.ofProcedure p) tree entry
  obtain ⟨g₂, phis, created, kinds, recorded, _, tree₂⟩ :=
    addPhis_created orderly flow₁ (by rw [tree₁, flow₁]; exact sound) listed
  obtain ⟨g₃, links, shaped, wired, uncached, settled, tree₃, instAccess, outline⟩ :=
    linkAll_wired created
  refine ⟨g₃, ?_, { shaped, wired with planted := ?_, kinds := ?_, recorded := ?_ },
    uncached, settled⟩
  · rw [construct, rows, ok_bind, phis, ok_bind, links]
  · rw [tree₃, tree₂, tree₁, planted]
  · exact fun a n inst found => kinds a n inst (outline a ▸ found)
  · intro inst member role known
    rw [access?, instAccess]
    exact recorded inst member role known

/-- Building is constructing, and then finding the clobbers of uses if that is asked for. -/
theorem build_eq_ok {tree : Tree} (first : p.entry = some entry)
    (planted : Tree.ofFlow (.ofProcedure p) .forward = .ok tree) : build p o config = .ok g ↔
      ∃ base, construct p o (.ofProcedure p) tree entry = .ok base ∧
        (if config.refineUses then refineUses { base with config } p o
          else pure { base with config }) = .ok g := by
  have start := (FlowGraph.entry_ofProcedure p).trans first
  rw [build]
  simp only [planted, start]
  rw [← bind_eq_ok]
  change _ ↔ buildOn p o config (.ofProcedure p) tree entry = _
  cases buildOn p o config (.ofProcedure p) tree entry with
  | ok g' =>
      exact ⟨fun same => congrArg Except.ok (Except.ok.inj same),
        fun same => congrArg Except.ok (Except.ok.inj same)⟩
  | error fault => exact ⟨nofun, nofun⟩

theorem build_planted (built : build p o config = .ok g) :
    ∃ tree entry, Tree.ofFlow (.ofProcedure p) .forward = .ok tree ∧ p.entry = some entry ∧
      ∃ base, construct p o (.ofProcedure p) tree entry = .ok base ∧
        (if config.refineUses then refineUses { base with config } p o
          else pure { base with config }) = .ok g := by
  have whole := built
  rw [build] at built
  split at built
  · cases built
  · cases built
  · rename_i tree entry planted start
    have first := (FlowGraph.entry_ofProcedure p).symm.trans start
    exact ⟨tree, entry, planted, first, (build_eq_ok first planted).mp whole⟩

theorem build_ok (built : build p o config = .ok g) :
    ∃ tree entry base, construct p o (.ofProcedure p) tree entry = .ok base ∧
      (if config.refineUses then refineUses { base with config } p o
        else pure { base with config }) = .ok g := by
  obtain ⟨tree, entry, _, _, base, ran⟩ := build_planted built
  exact ⟨tree, entry, base, ran⟩

theorem classifies_of_build (built : build p o config = .ok g) : o.Classifies p := by
  obtain ⟨_, _, _, constructed, _⟩ := build_ok built
  obtain ⟨rows, ran, _⟩ := bind_eq_ok.mp constructed
  intro inst member
  obtain ⟨row, listed, inside⟩ := List.mem_flatMap.mp member
  obtain ⟨_, _, added⟩ := exists_step_of_foldlM ran row listed
  rw [addRow_eq] at added
  obtain ⟨_, ran, _⟩ := bind_eq_ok.mp added
  obtain ⟨_, _, added⟩ := exists_step_of_foldlM ran inst inside
  obtain ⟨_, created, _⟩ := bind_eq_ok.mp added
  exact roleOf_of_newAccess? created

theorem orderly_of_classifies (distinct : p.layout.Distinct) (classifies : o.Classifies p) :
    p.Orderly where
  toDistinct := distinct
  known := by
    intro inst member
    obtain ⟨_, known⟩ := classifies inst member
    obtain ⟨op, performs, _⟩ := bind_eq_ok.mp known
    exact Procedure.lt_of_op performs

/-- Whatever the configuration, one and the same graph is constructed before uses are refined. -/
theorem exists_constructed (distinct : p.layout.Distinct) (first : p.entry = some entry)
    (classifies : o.Classifies p) :
    ∃ base : Graph, base.Built p o entry ∧ base.Uncached ∧ base.order.settled = {} ∧
      ∀ config g, build p o config = .ok g ↔
        (if config.refineUses then refineUses { base with config } p o
          else pure { base with config }) = .ok g := by
  obtain ⟨tree, planted, sound⟩ := Tree.ofFlow_sound _ ((FlowGraph.entry_ofProcedure p).trans first)
  obtain ⟨base, constructed, built, uncached, settled⟩ :=
    construct_built (orderly_of_classifies distinct classifies) classifies planted sound
  refine ⟨base, built, uncached, settled, fun config g => ?_⟩
  rw [build_eq_ok first planted]
  refine ⟨fun ⟨base', constructed', same⟩ => ?_, fun same => ⟨base, constructed, same⟩⟩
  rwa [Except.ok.inj (constructed.symm.trans constructed')]

theorem exists_base (accepted : p.Accepted) (classifies : o.Classifies p) :
    ∃ (entry : Block) (base : Graph), p.entry = some entry ∧ base.Linked p entry ∧
      base.Classified o p ∧ base.Uncached ∧
      base.order.settled = {} ∧ base.flow = .ofProcedure p ∧ ∀ config g, build p o config = .ok g ↔
        (if config.refineUses then refineUses { base with config } p o
          else pure { base with config }) = .ok g := by
  obtain ⟨entry, first⟩ := accepted.has_entry
  obtain ⟨base, built, uncached, settled, builds⟩ :=
    exists_constructed accepted.distinct first classifies
  exact ⟨entry, base, first, built.linked accepted first, built.kinds, uncached, settled,
    built.flow, builds⟩

theorem build_linked (accepted : p.Accepted) (plain : config.refineUses = false)
    (built : build p o config = .ok g) :
    ∃ entry, p.entry = some entry ∧ g.Linked p entry ∧ g.Uncached ∧
      g.order.settled = {} ∧ g.flow = .ofProcedure p := by
  obtain ⟨entry, base, first, h, _, uncached, settled, flow, builds⟩ :=
    exists_base accepted (classifies_of_build built)
  have same := (builds config g).mp built
  rw [plain] at same
  obtain rfl := Except.ok.inj same
  exact ⟨entry, first, (base.agrees_configured config base.order).linked h,
    ⟨uncached.index, uncached.links⟩, settled, flow⟩

end MemoryFlow.Graph
