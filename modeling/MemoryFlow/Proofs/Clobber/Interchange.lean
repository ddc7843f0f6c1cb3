import MemoryFlow.Proofs.Clobber.Uniform
import MemoryFlow.Proofs.Graph.Listing

/-! # Uses that stand for each other

Construction makes an instruction the kind of access that the oracle tells, and linking does not
change the kind. So in every built graph, whatever the procedure, uses of one footprint are
clobbered by the same definitions, if the oracle only says how locations overlap and which are never
written.
-/

namespace MemoryFlow.Graph

variable {g g' : Graph} {p : Procedure} {o : Oracle} {a a' : Access} {inst inst' : Inst}
  {block : Block}

namespace Classified

theorem of_outline (kinds : g.Classified o p)
    (same : ∀ x n, g'.outline? x = some n → ∃ m, g.outline? x = some m ∧ m.role = n.role) :
    g'.Classified o p := by
  intro x n inst found hasInst
  obtain ⟨m, found', role⟩ := same x n found
  have kind := kinds x m inst found'
  rw [Node.inst?, role] at kind
  exact kind hasInst

theorem of_agrees (kinds : g.Classified o p) (agrees : g.Agrees g') : g'.Classified o p :=
  kinds.of_outline fun x n found => ⟨n, agrees.outline? x ▸ found, rfl⟩

theorem keptByRewiring : KeptByRewiring (Classified o p) :=
  keptByRewiring_of_outline fun _ _ _ _ _ outline kinds =>
    kinds.of_outline fun x n found => ⟨n, outline x ▸ found, rfl⟩

theorem start (config : Config) (flow : FlowGraph) (tree : Tree) (entry : Block) :
    (start config flow tree entry).Classified o p :=
  (Filled.start config flow tree entry).kind

theorem newAccess? (kinds : g.Classified o p)
    (ran : g.newAccess? p o inst block = .ok (some (g', a))) : g'.Classified o p := by
  obtain ⟨role, known⟩ := roleOf_of_newAccess? ran
  cases role with
  | none => cases ran.symm.trans (newAccess?_none known)
  | some role =>
      obtain ⟨number, next, created⟩ := newAccess?_some g block known
      cases ran.symm.trans created
      intro x n i found hasInst
      have read : (g.addNode ⟨number, block, role, []⟩).1.outline? x = some n := found
      rw [outline?_addNode] at read
      split at read
      · cases read
        -- The instruction of the new access is the one it was created for.
        rcases Oracle.roleOf_cases known with rfl | rfl <;>
        · cases hasInst
          exact known
      · exact kinds x n i read hasInst

theorem createPhi (kinds : g.Classified o p) (ran : g.createPhi block = .ok (g', a)) :
    g'.Classified o p := by
  obtain ⟨added, listed, _, rfl, rfl, inserted, rfl⟩ := createPhi_ok ran
  obtain ⟨_, _, _, _, _, rfl, _, _, rfl⟩ := insert_ok inserted
  refine Classified.of_outline (g := (g.addNode ⟨g.nextNumber, block, .phi [], []⟩).1) ?_
    fun x n found => ?_
  · intro x n i found hasInst
    rw [outline?_addNode] at found
    split at found
    · cases found
      cases hasInst
    · exact kinds x n i found hasInst
  · have read := outline?_modifyBlock.symm.trans (outline?_relist.symm.trans found)
    split at read
    · obtain ⟨m, found', rfl⟩ := Option.map_eq_some_iff.mp read
      exact ⟨m, found', rfl⟩
    · exact ⟨n, read, rfl⟩

theorem discard (kinds : g.Classified o p) (ran : g.discard a = .ok g') : g'.Classified o p := by
  obtain ⟨n, nodes, kept, _, _, _, node?_eq, forgot, rfl⟩ := discard_ok ran
  refine (kinds.of_outline fun x m found => ?_).of_agrees (agrees_of_forget_clear forgot).1
  rw [outline?, node?_clear] at found
  split at found
  · cases found
  · refine ⟨m, ?_, rfl⟩
    have same := (congrArg (Option.map Node.outline) (node?_eq x)).symm.trans found
    rw [Option.map_map] at same
    exact same

end Classified

theorem build_classified {config : Config} (built : build p o config = .ok g) :
    g.Classified o p := by
  obtain ⟨tree, entry, base, constructed, finished⟩ := build_ok built
  have kinds : base.Classified o p :=
    Classified.keptByRewiring.construct Classified.discard Classified.newAccess?
      Classified.createPhi (fun _ _ kinds => kinds) (Classified.start {} _ tree entry) constructed
  split at finished
  · exact Classified.of_agrees (g := { base with config }) kinds
      (searched_of_refineUses finished).toAgrees
  · cases finished
    exact kinds

/-- Whatever the procedure, uses of one footprint are interchangeable under an oracle that only says
how locations overlap and which are never written: the same definitions clobber what they ask
for. -/
theorem uses_of_one_footprint_interchangeable {overlap : OverlapQuery} {constant : ConstantQuery}
    {config : Config} {f : Footprint} (built : build p { overlap, constant } config = .ok g)
    (reads : g.Reads p a inst f) (reads' : g.Reads p a' inst' f) :
    ∃ q q', Query.ofInst p inst = .ok q ∧ Query.ofInst p inst' = .ok q' ∧
      ∀ d, g.clobbers p { overlap, constant } d q = g.clobbers p { overlap, constant } d q' := by
  have same := usual_opClobbers (build_classified built) reads reads'
  obtain ⟨_, _, _, _, _, known, footprint⟩ := reads
  obtain ⟨_, _, _, _, _, known', footprint'⟩ := reads'
  refine ⟨f.query inst, f.query inst', (asks_footprint known footprint).1,
    (asks_footprint known' footprint').1, fun d => ?_⟩
  simp only [clobbers, same]

/-- Both of two slots of local memory are written. The first is read by a plain load and by a weakly
ordered one of memory that never changes, and by two calls; among them stand a fence and a volatile
load of the other. -/
def readAgain : Procedure where
  name := "again"
  blockNames := #[none]
  insts := #[⟨.alloca 8, some ⟨0⟩⟩, ⟨.alloca 8, some ⟨1⟩⟩,
    ⟨.store ⟨0⟩ ⟨1⟩ 8 ⟨false, false, .notAtomic⟩, none⟩,
    ⟨.store ⟨1⟩ ⟨0⟩ 8 ⟨false, false, .notAtomic⟩, none⟩,
    ⟨.load ⟨0⟩ 8 ⟨false, false, .notAtomic⟩, some ⟨2⟩⟩, ⟨.call ⟨0⟩ [⟨0⟩], some ⟨3⟩⟩,
    ⟨.fence .release, none⟩, ⟨.load ⟨1⟩ 8 ⟨true, false, .notAtomic⟩, some ⟨4⟩⟩,
    ⟨.load ⟨0⟩ 8 ⟨false, true, .unordered⟩, some ⟨5⟩⟩, ⟨.call ⟨0⟩ [⟨0⟩], some ⟨6⟩⟩,
    ⟨.ret none, none⟩]
  values :=
    #[.result ⟨0⟩, .result ⟨1⟩, .result ⟨4⟩, .result ⟨5⟩, .result ⟨7⟩, .result ⟨8⟩, .result ⟨9⟩]
  callees := #[⟨"peek", .readsArguments⟩]
  layout := .ofRows [⟨⟨0⟩, [⟨0⟩, ⟨1⟩, ⟨2⟩, ⟨3⟩, ⟨4⟩, ⟨5⟩, ⟨6⟩, ⟨7⟩, ⟨8⟩, ⟨9⟩, ⟨10⟩]⟩]

/-- The two loads are told apart by nothing, and so are the two calls. -/
theorem uses_of_one_footprint_interchangeable_readAgain :
    ∃ g, build readAgain .byObject { refineUses := false } = .ok g ∧
      g.Reads readAgain ⟨3⟩ ⟨4⟩ (.location ⟨⟨0⟩, some 8⟩) ∧
      g.Reads readAgain ⟨7⟩ ⟨8⟩ (.location ⟨⟨0⟩, some 8⟩) ∧
      g.Reads readAgain ⟨4⟩ ⟨5⟩ (.call (.declared ⟨0⟩) [⟨0⟩]) ∧
      g.Reads readAgain ⟨8⟩ ⟨9⟩ (.call (.declared ⟨0⟩) [⟨0⟩]) ∧
      (∃ q q', Query.ofInst readAgain ⟨4⟩ = .ok q ∧ Query.ofInst readAgain ⟨8⟩ = .ok q' ∧
        ∀ d, g.clobbers readAgain .byObject d q = g.clobbers readAgain .byObject d q') ∧
      ∃ q q', Query.ofInst readAgain ⟨5⟩ = .ok q ∧ Query.ofInst readAgain ⟨9⟩ = .ok q' ∧
        ∀ d, g.clobbers readAgain .byObject d q = g.clobbers readAgain .byObject d q' := by
  obtain ⟨g, built, runs⟩ := exists_of_any (x := build readAgain .byObject { refineUses := false })
    (P := fun g => g.node? ⟨3⟩ == some ⟨0, ⟨0⟩, .use ⟨4⟩ { defining := some ⟨2⟩ }, []⟩ &&
      g.node? ⟨7⟩ == some ⟨0, ⟨0⟩, .use ⟨8⟩ { defining := some ⟨6⟩ }, []⟩ &&
      g.node? ⟨4⟩ == some ⟨0, ⟨0⟩, .use ⟨5⟩ { defining := some ⟨2⟩ }, []⟩ &&
      g.node? ⟨8⟩ == some ⟨0, ⟨0⟩, .use ⟨9⟩ { defining := some ⟨6⟩ }, []⟩) (by decide +kernel)
  simp only [Bool.and_eq_true, beq_iff_eq] at runs
  obtain ⟨⟨⟨load, load'⟩, call⟩, call'⟩ := runs
  have loads : g.Reads readAgain ⟨3⟩ ⟨4⟩ (.location ⟨⟨0⟩, some 8⟩) :=
    ⟨_, _, load, rfl, rfl, rfl, rfl⟩
  have loads' : g.Reads readAgain ⟨7⟩ ⟨8⟩ (.location ⟨⟨0⟩, some 8⟩) :=
    ⟨_, _, load', rfl, rfl, rfl, rfl⟩
  have calls : g.Reads readAgain ⟨4⟩ ⟨5⟩ (.call (.declared ⟨0⟩) [⟨0⟩]) :=
    ⟨_, _, call, rfl, rfl, rfl, rfl⟩
  have calls' : g.Reads readAgain ⟨8⟩ ⟨9⟩ (.call (.declared ⟨0⟩) [⟨0⟩]) :=
    ⟨_, _, call', rfl, rfl, rfl, rfl⟩
  exact ⟨g, built, loads, loads', calls, calls',
    uses_of_one_footprint_interchangeable built loads loads',
    uses_of_one_footprint_interchangeable built calls calls'⟩

end MemoryFlow.Graph
