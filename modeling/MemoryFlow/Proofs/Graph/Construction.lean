import MemoryFlow.Alias.Object
import MemoryFlow.Proofs.Clobber.Frame

/-! # What construction computes

The rule by which accesses are linked, said without the walk over the dominator tree that links
them. `Graph.ComesIn` says what comes into a block from the blocks above, `Graph.Holds` what holds
at a place in a block, and `Graph.Constructed` is all that construction promises.
-/

namespace MemoryFlow

namespace FlowGraph

variable {g : FlowGraph}

theorem nodup_preds (distinct : g.blocks.Nodup) (b : Block) : (g.preds b).Nodup :=
  distinct.sublist (List.filter_sublist.map _)

end FlowGraph

namespace Graph

variable {g : Graph} {p : Procedure} {o : Oracle} {config : Config} {entry b : Block} {a : Access}
  {seen : List Access}

def Defines (g : Graph) (a : Access) : Prop :=
  ∃ n, g.node? a = some n ∧ n.isUse = false

/-- What comes into a block: the last definition or phi of the nearest block above that has any, or
else memory on entry. -/
inductive ComesIn (g : Graph) (entry b : Block) : Access → Prop where
  | above {d : Block} {a : Access} : d ≠ b → Dominates g.flow.Edge entry d b →
      (g.definitions d).getLast? = some a →
      (∀ x, x ≠ b → Dominates g.flow.Edge entry x b → g.definitions x ≠ [] →
        Dominates g.flow.Edge entry x d) → g.ComesIn entry b a
  | onEntry : (∀ x, x ≠ b → Dominates g.flow.Edge entry x b → g.definitions x = []) →
      g.ComesIn entry b .liveOnEntry

/-- What holds in a block after some of its accesses: the last definition or phi among them, or else
what comes into the block. Where nothing is reached memory is as on entry. -/
inductive Holds (g : Graph) (entry b : Block) (seen : List Access) : Access → Prop where
  | last {a : Access} {front back : List Access} : Reaches g.flow.Edge entry b →
      seen = front ++ a :: back → g.Defines a → (∀ c ∈ back, ¬g.Defines c) → g.Holds entry b seen a
  | first {a : Access} : Reaches g.flow.Edge entry b → (∀ c ∈ seen, ¬g.Defines c) →
      g.ComesIn entry b a → g.Holds entry b seen a
  | unreached : ¬Reaches g.flow.Edge entry b → g.Holds entry b seen .liveOnEntry

/-- The placed blocks with an instruction that defines memory, in program order. -/
def definingBlocks (g : Graph) (p : Procedure) : List Block :=
  p.layout.blocks.filter fun b => (g.accesses b).any fun a => (g.node? a).any (·.isDefinition)

/-- Whether every access carries what holds where it stands, as the lists of the graph have it. -/
structure Carries (entry : Block) (g : Graph) : Prop where
  /-- A use or definition is linked to what holds before it. -/
  linked : ∀ a n inst, g.node? a = some n → n.inst? = some inst → ∃ before after d,
    g.accesses n.block = before ++ a :: after ∧ n.defining? = some d ∧
    g.Holds entry n.block before d
  /-- From a block flows into a phi what holds at the end of the block. -/
  flows : ∀ a n pred value, g.node? a = some n → (pred, value) ∈ n.incoming →
    g.Holds entry pred (g.accesses pred) value

/-- What construction promises of the graph of a procedure. -/
structure Constructed (p : Procedure) (o : Oracle) (entry : Block) (g : Graph) : Prop
    extends g.Carries entry where
  flow : g.flow = .ofProcedure p
  tree : Tree.ofFlow (.ofProcedure p) .forward = .ok g.tree
  /-- A placed instruction has an access just if the oracle tells how it accesses memory. -/
  recorded : ∀ b, ∀ inst ∈ p.layout.insts b, ∃ role, o.roleOf p inst = .ok role ∧
    (g.access? inst).bind g.outline? = role.map fun role => { number := 0, block := b, role }
  phi : ∀ b a, g.phi? b = some a ↔ ∃ n, g.node? a = some n ∧ n.isPhi = true ∧ n.block = b
  accesses : ∀ b, g.accesses b = (g.phi? b).toList ++ (p.layout.insts b).filterMap g.access?
  definitions : ∀ b, g.definitions b = (g.accesses b).filter fun a => (g.node? a).any (!·.isUse)
  /-- There are phis in the iterated frontier of the blocks that define memory. -/
  merges : ∀ b, (g.phi? b).isSome = true ↔
    b ∈ g.tree.frontier (.ofProcedure p) (g.definingBlocks p) none
  /-- One value flows into a phi from each block before. -/
  edges : ∀ a n, g.node? a = some n → n.isPhi = true →
    (n.incoming.map Prod.fst).Perm ((FlowGraph.ofProcedure p).preds n.block)

theorem any_outline? (g : Graph) (a : Access) (P : Node → Bool)
    (kind : ∀ n : Node, P n.outline = P n) : (g.outline? a).any P = (g.node? a).any P := by
  rw [outline?]
  cases g.node? a with
  | none => rfl
  | some n => exact kind n

theorem defines_iff : g.Defines a ↔ (g.outline? a).any (!·.isUse) = true := by
  rw [g.any_outline? a (!·.isUse) (by simp), Defines, Option.any_eq_true]
  simp

namespace Arranged

variable (h : g.Arranged p entry)
include h

/-- What is brought down the dominator tree is what comes into a block. The induction is along the
immediate dominators. -/
theorem comesIn_reachIn (reached : Reaches g.flow.Edge entry b) :
    g.ComesIn entry b (g.reachIn b) := by
  obtain ⟨id, known⟩ := h.tree.exists_node reached
  induction number : id.index using Nat.strongRecOn generalizing id b with
  | _ n ih =>
      rcases h.tree.entry_or_idom known with rfl | ⟨above, d, isAbove, hd⟩
      · have none : g.reachIn b = .liveOnEntry := by rw [reachIn, h.tree.dominators_root]; rfl
        rw [none]
        refine .onEntry fun x other dom => ?_
        exact absurd (by simpa using dom _ (.here b)) other
      · obtain ⟨other, dom, nearest⟩ := h.tree.nearest id above d b isAbove hd known
        have lower := (h.tree.idom_lt isAbove).1
        rw [reachIn_idom h isAbove hd known, reachOut]
        cases last : (g.definitions d).getLast? with
        | some a => exact .above other dom last fun x otherX domX _ => nearest x otherX domX
        | none =>
            have empty : g.definitions d = [] := List.getLast?_eq_none_iff.mp last
            have higher : ∀ x, x ≠ d → Dominates g.flow.Edge entry x d → x ≠ b := by
              rintro x _ domX rfl
              exact other (dom.antisymm reached domX)
            have below : ∀ x, x ≠ b → Dominates g.flow.Edge entry x b → g.definitions x ≠ [] →
                x ≠ d ∧ Dominates g.flow.Edge entry x d := by
              refine fun x otherX domX some => ⟨?_, nearest x otherX domX⟩
              rintro rfl
              exact some empty
            have comes := ih above.index (by omega) (dom.reaches reached) above hd rfl
            rw [Option.getD_none]
            generalize g.reachIn d = a at comes
            cases comes with
            | above otherX domX last' nearest' =>
                refine .above (higher _ otherX domX) (domX.trans dom) last'
                  fun x otherY domY some => ?_
                obtain ⟨otherD, domD⟩ := below x otherY domY some
                exact nearest' x otherD domD some
            | onEntry none =>
                refine .onEntry fun x otherX domX => ?_
                by_contra some
                obtain ⟨otherD, domD⟩ := below x otherX domX some
                exact some (none x otherD domD)

theorem holds_holdsAfter (b : Block) (seen : List Access) :
    g.Holds entry b seen (g.holdsAfter b seen) := by
  by_cases reached : Reaches g.flow.Edge entry b
  · rw [holdsAfter, (h.tree.reaches b).mpr reached]
    by_cases some : ∃ c ∈ seen, g.Defines c
    · obtain ⟨front, a, back, rfl, defines, free⟩ := exists_last some
      have only : g.defining (front ++ a :: back) = g.defining front ++ [a] := by
        have silent : back.filter (fun c => (g.outline? c).any (!·.isUse)) = [] :=
          List.filter_eq_nil_iff.mpr fun c member kind => free c member (defines_iff.mpr kind)
        rw [defining, List.filter_append, List.filter_cons, if_pos (defines_iff.mp defines), silent]
        rfl
      rw [only, List.getLast?_concat]
      exact .last reached rfl defines free
    · have free : ∀ c ∈ seen, ¬g.Defines c := fun c member defines => some ⟨c, member, defines⟩
      have none : g.defining seen = [] :=
        List.filter_eq_nil_iff.mpr fun c member kind => free c member (defines_iff.mpr kind)
      rw [none]
      exact .first reached free (h.comesIn_reachIn reached)
  · have missed : g.tree.contains b = false := by
      rw [Bool.eq_false_iff, ne_eq, h.tree.reaches]
      exact reached
    rw [holdsAfter_unreached missed]
    exact .unreached reached

end Arranged

namespace Shaped

variable (h : g.Shaped p entry)
include h

theorem mem_definingBlocks : b ∈ g.definingBlocks p ↔ g.DefinesIn b := by
  rw [definingBlocks, List.mem_filter, List.any_eq_true]
  constructor
  · rintro ⟨_, a, member, kind⟩
    obtain ⟨other, n, found, rfl⟩ := h.mem_accesses.mp member
    have isDefinition : n.isDefinition = true := by simpa [found] using kind
    have outline := outline?_eq found
    cases hasInst : n.inst? with
    | some inst =>
        exact ⟨a, _, inst, outline, by simpa using isDefinition, by simpa using hasInst, rfl⟩
    | none =>
        have isPhi := (h.only a _ outline (by simpa using hasInst)).resolve_right other
        rw [n.isPhi_outline, n.isPhi_of_isDefinition isDefinition] at isPhi
        cases isPhi
  · rintro ⟨a, n, inst, outline, isDefinition, hasInst, rfl⟩
    obtain ⟨m, found, rfl⟩ := node?_of_outline? outline
    refine ⟨h.orderly.mem_blocks (h.placed a _ inst outline hasInst), a,
      h.mem_accesses.mpr ⟨?_, m, found, rfl⟩, ?_⟩
    · exact h.ne_liveOnEntry outline (.inr (by simp [hasInst]))
    · simpa [found] using isDefinition

theorem mem_frontier : (g.phi? b).isSome = true ↔
    b ∈ g.tree.frontier (.ofProcedure p) (g.definingBlocks p) none := by
  have same : (· ∈ g.definingBlocks p) = g.DefinesIn := funext fun _ => propext h.mem_definingBlocks
  rw [h.merges, ← h.flow, (h.tree.frontier_spec _).2, same, h.mem_definingBlocks]

end Shaped

theorem Wired.incoming_preds (h : g.Wired p entry) {n : Node} (found : g.node? a = some n)
    (isPhi : n.isPhi = true) :
    (n.incoming.map Prod.fst).Perm ((FlowGraph.ofProcedure p).preds n.block) := by
  have distinct : (FlowGraph.ofProcedure p).blocks.Nodup := by
    rw [FlowGraph.blocks_ofProcedure]
    exact h.orderly.blocks
  refine (List.perm_ext_iff_of_nodup (h.once a n found) (FlowGraph.nodup_preds distinct _)).mpr ?_
  intro pred
  rw [FlowGraph.mem_preds distinct, ← h.flow, List.mem_map]
  constructor
  · rintro ⟨⟨pred, value⟩, member, rfl⟩
    exact ((h.flows a n pred value found isPhi).mp member).1
  · exact fun edge => ⟨(pred, _), (h.flows a n pred _ found isPhi).mpr ⟨edge, rfl⟩, rfl⟩

theorem Wired.carries (h : g.Wired p entry) : g.Carries entry where
  linked := by
    intro a n inst found hasInst
    have other := h.ne_liveOnEntry (outline?_eq found) (.inr (by simp [hasInst]))
    obtain ⟨before, after, place⟩ := List.append_of_mem (h.mem_accesses.mpr ⟨other, n, found, rfl⟩)
    exact ⟨before, after, _, place, h.defined _ _ _ _ _ place found (n.isPhi_of_inst? hasInst),
      h.holds_holdsAfter _ _⟩
  flows := by
    intro a n pred value found member
    have isPhi : n.isPhi = true := by
      by_contra notPhi
      rw [n.incoming_of_not_isPhi (by simpa using notPhi)] at member
      cases member
    rw [((h.flows a n pred value found isPhi).mp member).2]
    exact h.holds_holdsAfter _ _

theorem Built.access_outline (h : g.Built p o entry) {inst : Inst} (classifies : o.Classifies p)
    (placed : inst ∈ p.layout.insts b) : ∃ role, o.roleOf p inst = .ok role ∧
      (g.access? inst).bind g.outline? = role.map fun role =>
      { number := 0, block := b, role } := by
  obtain ⟨role, known⟩ := classifies inst (h.orderly.mem_allInsts placed)
  refine ⟨role, known, ?_⟩
  cases access : g.access? inst with
  | none =>
      cases role with
      | none => rfl
      | some role =>
          obtain ⟨a, access'⟩ := h.recorded inst (h.orderly.mem_allInsts placed) role known
          rw [access] at access'
          cases access'
  | some a =>
      obtain ⟨n, outline, hasInst⟩ := (h.access inst a).mp access
      obtain rfl := Except.ok.inj (known.symm.trans (h.kinds a n inst outline hasInst))
      obtain rfl := h.orderly.block_eq (h.placed a n inst outline hasInst) placed
      obtain ⟨m, _, rfl⟩ := node?_of_outline? outline
      exact outline

/-- Building a graph for an accepted procedure, however it is configured, computes what construction
promises. If uses are not refined, it succeeds as soon as the oracle tells the kinds of accesses. -/
theorem build_constructs (accepted : p.Accepted) :
    (o.Classifies p → config.refineUses = false → ∃ g, build p o config = .ok g) ∧
      ∀ g, build p o config = .ok g → ∃ entry, p.entry = some entry ∧ g.Constructed p o entry := by
  refine ⟨fun classifies plain => ?_, fun g built => ?_⟩
  · obtain ⟨_, first⟩ := accepted.has_entry
    obtain ⟨base, _, _, _, builds⟩ := exists_constructed accepted.distinct first classifies
    exact ⟨{ base with config }, (builds config _).mpr (by rw [plain]; rfl)⟩
  · have classifies := classifies_of_build built
    obtain ⟨entry, first, h⟩ := build_built accepted.distinct built
    refine ⟨entry, first, h.carries, h.flow, h.planted, fun b inst => h.access_outline classifies,
      fun b a => h.phi?_eq_some, h.program, fun b => ?_, fun b => h.mem_frontier,
      fun a n => h.incoming_preds⟩
    rw [h.definitions]
    simp only [g.any_outline? _ (!·.isUse) (by simp)]

/-- Two ways from the entry, a store on one of them, and a block that cannot be reached, with a
store too, all lead to a load. -/
def deadJoin : Procedure where
  name := "join"
  params := [⟨0⟩]
  blockNames := #[none, none, none, none, none]
  insts := #[⟨.branch ⟨0⟩ ⟨1⟩ ⟨2⟩, none⟩, ⟨.store ⟨0⟩ ⟨0⟩ 8 ⟨false, false, .notAtomic⟩, none⟩,
    ⟨.jump ⟨3⟩, none⟩, ⟨.jump ⟨3⟩, none⟩, ⟨.load ⟨0⟩ 8 ⟨false, false, .notAtomic⟩, some ⟨1⟩⟩,
    ⟨.ret (some ⟨1⟩), none⟩, ⟨.store ⟨0⟩ ⟨0⟩ 8 ⟨false, false, .notAtomic⟩, none⟩, ⟨.jump ⟨3⟩, none⟩]
  values := #[.parameter 0, .result ⟨4⟩]
  layout :=
    .ofRows [⟨⟨0⟩, [⟨0⟩]⟩, ⟨⟨1⟩, [⟨1⟩, ⟨2⟩]⟩, ⟨⟨2⟩, [⟨3⟩]⟩, ⟨⟨3⟩, [⟨4⟩, ⟨5⟩]⟩, ⟨⟨4⟩, [⟨6⟩, ⟨7⟩]⟩]

theorem deadJoin_accepted : deadJoin.Accepted :=
  ⟨⟨deadJoin, some ⟨4⟩⟩,
    .append (.jump ⟨3⟩) (.append (.store ⟨0⟩ ⟨0⟩ 8 ⟨false, false, .notAtomic⟩) (.select ⟨4⟩
      (.append (.ret (some ⟨1⟩)) (.append (.load ⟨0⟩ 8 ⟨false, false, .notAtomic⟩) (.select ⟨3⟩
        (.append (.jump ⟨3⟩) (.select ⟨2⟩
          (.append (.jump ⟨3⟩) (.append (.store ⟨0⟩ ⟨0⟩ 8 ⟨false, false, .notAtomic⟩) (.select ⟨1⟩
            (.append (.branch ⟨0⟩ ⟨1⟩ ⟨2⟩) (.select ⟨0⟩
              (.addBlock none (.addBlock none (.addBlock none (.addBlock none (.addBlock none
                (.addParam (.start "join")) rfl) rfl) rfl) rfl) rfl)) rfl)) rfl) rfl)) rfl)) rfl)
      rfl)) rfl) rfl, rfl⟩

theorem build_constructs_deadJoin :
    deadJoin.Accepted ∧ Oracle.byObject.Classifies deadJoin ∧
      (∃ g, build deadJoin .byObject { refineUses := false } = .ok g) ∧
      ∃ g, build deadJoin .byObject {} = .ok g ∧
        g.node? ⟨4⟩ = some ⟨3, ⟨3⟩,
          .phi [(⟨1⟩, ⟨1⟩), (⟨2⟩, .liveOnEntry), (⟨4⟩, .liveOnEntry)], [⟨2⟩]⟩ ∧
        g.Constructed deadJoin .byObject ⟨0⟩ := by
  have classifies : Oracle.byObject.Classifies deadJoin := by decide +kernel
  obtain ⟨g, built, join⟩ := exists_of_any (x := build deadJoin .byObject {})
    (P := fun g => g.node? ⟨4⟩ ==
      some ⟨3, ⟨3⟩, .phi [(⟨1⟩, ⟨1⟩), (⟨2⟩, .liveOnEntry), (⟨4⟩, .liveOnEntry)], [⟨2⟩]⟩)
    (by decide +kernel)
  obtain ⟨entry, first, constructed⟩ := (build_constructs deadJoin_accepted).2 g built
  obtain rfl : ⟨0⟩ = entry := Option.some.inj first
  exact ⟨deadJoin_accepted, classifies,
    (build_constructs deadJoin_accepted).1 classifies rfl, g, built,
    eq_of_beq join, constructed⟩

end Graph

end MemoryFlow
