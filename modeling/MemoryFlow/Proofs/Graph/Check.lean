import MemoryFlow.Graph.Check
import MemoryFlow.Proofs.Clobber.Service
import MemoryFlow.Proofs.Graph.Construction
import MemoryFlow.Proofs.Graph.Exact

/-! # The rules of a memory graph

`Graph.Valid` says the rules that a check looks for breaches of. A graph that follows them passes
the check, and a graph in which every access is linked to what holds before it follows them.
-/

namespace MemoryFlow.Graph

variable {g : Graph} {p : Procedure} {o : Oracle} {entry : Block} {a d u : Access} {n m : Node}

/-- Whether a graph follows the rules: its lists follow the instructions, references are in order at
both ends, phis are complete, and what is referred to comes before the place where it is. -/
structure Valid (p : Procedure) (entry : Block) (g : Graph) : Prop where
  lists : ∀ row ∈ p.layout.rows,
    g.accesses row.block = (g.phi? row.block).toList ++ row.insts.filterMap g.access?
  definitions : ∀ row ∈ p.layout.rows,
    g.definitions row.block = (g.accesses row.block).filter fun a => (g.node? a).any (!·.isUse)
  listed : ∀ b, ∀ a ∈ g.accesses b, ∃ n, g.node? a = some n
  operands : ∀ u m, g.node? u = some m → ∀ d ∈ m.operands,
    ∃ n, g.node? d = some n ∧ n.isUse = false ∧ u ∈ n.users
  users : ∀ d n, g.node? d = some n → ∀ u ∈ n.users, ∃ m, g.node? u = some m ∧ d ∈ m.operands
  defined : ∀ u m, g.node? u = some m → m.isPhi = false → u ≠ .liveOnEntry →
    m.defining?.isSome = true
  complete : ∀ u m, g.node? u = some m → m.isPhi = true →
    (m.incoming.map Prod.fst).Perm (g.flow.preds m.block)
  precedes : ∀ u m d, g.node? u = some m → m.defining? = some d → g.Over entry d u
  /-- What flows into a phi dominates the end of the block it comes from. -/
  arrives : ∀ u m pred d, g.node? u = some m → (pred, d) ∈ m.incoming → d = .liveOnEntry ∨
    ∃ n, g.node? d = some n ∧ Dominates g.flow.Edge entry n.block pred

theorem firstM?_none {α β : Type} {f : α → Except Fault (Option β)} {l : List α}
    (passes : ∀ a ∈ l, f a = .ok none) : firstM? f l = .ok none := by
  induction l with
  | nil => rfl
  | cons a l ih =>
      obtain ⟨first, rest⟩ := List.forall_mem_cons.mp passes
      rw [firstM?, first]
      exact ih rest

theorem Yields.firstM? {α β : Type} {f : α → Ordered (Option β)} {l : List α}
    (passes : ∀ a ∈ l, g.Yields (f a) none) : g.Yields (Graph.firstM? f l) none := by
  induction l with
  | nil => exact .pure _
  | cons a l ih =>
      obtain ⟨first, rest⟩ := List.forall_mem_cons.mp passes
      exact first.bind (ih rest)

namespace Settles

theorem firstM? {α β : Type} {f : α → Ordered (Option β)} (settles : ∀ a, g.Settles (f a))
    (l : List α) : g.Settles (Graph.firstM? f l) := by
  induction l with
  | nil => exact .pure _
  | cons a l ih =>
      refine (settles a).bind fun found => ?_
      cases found with
      | some b => exact .pure _
      | none => exact ih

theorem dominatesUse (a user : Access) : g.Settles (g.dominatesUse a user) := by
  refine (lift _).bind fun n => ?_
  split
  · refine (lift _).bind fun m => ?_
    dsimp only
    split
    · exact dominates a user
    · exact .pure _
  · exact dominates a user

theorem checkUsers? (a : Access) : g.Settles (g.checkUsers? a) :=
  (lift _).bind fun _ => firstM? (fun user => (dominatesUse a user).bind fun _ => .pure _) _

theorem check? (p : Procedure) : g.Settles (g.check? p) := by
  refine (lift _).bind fun found => ?_
  split
  · exact .pure _
  · split
    · exact .pure _
    · exact firstM? checkUsers? g.live

end Settles

theorem filterM_eq {l : List Access} (live : ∀ a ∈ l, ∃ n, g.node? a = some n) :
    (l.filterM fun a => do return !(← g.node a).isUse) =
      .ok (l.filter fun a => (g.node? a).any (!·.isUse)) := by
  have loop : ∀ kept,
      (l.filterAuxM (fun a => do return !(← g.node a).isUse) kept : Except Fault _) =
        .ok ((l.filter fun a => (g.node? a).any (!·.isUse)).reverse ++ kept) := by
    induction l with
    | nil => exact fun _ => rfl
    | cons a l ih =>
        intro kept
        obtain ⟨⟨n, found⟩, rest⟩ := List.forall_mem_cons.mp live
        rw [List.filterAuxM, node_eq found, List.filter_cons, found]
        refine (ih rest _).trans ?_
        cases isUse : n.isUse <;> simp [isUse]
  rw [List.filterM, loop]
  simp [pure, Except.pure]

theorem mem_live : a ∈ g.live ↔ ∃ n, g.node? a = some n := by
  rw [live, List.mem_filter, isLive, Option.isSome_iff_exists, and_iff_right_iff_imp]
  rintro ⟨n, found⟩
  exact List.mem_map.mpr ⟨a.index, List.mem_range.mpr (lt_of_node? found), rfl⟩

namespace Valid

variable (valid : g.Valid p entry)
include valid

theorem checkLists : g.checkLists? p = .ok none := by
  refine firstM?_none fun row listed => ?_
  have accesses : g.accesses row.block = g.expected row := valid.lists row listed
  have live : ∀ a ∈ g.expected row, ∃ n, g.node? a = some n :=
    fun a member => valid.listed row.block a (accesses ▸ member)
  have definitions := valid.definitions row listed
  rw [accesses] at definitions
  rw [checkRow?, if_neg (not_not.mpr accesses), filterM_eq live, ok_bind,
    if_neg (not_not.mpr definitions)]
  rfl

theorem operandViolation (found : g.node? u = some m) (refers : d ∈ m.operands) :
    g.operandViolation? d u = none := by
  obtain ⟨n, foundD, notUse, uses⟩ := valid.operands u m found d refers
  rw [operandViolation?, foundD]
  simp [notUse, uses]

theorem referenceViolation (found : g.node? u = some m) : g.referenceViolation? u m = none := by
  have operand := fun d => valid.operandViolation (d := d) found
  have defined := valid.defined u m found
  have complete := valid.complete u m found
  obtain ⟨number, block, role, users⟩ := m
  cases role with
  | definition inst link | use inst link =>
      cases above : link.defining with
      | some d => simp [referenceViolation?, above, operand d (by simp [Node.operands, above])]
      | none =>
          have entry : u = .liveOnEntry := by
            by_contra other
            simpa [Node.defining?, Node.link?, above] using defined rfl other
          simp [referenceViolation?, above, entry]
  | phi incoming =>
      have preds : (incoming.map Prod.fst).Perm (g.flow.preds block) := complete rfl
      have length : incoming.length = (g.flow.preds block).length := by simpa using preds.length_eq
      simp only [referenceViolation?, length, ne_eq, not_true_eq_false, if_false]
      rw [List.findSome?_eq_none_iff]
      rintro ⟨pred, value⟩ flows
      have known : pred ∈ g.flow.preds block := preds.subset (List.mem_map_of_mem flows)
      have refers : value ∈ (⟨number, block, .phi incoming, users⟩ : Node).operands :=
        List.mem_map_of_mem flows
      simp [known, operand value refers]

theorem checkReferences : g.checkReferences? = none := by
  refine List.findSome?_eq_none_iff.mpr fun u live => ?_
  obtain ⟨m, found⟩ := mem_live.mp live
  rw [found]
  exact valid.referenceViolation found

theorem dominatesUse (h : g.Arranged p entry) (foundD : g.node? d = some n) (uses : u ∈ n.users) :
    g.Yields (g.dominatesUse d u) true := by
  obtain ⟨m, foundU, refers⟩ := valid.users d n foundD u uses
  refine .lift (node_eq foundU) ?_
  cases isPhi : m.isPhi with
  | false =>
      have link : m.defining? = some d := by
        obtain ⟨_, _, role, _⟩ := m
        cases role with
        | definition | use => exact Option.mem_toList.mp refers
        | phi => cases isPhi
      exact (h.dominates_over (valid.precedes u m d foundU link) (by rw [foundU]; rfl)).1
  | true =>
      refine .lift (node_eq foundD) ?_
      have arrives : ∀ edge ∈ m.incoming.filter (·.2 == d),
          d = .liveOnEntry ∨ g.tree.dominates n.block edge.1 = true := by
        rintro ⟨pred, value⟩ member
        obtain ⟨flows, same⟩ := List.mem_filter.mp member
        obtain rfl : value = d := by simpa using same
        refine (valid.arrives u m pred value foundU flows).imp_right fun ⟨k, foundK, dom⟩ => ?_
        obtain rfl := Option.some.inj (foundD.symm.trans foundK)
        exact (h.tree.dominates _ _).mpr dom
      have some : m.incoming.filter (·.2 == d) ≠ [] := by
        rw [Node.operands_of_isPhi isPhi] at refers
        obtain ⟨edge, flows, same⟩ := List.mem_map.mp refers
        exact List.ne_nil_of_mem (List.mem_filter.mpr ⟨flows, by simpa using same⟩)
      dsimp only
      split
      · rename_i none
        exact absurd none some
      · rw [decide_eq_true]
        · exact .pure _
        by_cases entry : d = .liveOnEntry
        · exact .inl entry
        · exact .inr (List.all_eq_true.mpr fun edge member =>
            (arrives edge member).resolve_left entry)

theorem check_yields (h : g.Arranged p entry) : g.Yields (g.check? p) none := by
  refine .lift valid.checkLists ?_
  rw [valid.checkReferences]
  refine .firstM? fun d live => ?_
  obtain ⟨n, found⟩ := mem_live.mp live
  refine .lift (node_eq found) (.firstM? fun u uses => ?_)
  exact (valid.dominatesUse h found uses).bind (.pure _)

end Valid

/-- A graph in which every access is linked to what holds before it follows the rules. -/
theorem Wired.valid (h : g.Wired p entry) (exact : g.Exact) : g.Valid p entry where
  lists := by
    intro row listed
    rw [h.program, Layout.insts_row listed]
  definitions := by
    intro row _
    rw [h.definitions]
    simp only [g.any_outline? _ (!·.isUse) (by simp)]
  listed := by
    intro b a member
    obtain ⟨_, n, found, _⟩ := h.mem_accesses.mp member
    exact ⟨n, found⟩
  operands := fun u m found d refers => exact.operand (by rwa [operandsOf_eq found])
  users := fun d n found u uses => exact.user (by rwa [usersOf_eq found])
  defined := by
    intro u m found notPhi other
    obtain ⟨before, after, place⟩ := List.append_of_mem (h.mem_accesses.mpr ⟨other, m, found, rfl⟩)
    rw [h.defined _ _ _ _ _ place found notPhi]
    rfl
  complete := by
    intro u m found isPhi
    rw [h.flow]
    exact h.incoming_preds found isPhi
  precedes := by
    intro u m d found link
    have other := h.ne_entry_of_link found link
    obtain ⟨before, after, place⟩ := List.append_of_mem (h.mem_accesses.mpr ⟨other, m, found, rfl⟩)
    have notPhi : m.isPhi = false := by
      obtain ⟨_, _, role, _⟩ := m
      cases role with
      | definition | use => rfl
      | phi => cases link
    obtain rfl := Option.some.inj (link.symm.trans (h.defined _ _ _ _ _ place found notPhi))
    exact h.holdsAfter_over place
  arrives := by
    intro u m pred d found flows
    have isPhi : m.isPhi = true := by
      by_contra notPhi
      rw [m.incoming_of_not_isPhi (by simpa using notPhi)] at flows
      cases flows
    obtain ⟨_, rfl⟩ := (h.flows u m pred d found isPhi).mp flows
    by_cases reached : g.tree.contains pred = true
    · obtain ⟨l, same⟩ := g.stackOut_eq pred
      rw [h.holdsAfter_accesses reached]
      obtain ⟨n, foundD, _, dom⟩ := (h.mem_stackOut ((h.tree.reaches pred).mp reached)).mp
        (same ▸ List.mem_cons_self)
      exact .inr ⟨n, foundD, dom⟩
    · exact .inl (holdsAfter_unreached (by simpa using reached))

/-- A graph built for an accepted procedure, however it is configured, follows the rules, and a
check finds no breach of them. One is built if the oracle answers. -/
theorem build_passes_check (accepted : p.Accepted) (config : Config) :
    (o.AnswersAll p → ∃ g, build p o config = .ok g) ∧
      ∀ g, build p o config = .ok g → ∃ entry, p.entry = some entry ∧ g.Valid p entry ∧
        ∃ g', g.ask (g.check? p) = .ok (none, g') := by
  refine ⟨fun answers => build_total accepted answers config, fun g built => ?_⟩
  obtain ⟨entry, first, h⟩ := build_built accepted.distinct built
  have valid := h.valid (build_exact built)
  obtain ⟨order, checked, _⟩ :=
    (valid.check_yields h.toArranged).ask (build_places accepted.distinct built)
  exact ⟨entry, first, valid, _, checked⟩

theorem build_passes_check_deadJoin :
    deadJoin.Accepted ∧ Oracle.byObject.AnswersAll deadJoin ∧
      ∃ g, build deadJoin .byObject { auditClobbers := true } = .ok g ∧ g.Valid deadJoin ⟨0⟩ ∧
        ∃ g', g.ask (g.check? deadJoin) = .ok (none, g') := by
  have answers : Oracle.byObject.AnswersAll deadJoin :=
    Refinement.answersAll deadJoin_accepted.orderly
      (by decide +kernel) (by decide +kernel)
  obtain ⟨builds, passes⟩ :=
    build_passes_check (o := .byObject) deadJoin_accepted { auditClobbers := true }
  obtain ⟨g, built⟩ := builds answers
  obtain ⟨entry, first, valid, checked⟩ := passes g built
  obtain rfl : ⟨0⟩ = entry := Option.some.inj first
  exact ⟨deadJoin_accepted, answers, g, built, valid, checked⟩

end MemoryFlow.Graph
