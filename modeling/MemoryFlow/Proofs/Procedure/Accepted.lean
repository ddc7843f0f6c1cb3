import MemoryFlow.Proofs.Dominance.Spanning
import MemoryFlow.Proofs.Procedure.Defect

/-! # Accepted procedures

A procedure is accepted when it is what a draft, made step by step, is finished to. It is then
well-formed: there is an entry, and no block leads back to it.
-/

namespace MemoryFlow

/-- The procedures that a draft can be finished to. -/
def Procedure.Accepted (p : Procedure) : Prop :=
  ∃ d : Draft, d.Made ∧ d.finish = .ok p

namespace Procedure.Accepted

variable {p : Procedure} {entry a b : Block} {inst : Inst} {op : Op}

theorem exists_draft (accepted : p.Accepted) :
    ∃ d : Draft, d.Made ∧ d.procedure = p ∧ d.procedure.defect? = none := by
  obtain ⟨d, made, finished⟩ := accepted
  unfold Draft.finish at finished
  split at finished
  · rename_i fine
    exact ⟨d, made, Except.ok.inj finished, fine⟩
  · cases finished

theorem orderly (accepted : p.Accepted) : p.Orderly := by
  obtain ⟨d, made, rfl, _⟩ := accepted.exists_draft
  exact made.orderly

theorem distinct (accepted : p.Accepted) : p.layout.Distinct :=
  accepted.orderly.toDistinct

theorem complete (accepted : p.Accepted) : p.Complete := by
  obtain ⟨d, made, rfl, _⟩ := accepted.exists_draft
  exact made.complete

theorem wellFormed (accepted : p.Accepted) : p.WellFormed := by
  obtain ⟨d, made, rfl, fine⟩ := accepted.exists_draft
  exact (defect?_eq_none_iff made.synced made.orderly made.complete).mp fine

theorem places (accepted : p.Accepted) (performs : p.op inst = .ok op) : p.Places inst op :=
  ⟨accepted.complete.placed inst (lt_of_op performs), performs⟩

theorem hasValue_of_mem (accepted : p.Accepted) (performs : p.op inst = .ok op) {value : Value}
    (member : value ∈ op.arguments) : p.hasValue value = true :=
  accepted.wellFormed.values inst op (accepted.places performs) value member

theorem has_entry (accepted : p.Accepted) : ∃ entry, p.entry = some entry :=
  entry_eq_some_iff.mpr accepted.wellFormed.nonempty

theorem edge_ne_entry (accepted : p.Accepted) (first : p.entry = some entry)
    (e : (FlowGraph.ofProcedure p).Edge a b) : b ≠ entry := by
  obtain ⟨inst, op, places, leads⟩ : ∃ inst op, p.Places inst op ∧ b ∈ op.successors := by
    obtain ⟨_, flows, _, leads⟩ := FlowGraph.exists_row e
    obtain ⟨row, listed, rfl⟩ := List.mem_map.mp flows
    cases last : row.insts.getLast? with
    | none => simp [last] at leads
    | some inst =>
        cases known : p.op? inst with
        | none => simp [last, known] at leads
        | some op =>
            have placed : inst ∈ p.layout.allInsts :=
              List.mem_flatMap.mpr ⟨row, listed, List.mem_of_getLast? last⟩
            refine ⟨inst, op, ⟨placed, op_eq_ok.mpr known⟩, ?_⟩
            simpa [last, known] using leads
  rintro rfl
  exact (accepted.wellFormed.dests inst op places (Op.isTerminator_of_mem_successors leads) _
    leads).2 first

end Procedure.Accepted

end MemoryFlow
