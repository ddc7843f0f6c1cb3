import MemoryFlow.Draft
import MemoryFlow.Proofs.Procedure.Layout

/-! # Drafts made step by step

Making a draft never places a block or an instruction twice. It places all blocks and instructions
that it makes, and nothing else.
-/

namespace MemoryFlow

inductive Draft.Made : Draft → Prop where
  | start (name : String) : Made (.start name)
  | addParam {d : Draft} : Made d → Made d.addParam.1
  | declareCallee {d : Draft} (info : CalleeInfo) : Made d → Made (d.declareCallee info).1
  | declareGlobal {d : Draft} (info : GlobalInfo) : Made d → Made (d.declareGlobal info).1
  | addBlock {d d' : Draft} {block : Block} (name : Option String) : Made d →
      d.addBlock name = .ok (d', block) → Made d'
  | select {d : Draft} (block : Block) : Made d → Made (d.select block)
  | append {d d' : Draft} {inst : Inst} (op : Op) : Made d → d.append op = .ok (d', inst) → Made d'

structure Procedure.Orderly (p : Procedure) : Prop extends p.layout.Distinct where
  known : ∀ inst ∈ p.layout.allInsts, inst.index < p.insts.size

theorem Procedure.Orderly.exists_op {p : Procedure} (orderly : p.Orderly) {inst : Inst}
    (member : inst ∈ p.layout.allInsts) : ∃ op, p.op inst = .ok op := by
  have inside := orderly.known inst member
  exact ⟨p.insts[inst.index].op, by simp [Procedure.op, Procedure.op?, inside, pure, Except.pure]⟩

/-- Whether the tables of a procedure hold the blocks it places and the instructions its values come
from, and every instruction in them is placed. -/
structure Procedure.Complete (p : Procedure) : Prop where
  blocks : ∀ block ∈ p.layout.blocks, p.hasBlock block = true
  placed : ∀ inst : Inst, inst.index < p.insts.size → inst ∈ p.layout.allInsts
  results : ∀ inst, .result inst ∈ p.values → inst.index < p.insts.size

namespace Procedure

variable (p : Procedure) (op : Op)

@[simp] theorem makeInst_inst : (p.makeInst op).2 = ⟨p.insts.size⟩ := by
  unfold makeInst
  split <;> rfl

@[simp] theorem makeInst_layout : (p.makeInst op).1.layout = p.layout := by
  unfold makeInst
  split <;> rfl

@[simp] theorem makeInst_blockNames : (p.makeInst op).1.blockNames = p.blockNames := by
  unfold makeInst
  split <;> rfl

@[simp] theorem size_makeInst_insts : (p.makeInst op).1.insts.size = p.insts.size + 1 := by
  unfold makeInst
  split <;> simp

theorem mem_makeInst_values {origin : Origin} (member : origin ∈ (p.makeInst op).1.values) :
    origin ∈ p.values ∨ origin = .result ⟨p.insts.size⟩ := by
  unfold makeInst at member
  split at member
  · simpa using member
  · exact .inl member

end Procedure

theorem Draft.append_cases {d d' : Draft} {op : Op} {inst : Inst}
    (done : d.append op = .ok (d', inst)) :
    ∃ block layout, d.procedure.layout.appendInst ⟨d.procedure.insts.size⟩ block = .ok layout ∧
      d'.procedure = { (d.procedure.makeInst op).1 with layout } := by
  unfold append at done
  split at done
  · cases done
  · rename_i block _
    have layout := Procedure.makeInst_layout d.procedure op
    have inst := Procedure.makeInst_inst d.procedure op
    generalize d.procedure.makeInst op = made at done layout inst ⊢
    obtain ⟨after, placed, finished⟩ := bind_eq_ok.mp done
    cases finished
    rw [layout, inst] at placed
    exact ⟨block, after, placed, rfl⟩

theorem Draft.addBlock_cases {d d' : Draft} {name : Option String} {block : Block}
    (done : d.addBlock name = .ok (d', block)) :
    ∃ layout, d.procedure.layout.appendBlock ⟨d.procedure.blockNames.size⟩ = .ok layout ∧
      d'.procedure = { d.procedure with
        blockNames := d.procedure.blockNames.push name, layout } := by
  obtain ⟨layout, placed, finished⟩ := bind_eq_ok.mp done
  cases finished
  exact ⟨layout, placed, rfl⟩

namespace Draft.Made

variable {d : Draft}

theorem synced (made : d.Made) : d.procedure.layout.Synced := by
  induction made with
  | start name => exact .empty
  | addParam _ ih | declareCallee _ _ ih | declareGlobal _ _ ih | select _ _ ih => exact ih
  | addBlock name _ added ih =>
      obtain ⟨layout, placed, result⟩ := addBlock_cases added
      rw [result]
      exact ih.appendBlock placed
  | append op _ appended ih =>
      obtain ⟨block, layout, placed, result⟩ := append_cases appended
      rw [result]
      exact ih.appendInst placed

theorem orderly (made : d.Made) : d.procedure.Orderly := by
  refine ⟨made.synced.toDistinct, ?_⟩
  induction made with
  | start name => exact fun _ member => absurd member List.not_mem_nil
  | addParam _ ih | declareCallee _ _ ih | declareGlobal _ _ ih | select _ _ ih => exact ih
  | addBlock name before added ih =>
      obtain ⟨layout, placed, result⟩ := addBlock_cases added
      rw [result]
      exact fun inst member => ih inst ((before.synced.mem_allInsts_appendBlock placed).mp member)
  | append op before appended ih =>
      obtain ⟨block, layout, placed, result⟩ := append_cases appended
      rw [result]
      intro inst member
      rw [Procedure.size_makeInst_insts]
      rcases (before.synced.mem_allInsts_appendInst placed).mp member with old | rfl
      · exact Nat.lt_succ_of_lt (ih inst old)
      · exact Nat.lt_succ_self _

theorem complete (made : d.Made) : d.procedure.Complete := by
  induction made with
  | start name =>
      exact ⟨by simp [Draft.start, Layout.empty], by simp [Draft.start], by simp [Draft.start]⟩
  | declareCallee _ _ ih | declareGlobal _ _ ih | select _ _ ih =>
      exact ⟨ih.blocks, ih.placed, ih.results⟩
  | addParam _ ih =>
      refine ⟨ih.blocks, ih.placed, fun inst member => ih.results inst ?_⟩
      simpa [Draft.addParam, Procedure.addParam] using member
  | addBlock name before added ih =>
      obtain ⟨layout, placed, result⟩ := addBlock_cases added
      have insts := fun inst => before.synced.mem_allInsts_appendBlock (x := inst) placed
      obtain ⟨_, rfl⟩ := Layout.appendBlock_cases placed
      rw [result]
      refine ⟨fun block member => ?_, fun inst inside => (insts inst).mpr (ih.placed inst inside),
        ih.results⟩
      rcases List.mem_append.mp member with old | new
      · have inside := ih.blocks block old
        simp only [Procedure.hasBlock, decide_eq_true_eq, Array.size_push] at inside ⊢
        omega
      · simp [Procedure.hasBlock, List.mem_singleton.mp new]
  | append op before appended ih =>
      obtain ⟨block, layout, placed, result⟩ := append_cases appended
      have insts := fun inst => before.synced.mem_allInsts_appendInst (x := inst) placed
      rw [result]
      refine ⟨fun block member => ?_, fun inst inside => (insts inst).mpr ?_, fun inst member => ?_⟩
      · simpa [Procedure.hasBlock] using ih.blocks block (Layout.blocks_appendInst placed ▸ member)
      · rw [Procedure.size_makeInst_insts] at inside
        rcases Nat.lt_succ_iff_lt_or_eq.mp inside with old | new
        · exact .inl (ih.placed inst old)
        · exact .inr (Entity.ext new)
      · rw [Procedure.size_makeInst_insts]
        rcases Procedure.mem_makeInst_values _ op member with old | new
        · exact Nat.lt_succ_of_lt (ih.results inst old)
        · cases new
          exact Nat.lt_succ_self _

end Draft.Made

end MemoryFlow
