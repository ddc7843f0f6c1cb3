import MemoryFlow.Layout
import MemoryFlow.Proofs.Basic
import Mathlib.Data.List.Nodup
import Mathlib.Data.List.Pairwise
import Mathlib.Data.List.Perm.Basic

/-! # Changes of a layout

A layout keeps three records beside its list of blocks: the instructions of each block, the block of
each instruction, and which blocks are placed. Each change writes to those it concerns and relies on
the others, so they are in step only as long as no change forgets one (`Synced`). None does,
whatever changes are made to an empty layout, and so no place is ever looked for in vain
(`changes_keep_index`). A move lets all other instructions stay in their order.
-/

namespace MemoryFlow.Layout

variable {l l' : Layout} {a b block : Block} {inst before x : Inst} {row : Row}
  {home : Option Block} {insts : List Inst}

def allInsts (l : Layout) : List Inst :=
  l.rows.flatMap (·.insts)

/-- Whether nothing is placed twice, and instructions only in placed blocks. -/
structure Distinct (l : Layout) : Prop where
  blocks : l.blocks.Nodup
  insts : l.allInsts.Nodup
  held : ∀ block, l.insts block ≠ [] → block ∈ l.blocks

/-- Whether the records of a layout are in step: a block is marked just if it is placed, and the
home of an instruction is the block that lists it. -/
structure Synced (l : Layout) : Prop extends l.Distinct where
  marked : ∀ block, l.isPlaced block = true ↔ block ∈ l.blocks
  housed : ∀ inst block, l.blockOf inst = some block ↔ inst ∈ l.insts block

def ofRows (rows : List Row) : Layout :=
  rows.foldl (fun l row => row.insts.foldl
    (fun l inst => l.rehouse row.block (l.insts row.block ++ [inst]) inst (some row.block))
    { l with blocks := l.blocks ++ [row.block], placed := l.placed.set row.block true }) .empty

inductive Change where
  | appendBlock (block : Block)
  | appendInst (inst : Inst) (block : Block)
  | insertBefore (inst before : Inst)
  | remove (inst : Inst)
  | moveBefore (inst before : Inst)
  | moveToEnd (inst : Inst) (block : Block)
  deriving DecidableEq, Repr

namespace Change

def apply (l : Layout) : Change → Except Fault Layout
  | .appendBlock block => l.appendBlock block
  | .appendInst inst block => l.appendInst inst block
  | .insertBefore inst before => l.insertBefore inst before
  | .remove inst => l.remove inst
  | .moveBefore inst before => l.moveBefore inst before
  | .moveToEnd inst block => l.moveToEnd inst block

def block? : Change → Option Block
  | .appendBlock block => some block
  | _ => none

/-- Whether a change can be made: what is placed must not be placed yet, and what is moved, removed
or taken for a place must be. -/
def Allowed (l : Layout) : Change → Prop
  | .appendBlock block => l.isPlaced block = false
  | .appendInst inst block => l.blockOf inst = none ∧ l.isPlaced block = true
  | .insertBefore inst before => l.blockOf inst = none ∧ l.blockOf before ≠ none
  | .remove inst => l.blockOf inst ≠ none
  | .moveBefore inst before => l.blockOf inst ≠ none ∧ l.blockOf before ≠ none ∧ before ≠ inst
  | .moveToEnd inst block => l.blockOf inst ≠ none ∧ l.isPlaced block = true

end Change

/-- Whether `l` and `l'` have the same blocks and, but for `inst`, the same instructions in each, in
the same order. -/
structure KeepsBesides (l l' : Layout) (inst : Inst) : Prop where
  blocks : l'.blocks = l.blocks
  others : ∀ block, (l'.insts block).filter (· != inst) = (l.insts block).filter (· != inst)

/-! ## What is written -/

@[simp] theorem blocks_rehouse : (l.rehouse block insts inst home).blocks = l.blocks := rfl

@[simp] theorem isPlaced_rehouse :
    (l.rehouse block insts inst home).isPlaced b = l.isPlaced b := rfl

@[simp] theorem insts_rehouse :
    (l.rehouse block insts inst home).insts b = if b = block then insts else l.insts b :=
  Table.get_set ..

@[simp] theorem blockOf_rehouse :
    (l.rehouse block insts inst home).blockOf x = if x = inst then home else l.blockOf x :=
  Table.get_set ..

theorem allInsts_eq (l : Layout) : l.allInsts = l.blocks.flatMap l.insts :=
  List.flatMap_map ..

@[simp] theorem map_block_rows (l : Layout) : l.rows.map (·.block) = l.blocks := by
  simp [rows, Function.comp_def]

theorem insts_row (listed : row ∈ l.rows) : l.insts row.block = row.insts := by
  obtain ⟨block, _, rfl⟩ := List.mem_map.mp listed
  rfl

theorem block_row (listed : row ∈ l.rows) : row.block ∈ l.blocks := by
  obtain ⟨block, member, rfl⟩ := List.mem_map.mp listed
  exact member

theorem mem_allInsts : inst ∈ l.allInsts ↔ ∃ block ∈ l.blocks, inst ∈ l.insts block := by
  rw [allInsts_eq, List.mem_flatMap]

namespace Distinct

variable (distinct : l.Distinct)
include distinct

theorem mem_blocks (member : inst ∈ l.insts block) : block ∈ l.blocks :=
  distinct.held block (List.ne_nil_of_mem member)

theorem insts_eq_nil (absent : block ∉ l.blocks) : l.insts block = [] :=
  not_imp_comm.mp (distinct.held block) absent

theorem mem_allInsts (member : inst ∈ l.insts block) : inst ∈ l.allInsts :=
  Layout.mem_allInsts.mpr ⟨block, distinct.mem_blocks member, member⟩

theorem block_eq (inA : inst ∈ l.insts a) (inB : inst ∈ l.insts b) : a = b := by
  by_contra other
  have symmetric : Std.Symm (Function.onFun List.Disjoint l.insts) :=
    ⟨fun _ _ disjoint _ left right => disjoint right left⟩
  have apart := (List.nodup_flatMap.mp (l.allInsts_eq ▸ distinct.insts)).2.forall
    (distinct.mem_blocks inA) (distinct.mem_blocks inB) other
  exact apart inA inB

theorem nodup_insts (block : Block) : (l.insts block).Nodup := by
  by_cases placed : block ∈ l.blocks
  · exact (List.nodup_flatMap.mp (l.allInsts_eq ▸ distinct.insts)).1 block placed
  · rw [distinct.insts_eq_nil placed]
    exact List.nodup_nil

end Distinct

/-! ## Records that stay in step -/

namespace Synced

/-- No two blocks share an instruction, as it has one home. -/
theorem of_once (blocks : l.blocks.Nodup) (once : ∀ block, (l.insts block).Nodup)
    (held : ∀ block, l.insts block ≠ [] → block ∈ l.blocks)
    (marked : ∀ block, l.isPlaced block = true ↔ block ∈ l.blocks)
    (housed : ∀ inst block, l.blockOf inst = some block ↔ inst ∈ l.insts block) : l.Synced := by
  refine ⟨⟨blocks, ?_, held⟩, marked, housed⟩
  rw [allInsts_eq, List.nodup_flatMap]
  refine ⟨fun block _ => once block, blocks.imp fun {a b} other inst inA inB => other ?_⟩
  exact Option.some.inj (((housed inst a).mpr inA).symm.trans ((housed inst b).mpr inB))

theorem empty : Layout.empty.Synced :=
  of_once List.nodup_nil (fun _ => List.nodup_nil) (fun _ held => absurd rfl held)
    (fun _ => iff_of_false Bool.false_ne_true List.not_mem_nil)
    fun _ _ => iff_of_false nofun List.not_mem_nil

variable (h : l.Synced)
include h

theorem mem_of_blockOf (found : l.blockOf inst = some block) : inst ∈ l.insts block :=
  (h.housed inst block).mp found

theorem not_mem_of_blockOf (absent : l.blockOf inst = none) : inst ∉ l.insts block := by
  intro member
  cases absent.symm.trans ((h.housed inst block).mpr member)

theorem blockOf_ne_none_iff : l.blockOf inst ≠ none ↔ inst ∈ l.allInsts := by
  rw [Layout.mem_allInsts, Option.ne_none_iff_exists']
  constructor
  · rintro ⟨block, found⟩
    exact ⟨block, h.mem_blocks (h.mem_of_blockOf found), h.mem_of_blockOf found⟩
  · rintro ⟨block, _, member⟩
    exact ⟨block, (h.housed inst block).mpr member⟩

/-- Both records are written, so they stay in step if they were in step elsewhere. -/
theorem rehouse (inside : block ∈ l.blocks) (once : insts.Nodup)
    (here : ∀ x, (if x = inst then home else l.blockOf x) = some block ↔ x ∈ insts)
    (elsewhere : ∀ b, b ≠ block → home ≠ some b ∧ inst ∉ l.insts b) :
    (l.rehouse block insts inst home).Synced := by
  refine of_once h.blocks (fun b => ?_) (fun b held => ?_) h.marked fun x b => ?_
  · rw [insts_rehouse]
    split
    · exact once
    · exact h.nodup_insts b
  · rw [insts_rehouse] at held
    split at held
    · rename_i same
      exact same ▸ inside
    · exact h.held b held
  · rw [blockOf_rehouse, insts_rehouse]
    by_cases same : b = block
    · rw [if_pos same, same]
      exact here x
    · obtain ⟨notHome, notListed⟩ := elsewhere b same
      rw [if_neg same]
      split
      · rename_i isInst
        exact iff_of_false notHome (isInst ▸ notListed)
      · exact h.housed x b

theorem insert (absent : l.blockOf inst = none) (inside : block ∈ l.blocks)
    (grown : insts.Perm (inst :: l.insts block)) :
    (l.rehouse block insts inst (some block)).Synced := by
  apply h.rehouse inside
  · exact grown.nodup_iff.mpr
      (List.nodup_cons.mpr ⟨h.not_mem_of_blockOf absent, h.nodup_insts block⟩)
  · intro x
    rw [grown.mem_iff, List.mem_cons, ← h.housed]
    by_cases same : x = inst <;> simp [same]
  · intro b other
    exact ⟨by simp [other.symm], h.not_mem_of_blockOf absent⟩

theorem erase (found : l.blockOf inst = some block) :
    (l.rehouse block ((l.insts block).erase inst) inst none).Synced := by
  have member := h.mem_of_blockOf found
  apply h.rehouse (h.mem_blocks member) ((h.nodup_insts block).erase inst)
  · intro x
    rw [(h.nodup_insts block).mem_erase_iff, ← h.housed]
    by_cases same : x = inst <;> simp [same]
  · intro b other
    exact ⟨by simp, fun inB => other (h.block_eq inB member)⟩

end Synced

/-! ## What each change does -/

theorem appendBlock_cases (done : l.appendBlock block = .ok l') : l.isPlaced block = false ∧
    l' = { l with blocks := l.blocks ++ [block], placed := l.placed.set block true } := by
  unfold appendBlock at done
  split at done
  · cases done
  · rename_i free
    exact ⟨by simpa using free, (Except.ok.inj done).symm⟩

theorem appendInst_cases (done : l.appendInst inst block = .ok l') :
    l.blockOf inst = none ∧ l.isPlaced block = true ∧
      l' = l.rehouse block (l.insts block ++ [inst]) inst (some block) := by
  unfold appendInst at done
  split at done
  · cases done
  · rename_i free
    split at done
    · cases done
    · rename_i placed
      exact ⟨by simpa using free, by simpa using placed, (Except.ok.inj done).symm⟩

theorem insertIdx_length (front back : List Inst) :
    (front ++ back).insertIdx front.length inst = front ++ inst :: back := by
  induction front with
  | nil => rfl
  | cons x front ih =>
      rw [List.cons_append, List.length_cons, List.insertIdx_succ_cons, ih, List.cons_append]

theorem exists_split_of_idxOf? {i : Nat} (found : insts.idxOf? before = some i) :
    ∃ front back, insts = front ++ before :: back ∧ front.length = i := by
  obtain ⟨inside, isIt, _⟩ := List.idxOf?_eq_some_iff.mp found
  refine ⟨insts.take i, insts.drop (i + 1), ?_, List.length_take_of_le (Nat.le_of_lt inside)⟩
  rw [← isIt, List.getElem_cons_drop, List.take_append_drop]

theorem insertBefore_cases (done : l.insertBefore inst before = .ok l') :
    l.blockOf inst = none ∧ ∃ block front back, l.blockOf before = some block ∧
      l.insts block = front ++ before :: back ∧
      l' = l.rehouse block (front ++ inst :: before :: back) inst (some block) := by
  unfold insertBefore at done
  split at done
  · cases done
  · rename_i free
    split at done
    · cases done
    · rename_i block home
      split at done
      · cases done
      · rename_i i found
        obtain ⟨front, back, whole, rfl⟩ := exists_split_of_idxOf? found
        rw [whole, insertIdx_length] at done
        exact ⟨by simpa using free, block, front, back, home, whole, (Except.ok.inj done).symm⟩

theorem remove_cases (done : l.remove inst = .ok l') : ∃ block, l.blockOf inst = some block ∧
    l' = l.rehouse block ((l.insts block).erase inst) inst none := by
  unfold remove at done
  split at done
  · cases done
  · rename_i block home
    split at done
    · cases done
    · rename_i i found
      refine ⟨block, home, ?_⟩
      rw [List.erase_eq_eraseIdx, found]
      exact (Except.ok.inj done).symm

namespace Synced

variable {c : Change} {changes : List Change} (h : l.Synced)
include h

theorem appendBlock (done : l.appendBlock block = .ok l') : l'.Synced := by
  obtain ⟨free, rfl⟩ := appendBlock_cases done
  have fresh : block ∉ l.blocks := by
    rw [← h.marked, free]
    exact Bool.false_ne_true
  apply of_once
  · rw [List.nodup_append_comm]
    exact List.nodup_cons.mpr ⟨fresh, h.blocks⟩
  · exact h.nodup_insts
  · exact fun b held => List.mem_append_left _ (h.held b held)
  · intro b
    have before := h.marked b
    rw [isPlaced] at before ⊢
    rw [Table.get_set, List.mem_append, List.mem_singleton]
    by_cases same : b = block <;> simp [same, before]
  · exact h.housed

theorem appendInst (done : l.appendInst inst block = .ok l') : l'.Synced := by
  obtain ⟨absent, placed, rfl⟩ := appendInst_cases done
  exact h.insert absent ((h.marked block).mp placed) (List.perm_append_singleton inst _)

theorem insertBefore (done : l.insertBefore inst before = .ok l') : l'.Synced := by
  obtain ⟨absent, block, front, back, found, whole, rfl⟩ := insertBefore_cases done
  apply h.insert absent (h.mem_blocks (h.mem_of_blockOf found))
  rw [whole]
  exact List.perm_middle

theorem remove (done : l.remove inst = .ok l') : l'.Synced := by
  obtain ⟨block, found, rfl⟩ := remove_cases done
  exact h.erase found

theorem mem_allInsts_appendBlock (done : l.appendBlock block = .ok l') :
    x ∈ l'.allInsts ↔ x ∈ l.allInsts := by
  rw [← (h.appendBlock done).blockOf_ne_none_iff, ← h.blockOf_ne_none_iff]
  obtain ⟨_, rfl⟩ := appendBlock_cases done
  rfl

theorem mem_allInsts_appendInst (done : l.appendInst inst block = .ok l') :
    x ∈ l'.allInsts ↔ x ∈ l.allInsts ∨ x = inst := by
  rw [← (h.appendInst done).blockOf_ne_none_iff, ← h.blockOf_ne_none_iff]
  obtain ⟨_, _, rfl⟩ := appendInst_cases done
  by_cases same : x = inst <;> simp [same]

theorem step (made : c.apply l = .ok l') : l'.Synced := by
  cases c with
  | appendBlock block => exact h.appendBlock made
  | appendInst inst block => exact h.appendInst made
  | insertBefore inst before => exact h.insertBefore made
  | remove inst => exact h.remove made
  | moveBefore inst before =>
      obtain ⟨mid, removed, inserted⟩ := bind_eq_ok.mp made
      exact (h.remove removed).insertBefore inserted
  | moveToEnd inst block =>
      obtain ⟨mid, removed, appended⟩ := bind_eq_ok.mp made
      exact (h.remove removed).appendInst appended

theorem run (ran : changes.foldlM Change.apply l = .ok l') : l'.Synced :=
  foldlM_keeps Synced ran h fun _ _ _ h made => h.step made

end Synced

/-! ## Which blocks are placed -/

theorem blocks_appendInst (done : l.appendInst inst block = .ok l') : l'.blocks = l.blocks := by
  obtain ⟨_, _, rfl⟩ := appendInst_cases done
  rfl

theorem blocks_insertBefore (done : l.insertBefore inst before = .ok l') :
    l'.blocks = l.blocks := by
  obtain ⟨_, _, _, _, _, _, rfl⟩ := insertBefore_cases done
  rfl

theorem blocks_remove (done : l.remove inst = .ok l') : l'.blocks = l.blocks := by
  obtain ⟨_, _, rfl⟩ := remove_cases done
  rfl

theorem blocks_apply {c : Change} (made : c.apply l = .ok l') :
    l'.blocks = l.blocks ++ c.block?.toList := by
  cases c with
  | appendBlock block =>
      obtain ⟨_, rfl⟩ := appendBlock_cases made
      rfl
  | appendInst inst block => simpa [Change.block?] using blocks_appendInst made
  | insertBefore inst before => simpa [Change.block?] using blocks_insertBefore made
  | remove inst => simpa [Change.block?] using blocks_remove made
  | moveBefore inst before =>
      obtain ⟨mid, removed, inserted⟩ := bind_eq_ok.mp made
      simpa [Change.block?, blocks_remove removed] using blocks_insertBefore inserted
  | moveToEnd inst block =>
      obtain ⟨mid, removed, appended⟩ := bind_eq_ok.mp made
      simpa [Change.block?, blocks_remove removed] using blocks_appendInst appended

theorem blocks_run {changes : List Change} (ran : changes.foldlM Change.apply l = .ok l') :
    l'.blocks = l.blocks ++ changes.filterMap Change.block? := by
  induction changes generalizing l with
  | nil =>
      cases ran
      simp
  | cons c changes ih =>
      rw [List.foldlM_cons] at ran
      obtain ⟨mid, made, rest⟩ := bind_eq_ok.mp ran
      rw [ih rest, blocks_apply made]
      cases named : c.block? <;> simp [named]

/-! ## Which changes can be made -/

theorem appendBlock_ok_iff : (∃ l', l.appendBlock block = .ok l') ↔ l.isPlaced block = false := by
  unfold appendBlock
  cases l.isPlaced block <;> simp [pure, Except.pure, throw, throwThe, MonadExceptOf.throw]

theorem appendInst_ok_iff :
    (∃ l', l.appendInst inst block = .ok l') ↔ l.blockOf inst = none ∧ l.isPlaced block = true := by
  unfold appendInst
  cases l.blockOf inst <;> cases l.isPlaced block <;>
    simp [pure, Except.pure, throw, throwThe, MonadExceptOf.throw]

/-- Two changes in a row can be made if the first can, and the second after it. -/
theorem bind_ok_iff {first : Except Fault Layout} {second : Layout → Except Fault Layout}
    {P Q : Prop} (can : (∃ mid, first = .ok mid) ↔ P)
    (next : ∀ mid, first = .ok mid → ((∃ l', second mid = .ok l') ↔ Q)) :
    (∃ l', (first >>= second) = .ok l') ↔ P ∧ Q := by
  constructor
  · rintro ⟨l', done⟩
    obtain ⟨mid, made, rest⟩ := bind_eq_ok.mp done
    exact ⟨can.mp ⟨mid, made⟩, (next mid made).mp ⟨l', rest⟩⟩
  · rintro ⟨holds, holds'⟩
    obtain ⟨mid, made⟩ := can.mpr holds
    obtain ⟨l', rest⟩ := (next mid made).mpr holds'
    exact ⟨l', bind_eq_ok.mpr ⟨mid, made, rest⟩⟩

namespace Synced

variable {c : Change} (h : l.Synced)
include h

theorem exists_idxOf? (found : l.blockOf inst = some block) :
    ∃ i, (l.insts block).idxOf? inst = some i :=
  Option.isSome_iff_exists.mp (List.isSome_idxOf?.mpr (h.mem_of_blockOf found))

theorem insertBefore_ok_iff :
    (∃ l', l.insertBefore inst before = .ok l') ↔
      l.blockOf inst = none ∧ l.blockOf before ≠ none := by
  unfold Layout.insertBefore
  cases l.blockOf inst with
  | some block => simp [throw, throwThe, MonadExceptOf.throw]
  | none =>
      cases found : l.blockOf before with
      | none => simp [throw, throwThe, MonadExceptOf.throw]
      | some block =>
          obtain ⟨i, place⟩ := h.exists_idxOf? found
          simp [place, pure, Except.pure]

theorem remove_ok_iff : (∃ l', l.remove inst = .ok l') ↔ l.blockOf inst ≠ none := by
  unfold Layout.remove
  cases found : l.blockOf inst with
  | none => simp [throw, throwThe, MonadExceptOf.throw]
  | some block =>
      obtain ⟨i, place⟩ := h.exists_idxOf? found
      simp [place, pure, Except.pure]

theorem moveBefore_ok_iff : (∃ l', l.moveBefore inst before = .ok l') ↔
    l.blockOf inst ≠ none ∧ l.blockOf before ≠ none ∧ before ≠ inst := by
  refine bind_ok_iff h.remove_ok_iff fun mid removed => ?_
  rw [(h.remove removed).insertBefore_ok_iff]
  obtain ⟨block, _, rfl⟩ := remove_cases removed
  by_cases same : before = inst <;> simp [same]

theorem moveToEnd_ok_iff : (∃ l', l.moveToEnd inst block = .ok l') ↔
    l.blockOf inst ≠ none ∧ l.isPlaced block = true := by
  refine bind_ok_iff h.remove_ok_iff fun mid removed => ?_
  rw [appendInst_ok_iff]
  obtain ⟨_, _, rfl⟩ := remove_cases removed
  simp

theorem apply_ok_iff : (∃ l', c.apply l = .ok l') ↔ c.Allowed l := by
  cases c with
  | appendBlock block => exact appendBlock_ok_iff
  | appendInst inst block => exact appendInst_ok_iff
  | insertBefore inst before => exact h.insertBefore_ok_iff
  | remove inst => exact h.remove_ok_iff
  | moveBefore inst before => exact h.moveBefore_ok_iff
  | moveToEnd inst block => exact h.moveToEnd_ok_iff

theorem insertBefore_inSync : l.insertBefore inst before ≠ .error .layoutOutOfSync := by
  unfold Layout.insertBefore
  split
  · exact nofun
  · split
    · exact nofun
    · rename_i found
      obtain ⟨i, place⟩ := h.exists_idxOf? found
      rw [place]
      exact nofun

theorem remove_inSync : l.remove inst ≠ .error .layoutOutOfSync := by
  unfold Layout.remove
  split
  · exact nofun
  · rename_i found
    obtain ⟨i, place⟩ := h.exists_idxOf? found
    rw [place]
    exact nofun

omit h in
theorem appendInst_inSync : l.appendInst inst block ≠ .error .layoutOutOfSync := by
  unfold Layout.appendInst
  split
  · exact nofun
  · split <;> exact nofun

/-- No change is refused because the records are out of step. -/
theorem apply_inSync : c.apply l ≠ .error .layoutOutOfSync := by
  cases c with
  | appendBlock block =>
      rw [Change.apply, Layout.appendBlock]
      split <;> exact nofun
  | appendInst inst block => exact appendInst_inSync
  | insertBefore inst before => exact h.insertBefore_inSync
  | remove inst => exact h.remove_inSync
  | moveBefore inst before =>
      intro refused
      rcases bind_eq_error.mp refused with first | ⟨mid, removed, second⟩
      · exact h.remove_inSync first
      · exact (h.remove removed).insertBefore_inSync second
  | moveToEnd inst block =>
      intro refused
      rcases bind_eq_error.mp refused with first | ⟨mid, removed, second⟩
      · exact h.remove_inSync first
      · exact appendInst_inSync second

end Synced

/-! ## What a move keeps -/

namespace KeepsBesides

theorem trans {l'' : Layout} (first : l.KeepsBesides l' inst) (second : l'.KeepsBesides l'' inst) :
    l.KeepsBesides l'' inst :=
  ⟨second.blocks.trans first.blocks, fun block => (second.others block).trans (first.others block)⟩

theorem rehouse (same : insts.filter (· != inst) = (l.insts block).filter (· != inst)) :
    l.KeepsBesides (l.rehouse block insts inst home) inst := by
  refine ⟨rfl, fun b => ?_⟩
  rw [insts_rehouse]
  split
  · rename_i here
    exact here ▸ same
  · rfl

end KeepsBesides

namespace Synced

variable (h : l.Synced)
include h

theorem remove_keeps (done : l.remove inst = .ok l') : l.KeepsBesides l' inst := by
  obtain ⟨block, found, rfl⟩ := remove_cases done
  apply KeepsBesides.rehouse
  rw [(h.nodup_insts block).erase_eq_filter, List.filter_filter]
  simp

/-- The removal does not take away the place, so the instruction ends up just before it. -/
theorem moveBefore_places (done : l.moveBefore inst before = .ok l') :
    l.KeepsBesides l' inst ∧
    ∃ block front back, l'.insts block = front ++ inst :: before :: back := by
  obtain ⟨mid, removed, inserted⟩ := bind_eq_ok.mp done
  obtain ⟨_, block, front, back, _, whole, rfl⟩ := insertBefore_cases inserted
  refine ⟨(h.remove_keeps removed).trans (.rehouse ?_), block, front, back, by simp⟩
  rw [whole]
  simp

theorem moveToEnd_places (done : l.moveToEnd inst block = .ok l') :
    l.KeepsBesides l' inst ∧ ∃ front, l'.insts block = front ++ [inst] := by
  obtain ⟨mid, removed, appended⟩ := bind_eq_ok.mp done
  obtain ⟨_, _, rfl⟩ := appendInst_cases appended
  exact ⟨(h.remove_keeps removed).trans (.rehouse (by simp)), mid.insts block, by simp⟩

end Synced

/-- Whatever changes are made to an empty layout, its blocks are those that were placed, each once
and in the order of their placing, and those that are marked as placed; only these hold
instructions; and an instruction is listed at most once in all blocks together, just in the block
that is recorded as its home. A change then fails only if its arguments are not as it requires, and
never because the records are out of step. A move keeps the blocks and the order of all other
instructions in each, and puts the instruction directly before the one named, or last in the block
named. -/
theorem changes_keep_index {changes : List Change}
    (ran : changes.foldlM Change.apply .empty = .ok l) :
    (l.blocks.Nodup ∧ l.blocks = changes.filterMap Change.block? ∧
        (∀ block, l.isPlaced block = true ↔ block ∈ l.blocks) ∧
        ∀ block, l.insts block ≠ [] → l.isPlaced block = true) ∧
      ((l.blocks.flatMap l.insts).Nodup ∧
        ∀ inst block, inst ∈ l.insts block ↔ l.blockOf inst = some block) ∧
      (∀ c : Change, ((∃ l', c.apply l = .ok l') ↔ c.Allowed l) ∧
        c.apply l ≠ .error .layoutOutOfSync) ∧
      (∀ inst before l', l.moveBefore inst before = .ok l' →
        l.KeepsBesides l' inst ∧
          ∃ block front back, l'.insts block = front ++ inst :: before :: back) ∧
      ∀ inst block l', l.moveToEnd inst block = .ok l' →
        l.KeepsBesides l' inst ∧ ∃ front, l'.insts block = front ++ [inst] := by
  have h := Synced.empty.run ran
  refine ⟨⟨h.blocks, blocks_run ran, h.marked,
    fun block held => (h.marked block).mpr (h.held block held)⟩,
    ⟨l.allInsts_eq ▸ h.insts, fun inst block => (h.housed inst block).symm⟩,
    fun c => ⟨h.apply_ok_iff, h.apply_inSync⟩,
    fun inst before l' => h.moveBefore_places, fun inst block l' => h.moveToEnd_places⟩

/-- Instructions are moved within a block, and from each of two blocks to the other. -/
def shuffle : List Change :=
  [.appendBlock ⟨4⟩, .appendBlock ⟨2⟩, .appendInst ⟨0⟩ ⟨4⟩, .appendInst ⟨1⟩ ⟨4⟩,
    .insertBefore ⟨5⟩ ⟨0⟩, .appendInst ⟨7⟩ ⟨2⟩, .moveBefore ⟨1⟩ ⟨5⟩, .moveToEnd ⟨5⟩ ⟨2⟩,
    .remove ⟨0⟩, .moveBefore ⟨7⟩ ⟨1⟩]

theorem changes_keep_index_shuffle :
    ∃ l, shuffle.foldlM Change.apply .empty = .ok l ∧ l.blocks = [⟨4⟩, ⟨2⟩] ∧
      l.insts ⟨4⟩ = [⟨7⟩, ⟨1⟩] ∧ l.insts ⟨2⟩ = [⟨5⟩] ∧ (l.blocks.flatMap l.insts).Nodup ∧
      l.remove ⟨0⟩ ≠ .error .layoutOutOfSync ∧
      ∃ l', l.moveBefore ⟨1⟩ ⟨7⟩ = .ok l' ∧ l.KeepsBesides l' ⟨1⟩ ∧ l'.insts ⟨4⟩ = [⟨1⟩, ⟨7⟩] := by
  obtain ⟨l, ran, facts⟩ : ∃ l, shuffle.foldlM Change.apply .empty = .ok l ∧ l.blocks = [⟨4⟩, ⟨2⟩] ∧
      l.insts ⟨4⟩ = [⟨7⟩, ⟨1⟩] ∧ l.insts ⟨2⟩ = [⟨5⟩] ∧
      ∃ l', l.moveBefore ⟨1⟩ ⟨7⟩ = .ok l' ∧ l'.insts ⟨4⟩ = [⟨1⟩, ⟨7⟩] :=
    ⟨_, rfl, rfl, rfl, rfl, _, rfl, rfl⟩
  obtain ⟨blocks, four, two, l', moved, list⟩ := facts
  obtain ⟨_, ⟨once, _⟩, changed, moves, _⟩ := changes_keep_index ran
  exact ⟨l, ran, blocks, four, two, once, (changed (.remove ⟨0⟩)).2, l', moved,
    (moves ⟨1⟩ ⟨7⟩ l' moved).1, list⟩

end MemoryFlow.Layout
