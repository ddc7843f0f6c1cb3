import MemoryFlow.Proofs.Procedure.Draft

/-! # Well-formed procedures

What makes a procedure well-formed, and what each defect says of a procedure, is stated here without
the search for defects. Of the procedures that can be drafted the search passes exactly the
well-formed ones, and what it finds in another is there to be found (`finish_ok_iff_wellFormed`),
however many other defects there are.
-/

namespace MemoryFlow

theorem Op.isTerminator_of_mem_successors {op : Op} {dest : Block} (leads : dest ∈ op.successors) :
    op.isTerminator = true := by
  cases op with
  | jump | branch | ret | unreachable => rfl
  | _ => simp [successors] at leads

namespace Procedure

variable {p : Procedure} {entry block dest : Block} {inst last : Inst} {op : Op}
  {insts body : List Inst} {row : Layout.Row} {defect : Defect}

/-- Whether `inst` is placed and performs `op`. -/
def Places (p : Procedure) (inst : Inst) (op : Op) : Prop :=
  inst ∈ p.layout.allInsts ∧ p.op inst = .ok op

def IsEnd (p : Procedure) (inst : Inst) : Prop :=
  ∃ op, p.op inst = .ok op ∧ op.isTerminator = true

/-- Whether there is one terminator in a list of instructions, at its end. -/
def EndsOnce (p : Procedure) (insts : List Inst) : Prop :=
  ∃ body last, insts = body ++ [last] ∧ p.IsEnd last ∧ ∀ inst ∈ body, ¬p.IsEnd inst

/-- Whether a procedure is fit for analysis. -/
structure WellFormed (p : Procedure) : Prop where
  /-- There is a block. -/
  nonempty : p.layout.blocks ≠ []
  /-- Each block ends in its only terminator. -/
  ended : ∀ block ∈ p.layout.blocks, p.EndsOnce (p.layout.insts block)
  /-- Only values of the procedure are used. -/
  values : ∀ inst op, p.Places inst op → ∀ value ∈ op.arguments, p.hasValue value = true
  /-- Terminators lead to placed blocks, and not back to the entry. -/
  dests : ∀ inst op, p.Places inst op → op.isTerminator = true →
    ∀ dest ∈ op.successors, dest ∈ p.layout.blocks ∧ p.entry ≠ some dest

end Procedure

/-- Whether what a defect says is true of a procedure. -/
def Defect.Describes (p : Procedure) : Defect → Prop
  | .noBlocks name => name = p.name ∧ p.layout.blocks = []
  | .missingTerminator block =>
      block ∈ p.layout.blocks ∧ ∀ last ∈ p.layout.lastInst block, ¬p.IsEnd last
  | .afterTerminator block inst => block ∈ p.layout.blocks ∧
      ∃ front last back, p.layout.insts block = front ++ last :: inst :: back ∧ p.IsEnd last
  | .unknownBlock inst dest =>
      ∃ op, p.Places inst op ∧ op.isTerminator = true ∧ dest ∈ op.successors ∧
      dest ∉ p.layout.blocks
  | .unknownValue inst value =>
      ∃ op, p.Places inst op ∧ value ∈ op.arguments ∧ p.hasValue value = false
  | .entryHasPredecessors entry => p.entry = some entry ∧
      ∃ inst op, p.Places inst op ∧ op.isTerminator = true ∧ entry ∈ op.successors

namespace Procedure

variable {p : Procedure} {entry block dest : Block} {inst last : Inst} {op : Op}
  {insts body : List Inst} {row : Layout.Row} {defect : Defect}

theorem op_eq_ok : p.op inst = .ok op ↔ p.op? inst = some op := by
  unfold Procedure.op
  cases p.op? inst <;> simp [pure, Except.pure, throw, throwThe, MonadExceptOf.throw]

theorem lt_of_op (performs : p.op inst = .ok op) : inst.index < p.insts.size := by
  by_contra outside
  simp [Procedure.op, op?, Array.getElem?_eq_none (Nat.le_of_not_lt outside)] at performs

theorem isTerminator_iff : p.isTerminator inst = true ↔ p.IsEnd inst := by
  simp only [isTerminator, IsEnd, op_eq_ok, Option.any_eq_true]

/-! ## The terminator of a block -/

theorem afterTerminator?_eq_none_iff :
    p.afterTerminator? (body ++ [last]) = none ↔ ∀ inst ∈ body, ¬p.IsEnd inst := by
  induction body with
  | nil => simp [afterTerminator?]
  | cons inst body ih =>
      -- What follows the first instruction is not empty, so the search looks at it.
      obtain ⟨next, rest, follows⟩ : ∃ next rest, body ++ [last] = next :: rest := by
        cases body <;> simp
      rw [List.cons_append, follows, afterTerminator?, ← follows, List.forall_mem_cons, ← ih,
        ← isTerminator_iff]
      cases p.isTerminator inst <;> simp

theorem afterTerminator?_eq_some (found : p.afterTerminator? insts = some inst) :
    ∃ front last back, insts = front ++ last :: inst :: back ∧ p.IsEnd last := by
  fun_induction afterTerminator? p insts with
  | case1 first next rest isEnd =>
      obtain rfl := Option.some.inj found
      exact ⟨[], first, rest, rfl, isTerminator_iff.mp isEnd⟩
  | case2 first next rest _ ih =>
      obtain ⟨front, last, back, split, isEnd⟩ := ih found
      exact ⟨first :: front, last, back, by rw [split]; rfl, isEnd⟩
  | case3 => cases found

theorem endsOnce_append : p.EndsOnce (body ++ [last]) ↔
    p.afterTerminator? (body ++ [last]) = none ∧ p.isTerminator last = true := by
  rw [afterTerminator?_eq_none_iff, isTerminator_iff]
  constructor
  · rintro ⟨body', last', same, isEnd, before⟩
    obtain ⟨rfl, single⟩ := List.append_inj' same rfl
    obtain rfl := List.head_eq_of_cons_eq single
    exact ⟨before, isEnd⟩
  · exact fun ⟨before, isEnd⟩ => ⟨body, last, rfl, isEnd, before⟩

theorem rowDefect?_eq_none_iff : p.rowDefect? entry row = none ↔
    p.EndsOnce row.insts ∧ ∀ inst ∈ row.insts, p.instDefect? entry inst = none := by
  unfold rowDefect?
  rcases List.eq_nil_or_concat' row.insts with empty | ⟨body, last, split⟩
  · simp [empty, afterTerminator?, EndsOnce]
  · rw [split, endsOnce_append, List.getLast?_concat]
    cases p.afterTerminator? (body ++ [last]) with
    | some inst => simp
    | none =>
        cases isEnd : p.isTerminator
          last <;> simp [isEnd, List.findSome?_eq_none_iff, or_imp, forall_and]

/-! ## The operands of an instruction -/

theorem destDefect?_eq_none_iff (synced : p.layout.Synced)
    (known : ∀ block ∈ p.layout.blocks, p.hasBlock block = true) :
    p.destDefect? entry inst dest = none ↔ dest ∈ p.layout.blocks ∧ entry ≠ dest := by
  unfold destDefect?
  by_cases placed : dest ∈ p.layout.blocks
  · have isPlaced := (synced.marked dest).mpr placed
    by_cases same : entry = dest <;> simp [known dest placed, isPlaced, placed, same, eq_comm]
  · simp [mt (synced.marked dest).mp placed, placed]

theorem instDefect?_eq_none_iff (synced : p.layout.Synced)
    (known : ∀ block ∈ p.layout.blocks, p.hasBlock block = true) (performs : p.op inst = .ok op) :
    p.instDefect? entry inst = none ↔ (∀ value ∈ op.arguments, p.hasValue value = true) ∧
        ∀ dest ∈ op.successors, dest ∈ p.layout.blocks ∧ entry ≠ dest := by
  simp [instDefect?, op_eq_ok.mp performs, destDefect?_eq_none_iff synced known]

/-! ## The whole procedure -/

theorem entry_eq_some_iff : (∃ entry, p.entry = some entry) ↔ p.layout.blocks ≠ [] := by
  unfold Procedure.entry Layout.entry
  cases p.layout.blocks <;> simp

theorem defect?_eq_none_iff (synced : p.layout.Synced) (orderly : p.Orderly)
    (complete : p.Complete) : p.defect? = none ↔ p.WellFormed := by
  have instFine : ∀ {entry inst}, inst ∈ p.layout.allInsts → (p.instDefect? entry inst = none ↔
      ∀ op, p.op inst = .ok op → (∀ value ∈ op.arguments, p.hasValue value = true) ∧
        ∀ dest ∈ op.successors, dest ∈ p.layout.blocks ∧ entry ≠ dest) := by
    intro entry inst placed
    obtain ⟨op, performs⟩ := orderly.exists_op placed
    rw [instDefect?_eq_none_iff synced complete.blocks performs]
    simp [performs]
  constructor
  · intro fine
    unfold defect? at fine
    cases first : p.entry with
    | none => simp [first] at fine
    | some entry =>
        simp only [first, List.findSome?_eq_none_iff, rowDefect?_eq_none_iff] at fine
        have checked : ∀ inst op, p.Places inst op →
            (∀ value ∈ op.arguments, p.hasValue value = true) ∧
            ∀ dest ∈ op.successors, dest ∈ p.layout.blocks ∧ entry ≠ dest := by
          intro inst op ⟨placed, performs⟩
          obtain ⟨row, listed, inside⟩ := List.mem_flatMap.mp placed
          exact (instFine placed).mp ((fine row listed).2 inst inside) op performs
        refine ⟨entry_eq_some_iff.mp ⟨entry, first⟩, fun block placed => ?_,
          fun inst op places => (checked inst op places).1, fun inst op places _ dest leads => ?_⟩
        · exact (fine _ (List.mem_map_of_mem placed)).1
        · simpa [first] using (checked inst op places).2 dest leads
  · intro wellFormed
    obtain ⟨entry, first⟩ := entry_eq_some_iff.mpr wellFormed.nonempty
    simp only [defect?, first, List.findSome?_eq_none_iff, rowDefect?_eq_none_iff]
    intro row listed
    refine ⟨?_, fun inst inside => ?_⟩
    · rw [← Layout.insts_row listed]
      exact wellFormed.ended row.block (Layout.block_row listed)
    · have placed : inst ∈ p.layout.allInsts := List.mem_flatMap.mpr ⟨row, listed, inside⟩
      refine (instFine placed).mpr fun op performs =>
        ⟨wellFormed.values inst op ⟨placed, performs⟩, ?_⟩
      intro dest leads
      simpa [first] using
        wellFormed.dests inst op ⟨placed, performs⟩ (Op.isTerminator_of_mem_successors leads)
        dest leads

theorem describes_of_destDefect? (synced : p.layout.Synced)
    (known : ∀ block ∈ p.layout.blocks, p.hasBlock block = true) (first : p.entry = some entry)
    (places : p.Places inst op) (leads : dest ∈ op.successors)
    (found : p.destDefect? entry inst dest = some defect) : defect.Describes p := by
  have isEnd := Op.isTerminator_of_mem_successors leads
  unfold destDefect? at found
  split at found
  · rename_i unknown
    obtain rfl := Option.some.inj found
    refine ⟨op, places, isEnd, leads, fun placed => ?_⟩
    simp [known dest placed, (synced.marked dest).mpr placed] at unknown
  · split at found
    · rename_i same
      obtain rfl := Option.some.inj found
      exact ⟨first, inst, op, places, isEnd, same ▸ leads⟩
    · cases found

theorem describes_of_instDefect? (synced : p.layout.Synced)
    (known : ∀ block ∈ p.layout.blocks, p.hasBlock block = true) (first : p.entry = some entry)
    (placed : inst ∈ p.layout.allInsts) (found : p.instDefect? entry inst = some defect) :
    defect.Describes p := by
  obtain ⟨op, performs, found⟩ := Option.bind_eq_some_iff.mp found
  have places : p.Places inst op := ⟨placed, op_eq_ok.mpr performs⟩
  rcases Option.or_eq_some_iff.mp found with unknown | ⟨_, wrong⟩
  · obtain ⟨value, missing, rfl⟩ := Option.map_eq_some_iff.mp unknown
    exact ⟨op, places, List.mem_of_find?_eq_some missing, by simpa using List.find?_some missing⟩
  · obtain ⟨dest, leads, found⟩ := List.exists_of_findSome?_eq_some wrong
    exact describes_of_destDefect? synced known first places leads found

theorem describes_of_rowDefect? (synced : p.layout.Synced)
    (known : ∀ block ∈ p.layout.blocks, p.hasBlock block = true) (first : p.entry = some entry)
    (listed : row ∈ p.layout.rows) (found : p.rowDefect? entry row = some defect) :
    defect.Describes p := by
  have placed : row.block ∈ p.layout.blocks := Layout.block_row listed
  have whole := Layout.insts_row listed
  unfold rowDefect? at found
  split at found
  · rename_i inst after
    obtain rfl := Option.some.inj found
    exact ⟨placed, whole ▸ afterTerminator?_eq_some after⟩
  · split at found
    · obtain ⟨inst, inside, found⟩ := List.exists_of_findSome?_eq_some found
      exact describes_of_instDefect? synced known first
        (List.mem_flatMap.mpr ⟨row, listed, inside⟩) found
    · rename_i unended
      obtain rfl := Option.some.inj found
      refine ⟨placed, fun last isLast isEnd => unended ?_⟩
      rw [Layout.lastInst, whole] at isLast
      rw [isLast]
      exact isTerminator_iff.mpr isEnd

/-- What the search finds is so. -/
theorem describes_of_defect? (synced : p.layout.Synced) (complete : p.Complete)
    (found : p.defect? = some defect) : defect.Describes p := by
  unfold defect? at found
  split at found
  · rename_i none
    obtain rfl := Option.some.inj found
    refine ⟨rfl, Decidable.not_not.mp fun nonempty => ?_⟩
    obtain ⟨entry, first⟩ := entry_eq_some_iff.mpr nonempty
    simp [first] at none
  · rename_i entry first
    obtain ⟨row, listed, found⟩ := List.exists_of_findSome?_eq_some found
    exact describes_of_rowDefect? synced complete.blocks first listed found

end Procedure

/-- However a draft is made, finishing it gives its procedure just if that is well-formed, and
otherwise names something that is wrong with it. -/
theorem Draft.finish_ok_iff_wellFormed {d : Draft} (made : d.Made) :
    (∀ p, d.finish = .ok p ↔ p = d.procedure ∧ d.procedure.WellFormed) ∧
      ∀ defect, d.finish = .error defect → defect.Describes d.procedure := by
  rw [← Procedure.defect?_eq_none_iff made.synced made.orderly made.complete]
  unfold finish
  cases found : d.procedure.defect? with
  | none => simp [eq_comm]
  | some defect =>
      refine ⟨by simp, fun defect' same => ?_⟩
      obtain rfl := Except.error.inj same
      exact Procedure.describes_of_defect? made.synced made.complete found

/-- A block that leads to another by both ways of a branch. -/
def twoBlocks : Draft where
  procedure :=
    { name := "two"
      params := [⟨0⟩]
      blockNames := #[none, none]
      insts := #[⟨.branch ⟨0⟩ ⟨1⟩ ⟨1⟩, none⟩, ⟨.ret (some ⟨0⟩), none⟩]
      values := #[.parameter 0]
      layout := .ofRows [⟨⟨0⟩, [⟨0⟩]⟩, ⟨⟨1⟩, [⟨1⟩]⟩] }
  current := some ⟨1⟩

theorem twoBlocks_made : twoBlocks.Made :=
  .append (.ret (some ⟨0⟩)) (.select ⟨1⟩ (.append (.branch ⟨0⟩ ⟨1⟩ ⟨1⟩) (.select ⟨0⟩
    (.addBlock none (.addBlock none (.addParam (.start "two")) rfl) rfl)) rfl)) rfl

/-- With one instruction more the second block goes on after its terminator, uses a value that is
not there and leads back to the first. -/
theorem Draft.finish_ok_iff_wellFormed_twoBlocks :
    twoBlocks.Made ∧ twoBlocks.procedure.WellFormed ∧
      ∃ d inst, twoBlocks.append (.branch ⟨7⟩ ⟨0⟩ ⟨1⟩) = .ok (d, inst) ∧ d.Made ∧
        ¬d.procedure.WellFormed ∧ d.finish = .error (.afterTerminator ⟨1⟩ ⟨2⟩) ∧
        (Defect.afterTerminator ⟨1⟩ ⟨2⟩).Describes d.procedure := by
  have added : ∃ d, twoBlocks.append (.branch ⟨7⟩ ⟨0⟩ ⟨1⟩) = .ok (d, ⟨2⟩) ∧
      d.finish = .error (.afterTerminator ⟨1⟩ ⟨2⟩) := ⟨_, rfl, rfl⟩
  obtain ⟨d, added, refused⟩ := added
  have made : d.Made := .append _ twoBlocks_made added
  obtain ⟨accepts, describes⟩ := finish_ok_iff_wellFormed made
  refine ⟨twoBlocks_made, (((finish_ok_iff_wellFormed twoBlocks_made).1 _).mp rfl).2, d, _,
    added, made, ?_, refused, describes _ refused⟩
  intro wellFormed
  have finished := (accepts d.procedure).mpr ⟨rfl, wellFormed⟩
  simp [refused] at finished

end MemoryFlow
