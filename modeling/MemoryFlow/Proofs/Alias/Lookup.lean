import MemoryFlow.Procedure.Text
import MemoryFlow.Proofs.Alias.Offset

/-! # Looking up what a procedure names

The instructions of a procedure name values, procedures to call and globals by their numbers.
Finishing a draft makes sure of the values only: a call or an address may name what was never
declared. Writing the procedure and asking the oracle that reasons by objects look these names up.
On an accepted procedure they fail for want of an entry just where such a name is met
(`lookups_fail_iff_undeclared`).
-/

namespace MemoryFlow

/-- Whether a computation does not fail for want of an entry. -/
def InBounds {α : Type} (x : Except Fault α) : Prop :=
  x ≠ .error .outOfBounds

/-- Whether a computation fails for want of an entry if `missing` holds, and has a result
otherwise. -/
structure FailsIff {α : Type} (x : Except Fault α) (missing : Prop) : Prop where
  fails : missing → x = .error .outOfBounds
  succeeds : ¬missing → ∃ a, x = .ok a

section

variable {α β σ : Type} {x : Except Fault α} {f : α → Except Fault β} {P Q : Prop} {l : List α}

namespace InBounds

theorem ok (a : α) : InBounds (.ok a) := by
  simp [InBounds]

theorem bind (h : InBounds x) (next : ∀ a, x = .ok a → InBounds (f a)) : InBounds (x >>= f) := by
  cases result : x with
  | error fault =>
      rw [result] at h
      simpa [InBounds, Bind.bind, Except.bind] using h
  | ok a => exact next a result

theorem anyM {f : α → Except Fault Bool} (each : ∀ a ∈ l, InBounds (f a)) :
    InBounds (l.anyM f) := by
  induction l with
  | nil => exact ok false
  | cons a l ih =>
      obtain ⟨first, rest⟩ := List.forall_mem_cons.mp each
      rw [List.anyM]
      apply first.bind
      intro holds _
      cases holds with
      | true => exact ok true
      | false => exact ih rest

theorem foldlM {f : σ → α → Except Fault σ} (s : σ) (each : ∀ a ∈ l, ∀ s, InBounds (f s a)) :
    InBounds (l.foldlM f s) := by
  induction l generalizing s with
  | nil => exact ok s
  | cons a l ih =>
      obtain ⟨first, rest⟩ := List.forall_mem_cons.mp each
      rw [List.foldlM_cons]
      exact (first s).bind fun s' _ => ih s' rest

end InBounds

namespace FailsIff

theorem never (result : ∃ a, x = .ok a) : FailsIff x False :=
  ⟨False.elim, fun _ => result⟩

theorem congr (h : FailsIff x P) (same : P ↔ Q) : FailsIff x Q :=
  ⟨fun q => h.fails (same.mpr q), fun q => h.succeeds (mt same.mp q)⟩

theorem outOfBounds_iff (h : FailsIff x P) : x = .error .outOfBounds ↔ P := by
  constructor
  · intro failed
    by_contra found
    obtain ⟨a, result⟩ := h.succeeds found
    cases failed.symm.trans result
  · exact h.fails

theorem inBounds_iff (h : FailsIff x P) : InBounds x ↔ ¬P :=
  not_congr h.outOfBounds_iff

theorem bind (h : FailsIff x P) (next : ∀ a, x = .ok a → FailsIff (f a) Q) :
    FailsIff (x >>= f) (P ∨ Q) := by
  by_cases missing : P
  · rw [h.fails missing]
    exact ⟨fun _ => rfl, fun found => absurd (.inl missing) found⟩
  · obtain ⟨a, result⟩ := h.succeeds missing
    rw [result, ok_bind]
    exact (next a result).congr (by simp [missing])

theorem after (result : ∃ a, x = .ok a) (next : ∀ a, x = .ok a → FailsIff (f a) Q) :
    FailsIff (x >>= f) Q :=
  ((never result).bind next).congr (by simp)

theorem map (h : FailsIff x P) (g : α → β) : FailsIff (do return g (← x)) P :=
  (h.bind fun _ _ => never ⟨_, rfl⟩).congr (by simp)

theorem table {entries : Array α} {index : Nat}
    (missing : entries[index]? = none → x = .error .outOfBounds)
    (found : ∀ entry, entries[index]? = some entry → x = .ok entry) :
    FailsIff x (entries.size ≤ index) := by
  constructor
  · exact fun outside => missing (Array.getElem?_eq_none outside)
  · exact fun inside => ⟨_, found _ (Array.getElem?_eq_getElem (Nat.lt_of_not_le inside))⟩

theorem mapM {missing : α → Prop} (each : ∀ a ∈ l, FailsIff (f a) (missing a)) :
    FailsIff (l.mapM f) (∃ a ∈ l, missing a) := by
  induction l with
  | nil => exact (never ⟨[], rfl⟩).congr (by simp)
  | cons a l ih =>
      obtain ⟨first, rest⟩ := List.forall_mem_cons.mp each
      rw [List.mapM_cons]
      exact (first.bind fun b _ => (ih rest).map (b :: ·)).congr (by simp)

end FailsIff

end

structure Notes.Total (notes : Notes) : Prop where
  atBlock : ∀ block, ∃ text, notes.atBlock block = .ok text
  atInst : ∀ inst, ∃ text, notes.atInst inst = .ok text

theorem Notes.blank_total : Notes.blank.Total :=
  ⟨fun _ => ⟨"", rfl⟩, fun _ => ⟨"", rfl⟩⟩

namespace Procedure

variable {p : Procedure} {inst : Inst} {op : Op} {notes : Notes} {loc : Location}

def CallsUndeclared (p : Procedure) : Op → Prop
  | .call callee _ => p.callees.size ≤ callee.index
  | _ => False

def AddressesUndeclared (p : Procedure) : Op → Prop
  | .globalAddr global => p.globals.size ≤ global.index
  | _ => False

/-- Whether all that the instructions of a procedure call or take the address of is declared. -/
def DeclaresAll (p : Procedure) : Prop :=
  ∀ inst op, p.op inst = .ok op → ¬p.CallsUndeclared op ∧ ¬p.AddressesUndeclared op

theorem declaresAll_iff : p.DeclaresAll ↔
    ¬∃ inst op, p.op inst = .ok op ∧ (p.CallsUndeclared op ∨ p.AddressesUndeclared op) := by
  simp only [DeclaresAll, not_exists, not_and, not_or]

theorem callee_failsIff (callee : Callee) :
    FailsIff (p.callee callee) (p.callees.size ≤ callee.index) := by
  unfold Procedure.callee
  exact .table (fun missing => by rw [missing]; rfl) fun _ found => by rw [found]; rfl

theorem global_failsIff (global : Global) :
    FailsIff (p.global global) (p.globals.size ≤ global.index) := by
  unfold Procedure.global
  exact .table (fun missing => by rw [missing]; rfl) fun _ found => by rw [found]; rfl

/-! ## Writing a procedure -/

theorem opText_failsIff (p : Procedure) (op : Op) :
    FailsIff (p.opText op) (p.CallsUndeclared op ∨ p.AddressesUndeclared op) := by
  cases op with
  | call callee =>
      exact ((callee_failsIff callee).map _).congr (by simp [CallsUndeclared, AddressesUndeclared])
  | globalAddr global =>
      exact ((global_failsIff global).map _).congr (by simp [CallsUndeclared, AddressesUndeclared])
  | ret value =>
      apply (FailsIff.never _).congr (by simp [CallsUndeclared, AddressesUndeclared])
      cases value <;> exact ⟨_, rfl⟩
  | _ => exact (FailsIff.never ⟨_, rfl⟩).congr (by simp [CallsUndeclared, AddressesUndeclared])

theorem instText_failsIff (total : notes.Total) (performs : p.op inst = .ok op) :
    FailsIff (p.instText notes inst) (p.CallsUndeclared op ∨ p.AddressesUndeclared op) := by
  unfold instText
  rw [performs]
  apply FailsIff.after (total.atInst inst)
  intro note _
  exact (opText_failsIff p op).map _

theorem textWith_failsIff (accepted : p.Accepted) (total : notes.Total) :
    FailsIff (p.textWith notes)
    (∃ inst op, p.op inst = .ok op ∧ (p.CallsUndeclared op ∨ p.AddressesUndeclared op)) := by
  have line : ∀ inst ∈ p.layout.allInsts, FailsIff (p.instText notes inst)
      (∃ op, p.op inst = .ok op ∧ (p.CallsUndeclared op ∨ p.AddressesUndeclared op)) := by
    intro inst placed
    obtain ⟨op, performs⟩ := accepted.orderly.exists_op placed
    exact (instText_failsIff total performs).congr (by simp [performs])
  have row : ∀ row ∈ p.layout.rows, FailsIff (p.rowText notes row) (∃ inst ∈ row.insts,
      ∃ op, p.op inst = .ok op ∧ (p.CallsUndeclared op ∨ p.AddressesUndeclared op)) := by
    intro row listed
    apply FailsIff.after (total.atBlock row.block)
    intro note _
    apply FailsIff.map
    apply FailsIff.mapM
    exact fun inst member => line inst (List.mem_flatMap.mpr ⟨row, listed, member⟩)
  apply ((FailsIff.mapM row).map _).congr
  constructor
  · rintro ⟨_, _, inst, _, op, undeclared⟩
    exact ⟨inst, op, undeclared⟩
  · rintro ⟨inst, op, performs, undeclared⟩
    obtain ⟨row, listed, member⟩ := List.mem_flatMap.mp (accepted.places performs).1
    exact ⟨row, listed, inst, member, op, performs, undeclared⟩

/-! ## Asking about instructions -/

theorem behavior_failsIff (performs : p.op inst = .ok op) :
    FailsIff (Oracle.byObject.behavior p inst) (p.CallsUndeclared op) := by
  change FailsIff (declaredBehavior p inst) _
  rw [declaredBehavior, performs, ok_bind]
  cases op with
  | call callee => exact (callee_failsIff callee).map _
  | _ => exact .never ⟨_, rfl⟩

theorem effect_failsIff (performs : p.op inst = .ok op) :
    FailsIff (Oracle.byObject.effect p inst) (p.CallsUndeclared op) := by
  have behavior := behavior_failsIff performs
  change FailsIff (usualEffect Oracle.byObject.behavior p inst) _
  rw [usualEffect, performs, ok_bind]
  cases op with
  | call => exact behavior.map _
  | intrinsic id => cases id <;> exact .never ⟨_, rfl⟩
  | _ => exact .never ⟨_, rfl⟩

/-! ## Asking about locations -/

/-- Tracing back a value of an accepted procedure finds a base of a known kind or does not end. -/
theorem derivation_cases (accepted : p.Accepted) {ptr : Value} (known : p.hasValue ptr = true) :
    (∃ d object, p.derivation ptr = .ok d ∧ p.objectOf d.base = .ok object) ∨
      p.derivation ptr = .error .diverges := by
  by_cases circles : p.Circles ptr
  · exact .inr circles.traceBack
  · obtain ⟨d, traced⟩ := derivation_total accepted.closed circles known
    obtain ⟨⟨object, kind⟩, _⟩ := derivation_sound traced
    exact .inl ⟨d, object, traced, kind⟩

theorem objectOf_of_addresses {base : Value} {global : Global}
    (addresses : p.Addresses base (.global global)) :
    p.objectOf base = .ok (.global global) := by
  cases addresses with
  | global comes performs =>
      rw [objectOf, comes, ok_bind]
      dsimp only
      rw [performs]
      rfl

theorem overlap_inBounds (accepted : p.Accepted) {a b : Location} (knownA : p.hasValue a.ptr = true)
    (knownB : p.hasValue b.ptr = true) : InBounds (Oracle.byObject.overlap p a b) := by
  have trace : ∀ {ptr}, p.hasValue ptr = true → InBounds (p.derivation ptr) := by
    intro ptr known
    rcases derivation_cases accepted known with ⟨d, _, traced, _⟩ | endless
    · rw [traced]
      exact .ok d
    · simp [InBounds, endless]
  have kind : ∀ {ptr d}, p.derivation ptr = .ok d → InBounds (p.objectOf d.base) := by
    intro ptr d traced
    obtain ⟨⟨object, kind⟩, _⟩ := derivation_sound traced
    rw [kind]
    exact .ok object
  unfold Oracle.byObject
  dsimp only
  split
  · exact .ok _
  · apply (trace knownA).bind
    intro x tracedA
    apply (trace knownB).bind
    intro y tracedB
    apply (kind tracedA).bind
    intro objectA _
    apply (kind tracedB).bind
    intro objectB _
    split <;> exact .ok _

theorem constant_outOfBounds_iff (accepted : p.Accepted) (known : p.hasValue loc.ptr = true)
    (orLocal : Bool) : Oracle.byObject.constant p loc orLocal = .error .outOfBounds ↔
      ∃ d global, p.derivation loc.ptr = .ok d ∧ p.Addresses d.base (.global global) ∧
        p.globals.size ≤ global.index := by
  unfold Oracle.byObject
  dsimp only
  rcases derivation_cases accepted known with ⟨d, object, traced, kind⟩ | endless
  · rw [traced, ok_bind, kind, ok_bind]
    have only : ∀ d' global, Except.ok d = (.ok d' : Except Fault Derivation) →
        p.Addresses d'.base (.global global) → object = .global global := by
      rintro _ global ⟨⟩ addresses
      exact Except.ok.inj (kind.symm.trans (objectOf_of_addresses addresses))
    cases object with
    | global global =>
        rw [((global_failsIff global).map _).outOfBounds_iff]
        constructor
        · exact fun missing => ⟨d, global, rfl, objectOf_isKind kind, missing⟩
        · rintro ⟨d', global', same, addresses, missing⟩
          cases only d' global' same addresses
          exact missing
    | _ =>
        constructor
        · intro failed
          cases failed
        · rintro ⟨d', global', same, addresses, _⟩
          cases only d' global' same addresses
  · simp [endless, Bind.bind, Except.bind]

end Procedure

/-! ## Asking about effects -/

namespace Oracle

/-- Whether an oracle does not miss an entry for the calls of a procedure, and for locations at its
values. -/
structure FindsAll (o : Oracle) (p : Procedure) : Prop where
  overlap : ∀ a b, p.hasValue a.ptr = true → p.hasValue b.ptr = true → InBounds (o.overlap p a b)
  constant : ∀ loc orLocal, p.hasValue loc.ptr = true → InBounds (o.constant p loc orLocal)
  behavior : ∀ inst op, p.op inst = .ok op → InBounds (o.behavior p inst)

variable {o : Oracle} {p : Procedure} {inst call : Inst} {op op' : Op} {loc : Location}

theorem FindsAll.usualEffectAt (finds : o.FindsAll p)
    (operands : ∀ value ∈ op.arguments, p.hasValue value = true)
    (performs : p.op inst = .ok op) (known : p.hasValue loc.ptr = true) :
    InBounds (usualEffectAt o.overlap o.constant o.behavior p inst loc) := by
  have touch : ∀ ptr size, p.hasValue ptr = true →
      InBounds (do return (← o.overlap p ⟨ptr, size⟩ loc) != .disjoint : Except Fault Bool) :=
    fun ptr size here => (finds.overlap ⟨ptr, size⟩ loc here known).bind fun _ _ => .ok _
  have fixed := finds.constant loc false known
  rw [MemoryFlow.usualEffectAt, performs, ok_bind]
  cases op with
  | load ptr size quals =>
      dsimp only
      split
      · exact .ok _
      · apply (touch ptr (some size) (operands ptr (by simp [Op.arguments]))).bind
        intro touches _
        split <;> exact .ok _
  | store ptr value size quals =>
      dsimp only
      split
      · exact .ok _
      · apply (touch ptr (some size) (operands ptr (by simp [Op.arguments]))).bind
        intro touches _
        split
        · exact .ok _
        · apply fixed.bind
          intro constant _
          split <;> exact .ok _
  | intrinsic id args =>
      cases id with
      | assume => exact .ok _
      | _ =>
          cases args with
          | nil => exact .ok _
          | cons ptr rest =>
              exact (touch ptr none (operands ptr (by simp [Op.arguments]))).bind fun _ _ => .ok _
  | call callee args =>
      dsimp only
      apply (finds.behavior inst _ performs).bind
      intro b _
      have limited : ∀ reaches : Bool, InBounds (do
          if !reaches then return Effect.none
          else if ← o.constant p loc false then return b.effect.meet .read
          else return b.effect : Except Fault Effect) := by
        intro reaches
        split
        · exact .ok _
        · apply fixed.bind
          intro constant _
          split <;> exact .ok _
      split_ifs
      · exact limited false
      · have reach := InBounds.anyM fun arg member => touch arg none (operands arg member)
        exact reach.bind fun reaches _ => limited reaches
      · exact limited true
  | _ => exact .ok _

theorem FindsAll.usualEffectOnCall (finds : o.FindsAll p)
    (operands : ∀ inst op, p.op inst = .ok op → ∀ value ∈ op.arguments, p.hasValue value = true)
    (effectAt : ∀ inst op loc, p.op inst = .ok op → p.hasValue loc.ptr = true →
      InBounds (o.effectAt p inst loc))
    (performs : p.op inst = .ok op) (performs' : p.op call = .ok op') :
    InBounds (usualEffectOnCall o.behavior o.effectAt p inst call) := by
  rw [MemoryFlow.usualEffectOnCall, performs, ok_bind]
  split
  · exact .ok _
  split
  · apply (finds.behavior inst op performs).bind
    intro b _
    apply (finds.behavior call op' performs').bind
    intro b' _
    rw [usualEffectBetweenCalls, performs', ok_bind]
    split_ifs
    · exact .ok _
    · exact .ok _
    · refine (InBounds.foldlM _ fun arg member _ => ?_).bind fun _ _ => .ok _
      have behind := operands call op' performs' arg member
      exact (effectAt inst op (.behind arg) performs behind).bind fun _ _ => .ok _
    · refine (InBounds.foldlM _ fun arg member _ => ?_).bind fun _ _ => .ok _
      have behind := operands inst op performs arg member
      exact (effectAt call op' (.behind arg) performs' behind).bind fun _ _ => .ok _
    · exact .ok _
  · cases here : Location.ofOp? op with
    | none => exact .ok _
    | some loc =>
        have own : p.hasValue loc.ptr = true := by
          apply operands inst op performs
          cases op <;> cases here <;> simp [Op.arguments]
        exact (effectAt call op' loc performs' own).bind fun _ _ => .ok _

end Oracle

namespace Procedure

variable {p : Procedure}

/-- Whether writing a procedure and asking the oracle that reasons by objects about its
instructions, and about locations at its values, never miss an entry. -/
structure LooksUpSafely (p : Procedure) : Prop extends Oracle.byObject.FindsAll p where
  text : ∀ notes : Notes, notes.Total → InBounds (p.textWith notes)
  effect : ∀ inst op, p.op inst = .ok op → InBounds (Oracle.byObject.effect p inst)
  effectAt : ∀ inst op loc, p.op inst = .ok op → p.hasValue loc.ptr = true →
    InBounds (Oracle.byObject.effectAt p inst loc)
  effectOnCall : ∀ inst op call op', p.op inst = .ok op → p.op call = .ok op' →
    InBounds (Oracle.byObject.effectOnCall p inst call)

theorem DeclaresAll.findsAll (declares : p.DeclaresAll) (accepted : p.Accepted) :
    Oracle.byObject.FindsAll p where
  overlap _ _ knownA knownB := overlap_inBounds accepted knownA knownB
  constant loc orLocal known := by
    intro failed
    obtain ⟨d, global, _, addresses, missing⟩ :=
      (constant_outOfBounds_iff accepted known orLocal).mp failed
    cases addresses with
    | global _ performs => exact (declares _ _ performs).2 missing
  behavior inst op performs :=
    (behavior_failsIff performs).inBounds_iff.mpr (declares inst op performs).1

theorem DeclaresAll.looksUpSafely (declares : p.DeclaresAll) (accepted : p.Accepted) :
    p.LooksUpSafely := by
  have finds := declares.findsAll accepted
  have operands : ∀ inst op, p.op inst = .ok op → ∀ value ∈ op.arguments, p.hasValue value = true :=
    fun _ _ performs _ member => accepted.hasValue_of_mem performs member
  have effectAt : ∀ inst op loc, p.op inst = .ok op → p.hasValue loc.ptr = true →
      InBounds (Oracle.byObject.effectAt p inst loc) :=
    fun inst op _ performs known => finds.usualEffectAt (operands inst op performs) performs known
  refine ⟨finds, fun notes total => ?_, fun inst op performs => ?_, effectAt,
    fun inst op call op' => ?_⟩
  · exact (textWith_failsIff accepted total).inBounds_iff.mpr (declaresAll_iff.mp declares)
  · exact (effect_failsIff performs).inBounds_iff.mpr (declares inst op performs).1
  · exact finds.usualEffectOnCall operands effectAt

/-- An accepted procedure can be written, and asked about, without missing an entry just if all that
it calls or takes the address of is declared. Its operands are always there. Where something is not
declared, writing the procedure fails, as do questions on the behaviour and effect of a call to it
and on whether a location in it is constant; the overlap of locations can still be asked for. -/
theorem lookups_fail_iff_undeclared (accepted : p.Accepted) :
    (p.LooksUpSafely ↔ p.DeclaresAll) ∧
      (∀ inst op, p.op inst = .ok op → ∀ value ∈ op.arguments, p.hasValue value = true) ∧
      (∀ notes : Notes, notes.Total → FailsIff (p.textWith notes)
        (∃ inst op, p.op inst = .ok op ∧ (p.CallsUndeclared op ∨ p.AddressesUndeclared op))) ∧
      (∀ inst op, p.op inst = .ok op →
        FailsIff (Oracle.byObject.behavior p inst) (p.CallsUndeclared op) ∧
        FailsIff (Oracle.byObject.effect p inst) (p.CallsUndeclared op)) ∧
      (∀ a b, p.hasValue a.ptr = true → p.hasValue b.ptr = true →
        InBounds (Oracle.byObject.overlap p a b)) ∧
      ∀ loc orLocal, p.hasValue loc.ptr = true →
        (Oracle.byObject.constant p loc orLocal = .error .outOfBounds ↔
          ∃ d global, p.derivation loc.ptr = .ok d ∧ p.Addresses d.base (.global global) ∧
            p.globals.size ≤ global.index) := by
  refine ⟨⟨fun safe => ?_, fun declares => declares.looksUpSafely accepted⟩,
    fun _ _ performs _ member => accepted.hasValue_of_mem performs member,
    fun _ total => textWith_failsIff accepted total,
    fun _ _ performs => ⟨behavior_failsIff performs, effect_failsIff performs⟩,
    fun _ _ knownA knownB => overlap_inBounds accepted knownA knownB,
    fun _ orLocal known => constant_outOfBounds_iff accepted known orLocal⟩
  -- Writing meets every name, so it alone tells that all of them are declared.
  apply declaresAll_iff.mpr
  exact (textWith_failsIff accepted Notes.blank_total).inBounds_iff.mp
    (safe.text _ Notes.blank_total)

end Procedure

theorem pointers_accepted : pointers.Accepted :=
  ⟨⟨pointers, some ⟨0⟩⟩,
    .append (.ret none) (.append (.call ⟨1⟩ []) (.append (.call ⟨0⟩ [⟨1⟩])
      (.append (.load ⟨4⟩ 8 ⟨false, false, .notAtomic⟩)
        (.append (.store ⟨3⟩ ⟨0⟩ 8 ⟨false, false, .notAtomic⟩) (.append (.globalAddr ⟨0⟩)
          (.append (.globalAddr ⟨0⟩) (.append (.ptrOffset ⟨1⟩ 8) (.append (.alloca 16)
            (.append (.alloca 16) (.select ⟨0⟩ (.addBlock none
              (.declareGlobal ⟨"table", 16, true⟩ (.declareCallee ⟨"look", .reads⟩
                (.declareCallee ⟨"fill", .accessesArguments⟩ (.addParam (.start "pointers")))))
              rfl)) rfl) rfl) rfl) rfl) rfl) rfl) rfl) rfl) rfl) rfl, rfl⟩

theorem pointers_declaresAll : pointers.DeclaresAll := by
  intro inst op performs
  match inst with
  | ⟨0⟩ | ⟨1⟩ | ⟨2⟩ | ⟨3⟩ | ⟨4⟩ | ⟨5⟩ | ⟨6⟩ | ⟨7⟩ | ⟨8⟩ | ⟨9⟩ =>
      cases performs
      simp [Procedure.CallsUndeclared, Procedure.AddressesUndeclared, pointers]
  | ⟨_ + 10⟩ => cases performs

/-- All that the pointers are used with is declared, so they can be written and asked about. -/
theorem Procedure.lookups_fail_iff_undeclared_pointers :
    pointers.Accepted ∧ pointers.DeclaresAll ∧ pointers.LooksUpSafely ∧
    (∃ text, pointers.text = .ok text) ∧ ∃ b, Oracle.byObject.behavior pointers ⟨7⟩ = .ok b := by
  obtain ⟨safe, _, text, insts, _⟩ := lookups_fail_iff_undeclared pointers_accepted
  refine ⟨pointers_accepted, pointers_declaresAll, safe.mpr pointers_declaresAll, ?_, ?_⟩
  · exact (text _ Notes.blank_total).succeeds (declaresAll_iff.mp pointers_declaresAll)
  · exact (insts ⟨7⟩ _ rfl).1.succeeds (pointers_declaresAll ⟨7⟩ _ rfl).1

/-- A call and an address of what was never declared. -/
def undeclaredNames : Procedure where
  name := "undeclared"
  blockNames := #[none]
  insts := #[⟨.call ⟨7⟩ [], some ⟨0⟩⟩, ⟨.globalAddr ⟨3⟩, some ⟨1⟩⟩, ⟨.ret none, none⟩]
  values := #[.result ⟨0⟩, .result ⟨1⟩]
  layout := .ofRows [⟨⟨0⟩, [⟨0⟩, ⟨1⟩, ⟨2⟩]⟩]

/-- Both are accepted, and neither can be written or asked about. -/
theorem Procedure.undeclaredNames_not_found :
    undeclaredNames.Accepted ∧ ¬undeclaredNames.LooksUpSafely ∧
      undeclaredNames.text = .error .outOfBounds ∧
      Oracle.byObject.behavior undeclaredNames ⟨0⟩ = .error .outOfBounds ∧
      Oracle.byObject.effect undeclaredNames ⟨0⟩ = .error .outOfBounds ∧
      Oracle.byObject.constant undeclaredNames ⟨⟨1⟩, some 8⟩ false = .error .outOfBounds := by
  have behavior : Oracle.byObject.behavior undeclaredNames ⟨0⟩ = .error .outOfBounds := by decide
  refine ⟨⟨⟨undeclaredNames, some ⟨0⟩⟩, ?_, rfl⟩, fun safe => safe.behavior ⟨0⟩ _ rfl behavior,
    by decide, behavior, by decide, by decide⟩
  exact .append (.ret none) (.append (.globalAddr ⟨3⟩) (.append (.call ⟨7⟩ []) (.select ⟨0⟩
    (.addBlock none (.start "undeclared") rfl)) rfl) rfl) rfl

end MemoryFlow
