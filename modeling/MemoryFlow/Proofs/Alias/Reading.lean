import MemoryFlow.Proofs.Alias.Object

/-! # What a procedure does to memory

A `Reading` of a procedure says which bytes each of its instructions reads and writes. An oracle is
sound for a reading if whatever is read or written is told (`Oracle.Sound`).
-/

namespace MemoryFlow

/-- The addresses that values hold, and the bytes that each instruction reads and writes. -/
structure Reading where
  address : Value → Int
  /-- The bytes that can be accessed through a value. -/
  reach : Value → Set Int := fun _ => Set.univ
  reads : Inst → Set Int
  writes : Inst → Set Int

namespace Reading

variable (m : Reading) (inst : Inst)

def bytes (loc : Location) : Set Int :=
  loc.span m.address ∩ m.reach loc.ptr

/-- The bytes behind some of the arguments. -/
def behind (args : List Value) : Set Int :=
  {byte | ∃ arg ∈ args, byte ∈ m.bytes (.behind arg)}

def touches : Set Int :=
  m.reads inst ∪ m.writes inst

/-- Whether an instruction does what its operation allows. Loads and stores keep to their range, and
one that is not ordered does nothing but load or store. Intrinsics write behind their first
argument. What a call does is told by its behaviour, and a fence may do anything. -/
def Performs : Op → Prop
  | .load ptr size quals =>
      m.touches inst ⊆ m.bytes ⟨ptr, some size⟩ ∧ (quals.isUnordered = true → m.writes inst = ∅)
  | .store ptr _ size quals =>
      m.touches inst ⊆ m.bytes ⟨ptr, some size⟩ ∧ (quals.isUnordered = true → m.reads inst = ∅)
  | .call .. | .fence _ => True
  | .intrinsic .assume _ => m.touches inst = ∅
  | .intrinsic _ args => m.reads inst = ∅ ∧ m.writes inst ⊆ m.behind args.head?.toList
  | _ => m.touches inst = ∅

/-- Whether a call with these arguments behaves as told. -/
structure Keeps (args : List Value) (b : Behavior) : Prop where
  noAccess : b = .noAccess → m.touches inst = ∅
  onlyReads : b.onlyReads = true → m.writes inst = ∅
  onlyArguments : b.onlyArguments = true → m.touches inst ⊆ m.behind args

def Follows (p : Procedure) : Prop :=
  ∀ inst op, p.op inst = .ok op → m.Performs inst op

/-- Whether every call of a procedure behaves as its callee is declared. -/
def KeepsDeclared (p : Procedure) : Prop :=
  ∀ inst callee args info, p.op inst = .ok (.call callee args) → p.callee callee = .ok info →
    m.Keeps inst args info.behavior

end Reading

/-- Whether an effect tells of all that is read and written. -/
def Effect.Covers (e : Effect) (reads writes : Set Int) : Prop :=
  (reads.Nonempty → e.reads = true) ∧ (writes.Nonempty → e.writes = true)

/-- Whether an effect tells of nothing that another does not. -/
def Effect.Within (e e' : Effect) : Prop :=
  (e.reads = true → e'.reads = true) ∧ (e.writes = true → e'.writes = true)

/-- Whether what an oracle says of locations and calls is true of a reading. -/
structure Oracle.Grounded (o : Oracle) (p : Procedure) (m : Reading) : Prop where
  overlap : ∀ a b, o.overlap p a b = .ok .disjoint → Disjoint (m.bytes a) (m.bytes b)
  constant : ∀ loc, o.constant p loc false = .ok true →
    ∀ inst, Disjoint (m.writes inst) (m.bytes loc)
  behavior : ∀ inst op b, p.op inst = .ok op → op.isCall = true → o.behavior p inst = .ok b →
    m.Keeps inst op.arguments b

/-- Whether all that an oracle says is true of a reading: what it says of an instruction covers what
the instruction does, what it says of an instruction at a location covers what is done there, and
what it says of an instruction and a call covers each byte on which the two depend on each other. -/
structure Oracle.Sound (o : Oracle) (p : Procedure) (m : Reading) : Prop extends
    o.Grounded p m where
  effect : ∀ inst e, o.effect p inst = .ok e → e.Covers (m.reads inst) (m.writes inst)
  effectAt : ∀ inst loc e, o.effectAt p inst loc = .ok e →
    e.Covers (m.reads inst ∩ m.bytes loc) (m.writes inst ∩ m.bytes loc)
  effectOnCall : ∀ inst call op e, p.op call = .ok op → op.isCall = true →
    o.effectOnCall p inst call = .ok e →
    e.Covers (m.reads inst ∩ m.writes call) (m.writes inst ∩ m.touches call)

/-- The locations that an operation may access, as far as they are known. -/
def Op.accessed (op : Op) : List Location :=
  (Location.ofOp? op).toList ++ if op.isCall then op.arguments.map .behind else []

/-- Whether `about` tells of all locations that the instructions of a procedure may access. -/
def Procedure.AccessesOnly (p : Procedure) (about : Location → Prop) : Prop :=
  ∀ inst op, p.op inst = .ok op → ∀ loc ∈ op.accessed, about loc

/-- Whether an oracle replies to questions on the calls of a procedure, and on locations told by
`about`. -/
structure Oracle.Replies (o : Oracle) (p : Procedure) (about : Location → Prop) : Prop where
  overlap : ∀ a b, about a → about b → ∃ r, o.overlap p a b = .ok r
  constant : ∀ loc orLocal, about loc → ∃ c, o.constant p loc orLocal = .ok c
  behavior : ∀ inst op, p.op inst = .ok op → op.isCall = true → ∃ b, o.behavior p inst = .ok b

/-- Whether an oracle replies to all questions on the instructions of a procedure as well. -/
structure Oracle.RepliesFully (o : Oracle) (p : Procedure) (about : Location → Prop) : Prop
    extends o.Replies p about where
  effect : ∀ inst op, p.op inst = .ok op → ∃ e, o.effect p inst = .ok e
  effectAt : ∀ inst op loc, p.op inst = .ok op → about loc → ∃ e, o.effectAt p inst loc = .ok e
  effectOnCall : ∀ inst op call op', p.op inst = .ok op → p.op call = .ok op' → op'.isCall = true →
    ∃ e, o.effectOnCall p inst call = .ok e

/-- Whether an oracle leaves the effects of instructions to the usual answers. -/
structure Oracle.IsUsual (o : Oracle) : Prop where
  effect : o.effect = usualEffect o.behavior
  effectAt : o.effectAt = usualEffectAt o.overlap o.constant o.behavior
  effectOnCall : o.effectOnCall = usualEffectOnCall o.behavior o.effectAt

namespace Effect

variable {e e' : Effect} {r r' w w' : Set Int}

theorem covers_empty (e : Effect) : e.Covers ∅ ∅ :=
  ⟨fun held => absurd held Set.not_nonempty_empty, fun held => absurd held Set.not_nonempty_empty⟩

theorem covers_readWrite (r w : Set Int) : readWrite.Covers r w :=
  ⟨fun _ => rfl, fun _ => rfl⟩

theorem covers_read (r : Set Int) : read.Covers r ∅ :=
  ⟨fun _ => rfl, fun held => absurd held Set.not_nonempty_empty⟩

theorem covers_write (w : Set Int) : write.Covers ∅ w :=
  ⟨fun held => absurd held Set.not_nonempty_empty, fun _ => rfl⟩

theorem Covers.mono (covers : e.Covers r w) (fewer : r' ⊆ r) (fewer' : w' ⊆ w) : e.Covers r' w' :=
  ⟨fun held => covers.1 (held.mono fewer), fun held => covers.2 (held.mono fewer')⟩

theorem Within.refl (e : Effect) : e.Within e :=
  ⟨id, id⟩

theorem Within.trans {e'' : Effect} (first : e.Within e') (second : e'.Within e'') : e.Within e'' :=
  ⟨second.1 ∘ first.1, second.2 ∘ first.2⟩

theorem within_join_left (e e' : Effect) : e.Within (e.join e') :=
  ⟨fun held => by simp [join, held], fun held => by simp [join, held]⟩

theorem within_join_right (e e' : Effect) : e'.Within (e.join e') :=
  ⟨fun held => by simp [join, held], fun held => by simp [join, held]⟩

/-- What is gathered from answers holds each of those that are picked. -/
theorem within_of_foldlM {α : Type} {ask : α → Except Fault Effect} {picks : Effect → Bool}
    (take : Effect → Effect) {l : List α} {start total : Effect}
    (ran : l.foldlM (fun total x => do
      let e ← ask x
      return if picks e then total.join (take e) else total) start = .ok total) :
    start.Within total ∧ ∀ x ∈ l, ∃ e, ask x = .ok e ∧
    (picks e = true → (take e).Within total) := by
  induction l generalizing start with
  | nil =>
      cases ran
      exact ⟨.refl _, by simp⟩
  | cons x l ih =>
      rw [List.foldlM_cons] at ran
      obtain ⟨mid, stepped, ran⟩ := bind_eq_ok.mp ran
      obtain ⟨e, told, same⟩ := bind_eq_ok.mp stepped
      obtain ⟨after, rest⟩ := ih ran
      cases same
      cases picked : picks e with
      | false =>
          rw [picked] at after
          exact ⟨after, List.forall_mem_cons.mpr ⟨⟨e, told, by simp [picked]⟩, rest⟩⟩
      | true =>
          rw [picked] at after
          exact ⟨(within_join_left _ _).trans after, List.forall_mem_cons.mpr
            ⟨⟨e, told, fun _ => (within_join_right _ _).trans after⟩, rest⟩⟩

theorem Covers.meet (covers : e.Covers r w) (covers' : e'.Covers r w) : (e.meet e').Covers r w :=
  ⟨fun held => by simp [Effect.meet, covers.1 held, covers'.1 held],
    fun held => by simp [Effect.meet, covers.2 held, covers'.2 held]⟩

end Effect

namespace Reading

variable {m : Reading} {inst : Inst} {args : List Value} {b : Behavior}

theorem reads_subset : m.reads inst ⊆ m.touches inst :=
  Set.subset_union_left

theorem writes_subset : m.writes inst ⊆ m.touches inst :=
  Set.subset_union_right

theorem eq_empty (still : m.touches inst = ∅) : m.reads inst = ∅ ∧ m.writes inst = ∅ :=
  Set.union_empty_iff.mp still

theorem Performs.inside {op : Op} {loc : Location} (performs : m.Performs inst op)
    (here : Location.ofOp? op = some loc) : m.touches inst ⊆ m.bytes loc := by
  cases op with
  | load | store =>
      cases here
      exact performs.1
  | _ => cases here

theorem Performs.still {op : Op} (performs : m.Performs inst op)
    (elsewhere : Location.ofOp? op = none) (notFence : ¬op.isFence = true)
    (notCall : ¬op.isCall = true) : m.touches inst = ∅ := by
  cases op with
  | load | store => cases elsewhere
  | fence => exact absurd rfl notFence
  | call | intrinsic => exact absurd rfl notCall
  | _ => exact performs

theorem covers_outside {loc : Location} {s : Set Int} (inside : m.touches inst ⊆ s)
    (apart : Disjoint s (m.bytes loc)) (e : Effect) :
    e.Covers (m.reads inst ∩ m.bytes loc) (m.writes inst ∩ m.bytes loc) := by
  have read : m.reads inst ∩ m.bytes loc = ∅ :=
    Set.disjoint_iff_inter_eq_empty.mp (apart.mono_left (reads_subset.trans inside))
  have written : m.writes inst ∩ m.bytes loc = ∅ :=
    Set.disjoint_iff_inter_eq_empty.mp (apart.mono_left (writes_subset.trans inside))
  rw [read, written]
  exact e.covers_empty

theorem disjoint_behind {loc : Location}
    (apart : ∀ arg ∈ args, Disjoint (m.bytes (.behind arg)) (m.bytes loc)) :
    Disjoint (m.behind args) (m.bytes loc) := by
  refine Set.disjoint_left.mpr ?_
  rintro byte ⟨arg, member, inside⟩
  exact Set.disjoint_left.mp (apart arg member) inside

theorem Keeps.effect_covers (keeps : m.Keeps inst args b) :
    b.effect.Covers (m.reads inst) (m.writes inst) := by
  cases b with
  | noAccess =>
      obtain ⟨noRead, noWrite⟩ := eq_empty (keeps.noAccess rfl)
      rw [noRead, noWrite]
      exact Effect.covers_empty _
  | readsArguments | reads =>
      rw [keeps.onlyReads rfl]
      exact Effect.covers_read _
  | accessesArguments | unknown => exact Effect.covers_readWrite _ _

end Reading

end MemoryFlow
