import MemoryFlow.Proofs.Alias.Reading

/-! # The usual answers

If what an oracle says of locations and calls is true of a reading, so are the usual answers that
follow from it (`usual_answers_sound`): whatever is read or written is told.
-/

namespace MemoryFlow

theorem anyM_eq_ok {ε α : Type} {f : α → Except ε Bool} {l : List α} {t : Bool}
    (ran : l.anyM f = .ok t) : t = l.any fun x => (f x).toOption != some false := by
  induction l with
  | nil => exact (Except.ok.inj ran).symm
  | cons x l ih =>
      obtain ⟨first, told, ran⟩ := bind_eq_ok.mp ran
      rw [List.any_cons, told]
      cases first with
      | true => exact (Except.ok.inj ran).symm
      | false => simpa [Except.toOption] using ih ran

theorem anyM_total {ε α : Type} {f : α → Except ε Bool} {l : List α}
    (each : ∀ x ∈ l, ∃ t, f x = .ok t) : ∃ t, l.anyM f = .ok t := by
  induction l with
  | nil => exact ⟨false, rfl⟩
  | cons x l ih =>
      obtain ⟨⟨first, told⟩, rest⟩ := List.forall_mem_cons.mp each
      rw [List.anyM, told, ok_bind]
      cases first with
      | true => exact ⟨true, rfl⟩
      | false => exact ih rest

namespace Oracle

def mayTouch (o : Oracle) (p : Procedure) (a b : Location) : Bool :=
  (o.overlap p a b).toOption != some .disjoint

def isConstant (o : Oracle) (p : Procedure) (loc : Location) : Bool :=
  (o.constant p loc false).toOption == some true

end Oracle

/-- The usual effect of an operation on a location, by the locations that may share a byte with it,
whether it is never written, and how a call behaves. -/
def Op.effectAt (touches : Location → Bool) (constant : Bool) (b : Behavior) : Op → Effect
  | .load ptr size quals =>
      if !quals.isUnordered then .readWrite else if touches ⟨ptr, some size⟩ then .read else .none
  | .store ptr _ size quals =>
      if !quals.isUnordered then .readWrite
      else if touches ⟨ptr, some size⟩ && !constant then .write else .none
  | .fence _ => .readWrite
  | .intrinsic .assume _ => .none
  | .intrinsic _ args => if args.head?.any (touches <| .behind ·) then .write else .none
  | .call _ args =>
      if b.onlyArguments && !args.any (touches <| .behind ·) then .none
      else if constant then b.effect.meet .read else b.effect
  | _ => .none

section

variable {o : Oracle} {p : Procedure} {m : Reading} {about : Location → Prop}
  {inst call : Inst} {op : Op} {loc other : Location} {e : Effect}

theorem Oracle.overlap_of_mayTouch {a b : Location} (apart : o.mayTouch p a b = false) :
    o.overlap p a b = .ok .disjoint := by
  rw [mayTouch] at apart
  cases told : o.overlap p a b with
  | error => simp [told, Except.toOption] at apart
  | ok r => simpa [told, Except.toOption] using apart

theorem Oracle.constant_of_isConstant (fixed : o.isConstant p loc = true) :
    o.constant p loc false = .ok true := by
  rw [isConstant] at fixed
  cases told : o.constant p loc false with
  | error => simp [told, Except.toOption] at fixed
  | ok r => simpa [told, Except.toOption] using fixed

theorem Oracle.mayTouch_eq {t : Bool}
    (told : (do return (← o.overlap p other loc) != .disjoint : Except Fault Bool) = .ok t) :
    o.mayTouch p other loc = t := by
  obtain ⟨r, told, same⟩ := bind_eq_ok.mp told
  rw [mayTouch, told, ← Except.ok.inj same]
  cases r <;> rfl

theorem Oracle.isConstant_eq {c : Bool} (told : o.constant p loc false = .ok c) :
    o.isConstant p loc = c := by
  rw [isConstant, told]
  cases c <;> rfl

theorem Oracle.anyM_mayTouch {args : List Value} {t : Bool}
    (told : (args.anyM fun arg => do return (← o.overlap p (.behind arg) loc) != .disjoint :
      Except Fault Bool) = .ok t) : t = args.any fun arg => o.mayTouch p (.behind arg) loc := by
  rw [anyM_eq_ok told]
  congr 1
  funext arg
  rw [mayTouch]
  cases o.overlap p (.behind arg) loc with
  | error => rfl
  | ok r => cases r <;> rfl

theorem usualEffectAt_eq_ok (known : p.op inst = .ok op)
    (told : usualEffectAt o.overlap o.constant o.behavior p inst loc = .ok e) :
    ∃ b, (∀ callee args, op = .call callee args → o.behavior p inst = .ok b) ∧
      e = op.effectAt (o.mayTouch p · loc) (o.isConstant p loc) b := by
  rw [usualEffectAt, known, ok_bind] at told
  cases op with
  | load ptr size quals =>
      refine ⟨.unknown, nofun, ?_⟩
      rw [Op.effectAt]
      cases loose : quals.isUnordered <;> simp only [loose] at told
      · exact (Except.ok.inj told).symm
      · obtain ⟨t, touch, told⟩ := bind_eq_ok.mp told
        rw [Oracle.mayTouch_eq touch]
        cases t <;> exact (Except.ok.inj told).symm
  | store ptr value size quals =>
      refine ⟨.unknown, nofun, ?_⟩
      rw [Op.effectAt]
      cases loose : quals.isUnordered <;> simp only [loose] at told
      · exact (Except.ok.inj told).symm
      · obtain ⟨t, touch, told⟩ := bind_eq_ok.mp told
        rw [Oracle.mayTouch_eq touch]
        cases t with
        | false => exact (Except.ok.inj told).symm
        | true =>
            obtain ⟨c, fixed, told⟩ := bind_eq_ok.mp told
            rw [Oracle.isConstant_eq fixed]
            cases c <;> exact (Except.ok.inj told).symm
  | intrinsic id args =>
      refine ⟨.unknown, nofun, ?_⟩
      cases id with
      | assume => exact (Except.ok.inj told).symm
      | _ =>
          cases args with
          | nil => exact (Except.ok.inj told).symm
          | cons ptr rest =>
              obtain ⟨t, touch, told⟩ := bind_eq_ok.mp told
              have same : o.mayTouch p (.behind ptr) loc = t := Oracle.mayTouch_eq touch
              rw [Op.effectAt, List.head?_cons, Option.any_some, same]
              · cases t <;> exact (Except.ok.inj told).symm
              · nofun
  | call callee args =>
      obtain ⟨b, behaves, told⟩ := bind_eq_ok.mp told
      refine ⟨b, fun _ _ _ => behaves, ?_⟩
      have limited : (do
            if ← o.constant p loc false then return b.effect.meet .read else return b.effect :
          Except Fault Effect) = .ok e →
          e = if o.isConstant p loc then b.effect.meet .read else b.effect := by
        intro told
        obtain ⟨c, fixed, told⟩ := bind_eq_ok.mp told
        rw [Oracle.isConstant_eq fixed]
        cases c <;> exact (Except.ok.inj told).symm
      rw [Op.effectAt]
      cases b with
      | noAccess =>
          cases o.isConstant p loc <;> exact (Except.ok.inj told).symm
      | readsArguments | accessesArguments =>
          simp only [reduceCtorEq, if_false, Behavior.onlyArguments, if_true] at told
          obtain ⟨reaches, how, told⟩ := bind_eq_ok.mp told
          rw [← Oracle.anyM_mayTouch how]
          cases reaches with
          | false => exact (Except.ok.inj told).symm
          | true => exact limited told
      | reads | unknown => exact limited told
  | _ => exact ⟨.unknown, nofun, (Except.ok.inj told).symm⟩

/-- What an operation does at a location is told, if it is known what shares no byte with the
location. -/
theorem Op.effectAt_covers {touches : Location → Bool} {constant : Bool} {b : Behavior}
    (performs : m.Performs inst op)
    (keeps : ∀ callee args, op = .call callee args → m.Keeps inst args b)
    (apart : ∀ x, touches x = false → Disjoint (m.bytes x) (m.bytes loc))
    (fixed : constant = true → Disjoint (m.writes inst) (m.bytes loc)) :
    (op.effectAt touches constant b).Covers (m.reads inst ∩ m.bytes loc)
    (m.writes inst ∩ m.bytes loc) := by
  have still : m.touches inst = ∅ →
      Effect.none.Covers (m.reads inst ∩ m.bytes loc) (m.writes inst ∩ m.bytes loc) := fun still =>
    Reading.covers_outside still.subset (Set.empty_disjoint _) _
  cases op with
  | load ptr size quals =>
      obtain ⟨inside, plain⟩ := performs
      rw [effectAt]
      split_ifs with ordered near
      · exact Effect.covers_readWrite _ _
      · rw [plain (by simpa using ordered), Set.empty_inter]
        exact Effect.covers_read _
      · exact Reading.covers_outside inside (apart _ (by simpa using near)) _
  | store ptr value size quals =>
      obtain ⟨inside, plain⟩ := performs
      rw [effectAt]
      split_ifs with ordered near
      · exact Effect.covers_readWrite _ _
      · rw [plain (by simpa using ordered), Set.empty_inter]
        exact Effect.covers_write _
      · rw [Bool.not_eq_true, Bool.and_eq_false_iff, Bool.not_eq_false'] at near
        rcases near with far | never
        · exact Reading.covers_outside inside (apart _ far) _
        · rw [plain (by simpa using ordered), Set.disjoint_iff_inter_eq_empty.mp (fixed never),
            Set.empty_inter]
          exact Effect.covers_empty _
  | fence => exact Effect.covers_readWrite _ _
  | intrinsic id args =>
      cases id with
      | assume => exact still performs
      | _ =>
          obtain ⟨noRead, inside⟩ := performs
          rw [effectAt]
          · split_ifs with near
            · rw [noRead, Set.empty_inter]
              exact Effect.covers_write _
            · refine Reading.covers_outside (s := m.behind args.head?.toList) ?_ ?_ _
              · rw [Reading.touches, noRead, Set.empty_union]
                exact inside
              · refine Reading.disjoint_behind fun arg first => apart _ ?_
                rw [Option.mem_toList.mp first] at near
                simpa using near
          · nofun
  | call callee args =>
      have keeps := keeps callee args rfl
      have covers := keeps.effect_covers.mono (Set.inter_subset_left (t := m.bytes loc))
        (Set.inter_subset_left (t := m.bytes loc))
      rw [effectAt]
      split_ifs with far never
      · rw [Bool.and_eq_true, Bool.not_eq_true', List.any_eq_false] at far
        refine Reading.covers_outside (keeps.onlyArguments far.1) (Reading.disjoint_behind ?_) _
        exact fun arg member => apart _ (by simpa using far.2 arg member)
      · rw [Set.disjoint_iff_inter_eq_empty.mp (fixed never)] at covers ⊢
        exact covers.meet (Effect.covers_read _)
      · exact covers
  | _ => exact still performs

theorem keeps_declaredBehavior {b : Behavior} (follows : m.Follows p) (declared : m.KeepsDeclared p)
    (known : p.op inst = .ok op) (isCall : op.isCall = true)
    (told : declaredBehavior p inst = .ok b) : m.Keeps inst op.arguments b := by
  rw [declaredBehavior, known, ok_bind] at told
  cases op with
  | call callee args =>
      obtain ⟨info, found, told⟩ := bind_eq_ok.mp told
      obtain rfl := Except.ok.inj told
      exact declared inst callee args info known found
  | intrinsic id args =>
      obtain rfl := Except.ok.inj told
      have performs := follows inst _ known
      refine ⟨nofun, nofun, fun _ byte touched => ?_⟩
      cases id with
      | assume =>
          rw [show m.touches inst = ∅ from performs] at touched
          cases touched
      | _ =>
          obtain ⟨noRead, inside⟩ := performs
          rw [Reading.touches, noRead, Set.empty_union] at touched
          obtain ⟨arg, first, here⟩ := inside touched
          exact ⟨arg, List.mem_of_head? (Option.mem_toList.mp first), here⟩
  | _ => cases isCall

theorem usualEffect_covers (follows : m.Follows p) (grounded : o.Grounded p m)
    (told : usualEffect o.behavior p inst = .ok e) : e.Covers (m.reads inst) (m.writes inst) := by
  obtain ⟨op, known, told⟩ := bind_eq_ok.mp told
  have performs := follows inst op known
  have still : m.touches inst = ∅ → e.Covers (m.reads inst) (m.writes inst) := by
    intro still
    rw [(Reading.eq_empty still).1, (Reading.eq_empty still).2]
    exact e.covers_empty
  cases op with
  | load ptr size quals =>
      obtain rfl := Except.ok.inj told
      split_ifs with loose
      · rw [performs.2 loose]
        exact Effect.covers_read _
      · exact Effect.covers_readWrite _ _
  | store ptr value size quals =>
      obtain rfl := Except.ok.inj told
      split_ifs with loose
      · rw [performs.2 loose]
        exact Effect.covers_write _
      · exact Effect.covers_readWrite _ _
  | fence =>
      obtain rfl := Except.ok.inj told
      exact Effect.covers_readWrite _ _
  | intrinsic id args =>
      cases id with
      | assume => exact still performs
      | _ =>
          obtain rfl := Except.ok.inj told
          rw [performs.1]
          exact Effect.covers_write _
  | call callee args =>
      obtain ⟨b, behaves, told⟩ := bind_eq_ok.mp told
      obtain rfl := Except.ok.inj told
      exact (grounded.behavior inst _ b known rfl behaves).effect_covers
  | _ => exact still performs

theorem usualEffectAt_covers (follows : m.Follows p) (grounded : o.Grounded p m)
    (told : usualEffectAt o.overlap o.constant o.behavior p inst loc = .ok e) :
    e.Covers (m.reads inst ∩ m.bytes loc) (m.writes inst ∩ m.bytes loc) := by
  obtain ⟨op, known, _⟩ := bind_eq_ok.mp told
  obtain ⟨b, behaves, rfl⟩ := usualEffectAt_eq_ok known told
  refine Op.effectAt_covers (follows inst op known) ?_ (fun x far => ?_) fun fixed => ?_
  · rintro callee args rfl
    exact grounded.behavior inst _ b known rfl (behaves callee args rfl)
  · exact grounded.overlap x loc (Oracle.overlap_of_mayTouch far)
  · exact grounded.constant loc (Oracle.constant_of_isConstant fixed) inst

/-- Two calls depend on each other where one writes what the other touches, and that is told. -/
theorem usualEffectBetweenCalls_covers {effectAt : EffectAtQuery} {args : List Value}
    {b b' : Behavior} (known : p.op call = .ok op) (keeps : m.Keeps inst args b)
    (keeps' : m.Keeps call op.arguments b') (sound : ∀ inst loc e, effectAt p inst loc = .ok e →
      e.Covers (m.reads inst ∩ m.bytes loc) (m.writes inst ∩ m.bytes loc))
    (told : usualEffectBetweenCalls effectAt p inst call args b b' = .ok e) :
    e.Covers (m.reads inst ∩ m.writes call) (m.writes inst ∩ m.touches call) := by
  have covers := keeps.effect_covers.mono (Set.inter_subset_left (t := m.writes call))
    (Set.inter_subset_left (t := m.touches call))
  rw [usualEffectBetweenCalls] at told
  split_ifs at told with none reads argsOfCall argsOfInst
  · rcases none with rfl | rfl
    · obtain ⟨noRead, noWrite⟩ := Reading.eq_empty (keeps.noAccess rfl)
      rw [noRead, noWrite, Set.empty_inter, Set.empty_inter]
      exact e.covers_empty
    · have still := keeps'.noAccess rfl
      rw [still, (Reading.eq_empty still).2, Set.inter_empty, Set.inter_empty]
      exact e.covers_empty
  · rw [Bool.and_eq_true] at reads
    rw [keeps.onlyReads reads.1, keeps'.onlyReads reads.2, Set.empty_inter, Set.inter_empty]
    exact e.covers_empty
  · rw [known, ok_bind] at told
    obtain ⟨total, ran, told⟩ := bind_eq_ok.mp told
    obtain rfl := Except.ok.inj told
    -- Every byte touched by the call lies behind one of its arguments, where `inst` was asked
    -- about.
    have each := (Effect.within_of_foldlM id ran).2
    refine covers.meet ⟨fun ⟨byte, read, written⟩ => ?_, fun ⟨byte, written, touched⟩ => ?_⟩
    · obtain ⟨arg, member, inside⟩ :=
        keeps'.onlyArguments argsOfCall (Reading.writes_subset written)
      obtain ⟨e, told, within⟩ := each arg member
      have reads := (sound inst _ e told).1 ⟨byte, read, inside⟩
      have writes := keeps'.effect_covers.2 ⟨byte, written⟩
      exact (within (by simp [Effect.touches, reads, writes])).1 reads
    · obtain ⟨arg, member, inside⟩ := keeps'.onlyArguments argsOfCall touched
      obtain ⟨e, told, within⟩ := each arg member
      have writes := (sound inst _ e told).2 ⟨byte, written, inside⟩
      have reads : b'.effect.reads = true := by cases b' <;> first | rfl | cases argsOfCall
      exact (within (by simp [reads, writes])).2 writes
  · obtain ⟨total, ran, told⟩ := bind_eq_ok.mp told
    obtain rfl := Except.ok.inj told
    have each := (Effect.within_of_foldlM (fun _ => b.effect) ran).2
    have behind : ∀ byte, byte ∈ m.touches inst → byte ∈ m.touches call →
        b.effect.Within total := by
      intro byte touched touched'
      obtain ⟨arg, member, inside⟩ := keeps.onlyArguments argsOfInst touched
      obtain ⟨e, told, within⟩ := each arg member
      obtain ⟨reads, writes⟩ := sound call _ e told
      refine within (Bool.or_eq_true_iff.mpr (touched'.imp (fun read => ?_) fun written => ?_))
      · exact reads ⟨byte, read, inside⟩
      · exact writes ⟨byte, written, inside⟩
    refine covers.meet ⟨fun ⟨byte, read, written⟩ => ?_, fun ⟨byte, written, touched⟩ => ?_⟩
    · exact (behind byte (Reading.reads_subset read) (Reading.writes_subset written)).1
        (keeps.effect_covers.1 ⟨byte, read⟩)
    · exact (behind byte (Reading.writes_subset written) touched).2
        (keeps.effect_covers.2 ⟨byte, written⟩)
  · obtain rfl := Except.ok.inj told
    exact covers

theorem usualEffectOnCall_covers (follows : m.Follows p) (grounded : o.Grounded p m)
    (sound : ∀ inst loc e, o.effectAt p inst loc = .ok e →
      e.Covers (m.reads inst ∩ m.bytes loc) (m.writes inst ∩ m.bytes loc))
    (known : p.op call = .ok op) (isCall : op.isCall = true)
    (told : usualEffectOnCall o.behavior o.effectAt p inst call = .ok e) :
    e.Covers (m.reads inst ∩ m.writes call) (m.writes inst ∩ m.touches call) := by
  obtain ⟨op', known', told⟩ := bind_eq_ok.mp told
  have performs := follows inst op' known'
  split_ifs at told with isFence isCall'
  · obtain rfl := Except.ok.inj told
    exact Effect.covers_readWrite _ _
  · obtain ⟨b, behaves, told⟩ := bind_eq_ok.mp told
    obtain ⟨b', behaves', told⟩ := bind_eq_ok.mp told
    exact usualEffectBetweenCalls_covers known (grounded.behavior inst op' b known' isCall' behaves)
      (grounded.behavior call op b' known isCall behaves') sound told
  · split at told
    · rename_i elsewhere
      obtain ⟨noRead, noWrite⟩ := Reading.eq_empty (performs.still elsewhere isFence isCall')
      rw [noRead, noWrite, Set.empty_inter, Set.empty_inter]
      exact e.covers_empty
    · rename_i loc here
      obtain ⟨e', told', told⟩ := bind_eq_ok.mp told
      obtain rfl := Except.ok.inj told
      have inside := performs.inside here
      split_ifs with touched
      · exact Effect.covers_readWrite _ _
      · -- The call was found not to touch the location, so it touches nothing that `inst` does.
        have apart : Disjoint (m.touches inst) (m.touches call) := by
          refine Set.disjoint_left.mpr fun byte mine its => touched ?_
          obtain ⟨reads, writes⟩ := sound call loc e' told'
          refine Bool.or_eq_true_iff.mpr (its.imp (fun read => ?_) fun written => ?_)
          · exact reads ⟨byte, read, inside mine⟩
          · exact writes ⟨byte, written, inside mine⟩
        rw [Set.disjoint_iff_inter_eq_empty.mp
          (apart.mono Reading.reads_subset Reading.writes_subset),
          Set.disjoint_iff_inter_eq_empty.mp (apart.mono_left Reading.writes_subset)]
        exact Effect.covers_empty _

theorem usualEffect_total (replies : o.Replies p about) (known : p.op inst = .ok op) :
    ∃ e, usualEffect o.behavior p inst = .ok e := by
  rw [usualEffect, known, ok_bind]
  cases op with
  | call =>
      obtain ⟨b, behaves⟩ := replies.behavior inst _ known rfl
      exact ⟨b.effect, by dsimp only; rw [behaves]; rfl⟩
  | intrinsic id => cases id <;> exact ⟨_, rfl⟩
  | _ => exact ⟨_, rfl⟩

theorem usualEffectAt_total (replies : o.Replies p about) (accesses : p.AccessesOnly about)
    (known : p.op inst = .ok op) (here : about loc) :
    ∃ e, usualEffectAt o.overlap o.constant o.behavior p inst loc = .ok e := by
  have touch : ∀ x ∈ op.accessed,
      ∃ t, (do return (← o.overlap p x loc) != .disjoint : Except Fault Bool) = .ok t := by
    intro x member
    obtain ⟨r, told⟩ := replies.overlap x loc (accesses inst op known x member) here
    rw [told]
    exact ⟨_, rfl⟩
  obtain ⟨c, fixed⟩ := replies.constant loc false here
  rw [usualEffectAt, known, ok_bind]
  cases op with
  | load ptr size quals =>
      obtain ⟨t, touch⟩ := touch ⟨ptr, some size⟩ (by simp [Op.accessed, Location.ofOp?])
      dsimp only
      rw [touch, ok_bind]
      split_ifs <;> exact ⟨_, rfl⟩
  | store ptr value size quals =>
      obtain ⟨t, touch⟩ := touch ⟨ptr, some size⟩ (by simp [Op.accessed, Location.ofOp?])
      dsimp only
      rw [touch, fixed, ok_bind, ok_bind]
      split_ifs <;> exact ⟨_, rfl⟩
  | intrinsic id args =>
      cases id with
      | assume => exact ⟨_, rfl⟩
      | _ =>
          cases args with
          | nil => exact ⟨_, rfl⟩
          | cons ptr rest =>
              obtain ⟨t, touch⟩ :=
                touch (.behind ptr) (by simp [Op.accessed, Op.isCall, Op.arguments])
              dsimp only
              rw [touch]
              exact ⟨_, rfl⟩
  | call callee args =>
      obtain ⟨b, behaves⟩ := replies.behavior inst _ known rfl
      obtain ⟨t, any⟩ := anyM_total (l := args) fun arg member => touch (.behind arg) (by
        simpa [Op.accessed, Location.ofOp?, Op.isCall, Op.arguments] using ⟨arg, member, rfl⟩)
      dsimp only
      rw [behaves, fixed, any]
      simp only [ok_bind]
      split_ifs <;> exact ⟨_, rfl⟩
  | _ => exact ⟨_, rfl⟩

theorem usualEffectOnCall_total (replies : o.Replies p about) (accesses : p.AccessesOnly about)
    (answers : ∀ inst op loc, p.op inst = .ok op → about loc → ∃ e, o.effectAt p inst loc = .ok e)
    {op' : Op} (known : p.op inst = .ok op) (known' : p.op call = .ok op')
    (isCall : op'.isCall = true) :
    ∃ e, usualEffectOnCall o.behavior o.effectAt p inst call = .ok e := by
  have behind : ∀ {i op}, p.op i = .ok op → op.isCall = true →
      ∀ arg ∈ op.arguments, about (.behind arg) := by
    intro i op known isCall arg member
    refine accesses i op known _ (List.mem_append_right _ ?_)
    rw [if_pos isCall]
    exact List.mem_map_of_mem member
  rw [usualEffectOnCall, known, ok_bind]
  split_ifs with isFence isCall'
  · exact ⟨_, rfl⟩
  · obtain ⟨b, behaves⟩ := replies.behavior inst op known isCall'
    obtain ⟨b', behaves'⟩ := replies.behavior call op' known' isCall
    rw [behaves, behaves', ok_bind, ok_bind, usualEffectBetweenCalls, known', ok_bind]
    obtain ⟨first, ran, _⟩ := foldlM_total op'.arguments (fun total arg => do
      let e ← o.effectAt p inst (.behind arg)
      let clashes := (b'.effect.writes && e.touches) || (b'.effect.reads && e.writes)
      return if clashes then total.join e else total) Effect.none (fun _ _ => True) trivial (by
        intro seen arg rest total whole _
        obtain ⟨e, told⟩ :=
          answers inst op (.behind arg) known (behind known' isCall arg (by simp [whole]))
        rw [told]
        exact ⟨_, rfl, trivial⟩)
    obtain ⟨second, ran', _⟩ := foldlM_total op.arguments (fun total arg => do
      return if (← o.effectAt p call (.behind arg)).touches then total.join b.effect else total)
      Effect.none (fun _ _ => True) trivial (by
        intro seen arg rest total whole _
        obtain ⟨e, told⟩ :=
          answers call op' (.behind arg) known' (behind known isCall' arg (by simp [whole]))
        rw [told]
        exact ⟨_, rfl, trivial⟩)
    rw [ran, ran']
    split_ifs <;> exact ⟨_, rfl⟩
  · split
    · exact ⟨_, rfl⟩
    · rename_i loc here
      have own : about loc :=
        accesses inst op known loc (List.mem_append_left _ (Option.mem_toList.mpr here))
      obtain ⟨e, told⟩ := answers call op' loc known' own
      rw [told]
      exact ⟨_, rfl⟩

end

namespace Placement

variable {p : Procedure} {r : Reading}

/-- What the oracle that reasons by objects says is true of every reading in which values are
accessed as they are placed, constant globals are not written and calls behave as declared. -/
theorem byObject_grounded (m : Placement p) (address : r.address = m.address)
    (allowed : ∀ ptr, ∀ byte ∈ r.reach ptr, m.Allows ptr byte)
    (fixed : ∀ global info, p.global global = .ok info → info.isConstant = true →
      ∀ inst, Disjoint (r.writes inst) (m.bytes (.global global)))
    (follows : r.Follows p) (declared : r.KeepsDeclared p) : Oracle.byObject.Grounded p r := by
  have accesses : ∀ loc, m.Accesses loc (r.bytes loc) := fun loc byte inside =>
    ⟨address ▸ inside.1, allowed loc.ptr byte inside.2⟩
  refine ⟨fun a b told => m.byObject_bears (accesses a) (accesses b) told, fun loc told inst => ?_,
    fun inst op b known isCall told => keeps_declaredBehavior follows declared known isCall told⟩
  obtain ⟨d, traced, told⟩ := bind_eq_ok.mp told
  obtain ⟨object, kind, told⟩ := bind_eq_ok.mp told
  cases object with
  | global global =>
      obtain ⟨info, found, told⟩ := bind_eq_ok.mp told
      obtain ⟨_, sum, derives, _⟩ := Procedure.derivation_sound traced
      refine (fixed global info found (Except.ok.inj told) inst).mono_right fun byte inside => ?_
      exact (accesses loc byte inside).2.inside _ _ _ derives (Procedure.objectOf_isKind kind)
  | _ => cases told

end Placement

namespace Oracle

variable {o : Oracle} {p : Procedure} {m : Reading} {about : Location → Prop}

theorem IsUsual.sound (usual : o.IsUsual) (follows : m.Follows p) (grounded : o.Grounded p m) :
    o.Sound p m := by
  have effectAt : ∀ inst loc e, o.effectAt p inst loc = .ok e →
      e.Covers (m.reads inst ∩ m.bytes loc) (m.writes inst ∩ m.bytes loc) := by
    intro inst loc e told
    rw [usual.effectAt] at told
    exact usualEffectAt_covers follows grounded told
  refine ⟨grounded, fun inst e told => ?_, effectAt, fun inst call op e known isCall told => ?_⟩
  · rw [usual.effect] at told
    exact usualEffect_covers follows grounded told
  · rw [usual.effectOnCall] at told
    exact usualEffectOnCall_covers follows grounded effectAt known isCall told

theorem IsUsual.repliesFully (usual : o.IsUsual) (accesses : p.AccessesOnly about)
    (replies : o.Replies p about) : o.RepliesFully p about := by
  have answers : ∀ inst op loc, p.op inst = .ok op → about loc →
      ∃ e, o.effectAt p inst loc = .ok e := by
    intro inst op loc known here
    rw [usual.effectAt]
    exact usualEffectAt_total replies accesses known here
  refine ⟨replies, fun inst op known => ?_, answers, fun inst op call op' known known' isCall => ?_⟩
  · rw [usual.effect]
    exact usualEffect_total replies known
  · rw [usual.effectOnCall]
    exact usualEffectOnCall_total replies accesses answers known known' isCall

/-- If what an oracle says of locations and calls is true of a reading, so are the usual answers on
what instructions do to memory, to a location and to what a call accesses, and they are given
wherever the oracle replies. -/
theorem usual_answers_sound (usual : o.IsUsual) (follows : m.Follows p)
    (grounded : o.Grounded p m) :
    o.Sound p m ∧ ∀ about, p.AccessesOnly about → o.Replies p about → o.RepliesFully p about :=
  ⟨usual.sound follows grounded, fun _ accesses replies => usual.repliesFully accesses replies⟩

end Oracle

/-- The pointers are stored to and loaded from, one call fills the first slot, and the other looks
around. -/
def pointersRun : Reading where
  address := pointersPlaced.address
  reach ptr := {byte | pointersPlaced.Allows ptr byte}
  reads
    | ⟨6⟩ => Set.Ico 100 108
    | ⟨7⟩ => Set.Ico 0 16
    | ⟨8⟩ => Set.Ico 0 200
    | _ => ∅
  writes
    | ⟨5⟩ => Set.Ico 8 16
    | ⟨7⟩ => Set.Ico 0 16
    | _ => ∅

theorem pointersRun_bytes {ptr base : Value} (size : Option Nat) {sum low high : Int}
    {region : Region} (derives : pointers.Derives ptr base sum)
    (addresses : pointers.Addresses base region)
    (inside : Set.Ico low high ⊆ Location.span pointersPlaced.address ⟨ptr, size⟩)
    (inside' : Set.Ico low high ⊆ pointersPlaced.bytes region) :
    Set.Ico low high ⊆ pointersRun.bytes ⟨ptr, size⟩ :=
  fun _ member => ⟨inside member, Placement.allows_of_region derives addresses (inside' member)⟩

theorem pointersRun_behind_slot : Set.Ico 0 16 ⊆ pointersRun.bytes (.behind ⟨1⟩) :=
  pointersRun_bytes none (.here _) pointers_slot (fun _ member => ⟨member.1, nofun⟩) subset_rfl

theorem pointersRun_follows : pointersRun.Follows pointers := by
  intro inst op known
  match inst with
  | ⟨0⟩ | ⟨1⟩ | ⟨2⟩ | ⟨3⟩ | ⟨4⟩ | ⟨9⟩ =>
      cases known
      exact Set.union_empty _
  | ⟨5⟩ =>
      cases known
      refine ⟨(Set.empty_union _).subset.trans
        (pointersRun_bytes _ (.offset ⟨⟨2⟩, rfl, rfl⟩ (.here _))
        pointers_slot (fun byte member => ⟨member.1, ?_⟩) ?_), fun _ => rfl⟩
      · rintro size ⟨⟩
        exact member.2
      · exact Set.Ico_subset_Ico_left (by decide)
  | ⟨6⟩ =>
      cases known
      refine ⟨(Set.union_empty _).subset.trans (pointersRun_bytes _ (.here _)
        (@Procedure.Addresses.global _ _ ⟨3⟩ ⟨0⟩ rfl rfl) (fun byte member => ⟨member.1, ?_⟩) ?_),
        fun _ => rfl⟩
      · rintro size ⟨⟩
        exact member.2
      · exact Set.Ico_subset_Ico_right (by decide)
  | ⟨7⟩ | ⟨8⟩ =>
      cases known
      trivial
  | ⟨_ + 10⟩ => cases known

theorem pointersRun_declared : pointersRun.KeepsDeclared pointers := by
  intro inst callee args info known found
  match inst with
  | ⟨0⟩ | ⟨1⟩ | ⟨2⟩ | ⟨3⟩ | ⟨4⟩ | ⟨5⟩ | ⟨6⟩ | ⟨9⟩ | ⟨_ + 10⟩ => cases known
  | ⟨7⟩ =>
      cases known
      cases found
      refine ⟨nofun, nofun, fun _ byte touched => ⟨⟨1⟩, by simp, ?_⟩⟩
      have member : byte ∈ Set.Ico (0 : Int) 16 := touched.elim id id
      exact pointersRun_behind_slot member
  | ⟨8⟩ =>
      cases known
      cases found
      exact ⟨nofun, fun _ => rfl, nofun⟩

theorem pointersRun_grounded : Oracle.byObject.Grounded pointers pointersRun := by
  refine pointersPlaced.byObject_grounded rfl (fun _ _ => id) (fun global info found _ inst => ?_)
    pointersRun_follows pointersRun_declared
  refine Set.disjoint_left.mpr fun byte written inside => ?_
  have low : byte < 16 := by
    match inst with
    | ⟨5⟩ | ⟨7⟩ => exact written.2
    | ⟨0⟩ | ⟨1⟩ | ⟨2⟩ | ⟨3⟩ | ⟨4⟩ | ⟨6⟩ | ⟨_ + 8⟩ => cases written
  have high : 100 ≤ byte := inside.1
  omega

theorem pointers_accessesOnly :
    pointers.AccessesOnly fun loc => pointers.hasValue loc.ptr = true := by
  intro inst op known
  match inst with
  | ⟨0⟩ | ⟨1⟩ | ⟨2⟩ | ⟨3⟩ | ⟨4⟩ | ⟨5⟩ | ⟨6⟩ | ⟨7⟩ | ⟨8⟩ | ⟨9⟩ =>
      cases known
      decide
  | ⟨_ + 10⟩ => cases known

theorem pointers_replies :
    Oracle.byObject.Replies pointers fun loc => pointers.hasValue loc.ptr = true where
  overlap _ _ := Oracle.byObject_overlap_total pointers_closed pointers_ends
  constant loc orLocal known := by
    obtain ⟨⟨i⟩, size⟩ := loc
    match i with
    | 0 | 1 | 2 | 3 | 4 | 5 | 6 | 7 | 8 => exact ⟨_, rfl⟩
    | i + 9 =>
        have inside : i + 9 < 9 := of_decide_eq_true known
        omega
  behavior inst op known isCall := by
    match inst with
    | ⟨7⟩ | ⟨8⟩ => exact ⟨_, rfl⟩
    | ⟨0⟩ | ⟨1⟩ | ⟨2⟩ | ⟨3⟩ | ⟨4⟩ | ⟨5⟩ | ⟨6⟩ | ⟨9⟩ =>
        cases known
        cases isCall
    | ⟨_ + 10⟩ => cases known

/-- The first call writes what was stored to the first slot before. -/
theorem Oracle.usual_answers_sound_pointers :
    byObject.IsUsual ∧ pointersRun.Follows pointers ∧ byObject.Grounded pointers pointersRun ∧
      byObject.Replies pointers (fun loc => pointers.hasValue loc.ptr = true) ∧
      byObject.Sound pointers pointersRun ∧ ∃ e, byObject.effectOnCall pointers ⟨5⟩ ⟨7⟩ = .ok e ∧
        (8 : Int) ∈ pointersRun.writes ⟨5⟩ ∩ pointersRun.touches ⟨7⟩ ∧ e.writes = true := by
  have usual : byObject.IsUsual := ⟨rfl, rfl, rfl⟩
  obtain ⟨sound, answers⟩ := usual_answers_sound usual pointersRun_follows pointersRun_grounded
  obtain ⟨e, told⟩ :=
    (answers _ pointers_accessesOnly pointers_replies).effectOnCall ⟨5⟩ _ ⟨7⟩ _ rfl rfl rfl
  have shared : (8 : Int) ∈ pointersRun.writes ⟨5⟩ ∩ pointersRun.touches ⟨7⟩ :=
    ⟨⟨by decide, by decide⟩, .inr ⟨by decide, by decide⟩⟩
  exact ⟨usual, pointersRun_follows, pointersRun_grounded, pointers_replies, sound, e, told, shared,
    (sound.effectOnCall ⟨5⟩ ⟨7⟩ _ e rfl rfl told).2 ⟨8, shared⟩⟩

end MemoryFlow
