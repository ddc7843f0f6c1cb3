import MemoryFlow.Alias.Chain
import MemoryFlow.Proofs.Alias.Usual

/-! # Chains of oracles

A chain limits what follows from its own overlaps, constants and behaviours by what each of its
members says. So it is true of whatever all members are true of, and one more member never makes it
say less (`chain_sound_and_sharp`).
-/

namespace MemoryFlow

theorem exists_of_anyM {ε α : Type} {f : α → Except ε Bool} {l : List α}
    (ran : l.anyM f = .ok true) : ∃ x ∈ l, f x = .ok true := by
  induction l with
  | nil => cases ran
  | cons x l ih =>
      obtain ⟨first, told, ran⟩ := bind_eq_ok.mp ran
      cases first with
      | true => exact ⟨x, by simp, told⟩
      | false =>
          obtain ⟨y, member, told⟩ := ih ran
          exact ⟨y, by simp [member], told⟩

theorem anyM_append {ε α : Type} {f : α → Except ε Bool} {l : List α} (ran : l.anyM f = .ok true)
    (rest : List α) : (l ++ rest).anyM f = .ok true := by
  induction l with
  | nil => cases ran
  | cons x l ih =>
      obtain ⟨first, told, ran⟩ := bind_eq_ok.mp ran
      rw [List.cons_append, List.anyM, told, ok_bind]
      cases first with
      | true => rfl
      | false => exact ih ran

namespace Behavior

variable {b b' : Behavior}

def Within (b b' : Behavior) : Prop :=
  b.effect.Within b'.effect ∧ (b'.onlyArguments = true → b = .noAccess ∨ b.onlyArguments = true)

theorem meet_eq_noAccess (none : b.meet b' = .noAccess) : b = .noAccess ∨ b' = .noAccess := by
  cases b <;> cases b' <;> simp_all [meet, onlyReads, onlyArguments]

theorem onlyReads_of_meet (reads : (b.meet b').onlyReads = true) :
    b.onlyReads = true ∨ b'.onlyReads = true := by
  cases b <;> cases b' <;> simp_all [meet, onlyReads, onlyArguments]

theorem onlyArguments_of_meet (keeps : (b.meet b').onlyArguments = true) :
    b.onlyArguments = true ∨ b'.onlyArguments = true := by
  cases b <;> cases b' <;> simp_all [meet, onlyReads, onlyArguments]

theorem meet_within (b b' : Behavior) : (b.meet b').Within b := by
  cases b <;> cases b' <;> simp [Within, meet, onlyReads, onlyArguments, effect, Effect.Within,
    Effect.none, Effect.read, Effect.readWrite]

end Behavior

theorem Reading.Keeps.meet {m : Reading} {inst : Inst} {args : List Value} {b b' : Behavior}
    (keeps : m.Keeps inst args b) (keeps' : m.Keeps inst args b') :
    m.Keeps inst args (b.meet b') where
  noAccess none := (Behavior.meet_eq_noAccess none).elim keeps.noAccess keeps'.noAccess
  onlyReads reads := (Behavior.onlyReads_of_meet reads).elim keeps.onlyReads keeps'.onlyReads
  onlyArguments only :=
    (Behavior.onlyArguments_of_meet only).elim keeps.onlyArguments keeps'.onlyArguments

namespace Effect

variable {e e' a a' : Effect}

theorem none_within (e : Effect) : Effect.none.Within e :=
  ⟨nofun, nofun⟩

theorem meet_within (e e' : Effect) : (e.meet e').Within e :=
  ⟨fun held => (Bool.and_eq_true_iff.mp held).1, fun held => (Bool.and_eq_true_iff.mp held).1⟩

theorem Within.meet (first : e.Within a) (second : e'.Within a') :
    (e.meet e').Within (a.meet a') := by
  simp_all [Within, Effect.meet]

theorem within_ite {t t' : Bool} (fewer : t = true → t' = true) (within : e.Within e') :
    (if t then e else .none).Within (if t' then e' else .none) := by
  cases t with
  | false => exact none_within _
  | true =>
      rw [fewer rfl]
      exact within

end Effect

/-- The more is known of what shares no byte with a location, of constants and of calls, the less an
operation may do there. -/
theorem Op.effectAt_within {op : Op} {touches touches' : Location → Bool}
    {constant constant' : Bool} {b b' : Behavior}
    (fewer : ∀ loc, touches' loc = true → touches loc = true)
    (fixed : constant = true → constant' = true)
    (behaves : ∀ callee args, op = .call callee args → b'.Within b) :
    (op.effectAt touches' constant' b').Within (op.effectAt touches constant b) := by
  cases op with
  | load ptr size quals =>
      rw [effectAt, effectAt]
      split
      · exact .refl _
      · exact Effect.within_ite (fewer _) (.refl _)
  | store ptr value size quals =>
      rw [effectAt, effectAt]
      split
      · exact .refl _
      · refine Effect.within_ite (fun held => ?_) (.refl _)
        rw [Bool.and_eq_true, Bool.not_eq_true'] at held ⊢
        refine ⟨fewer _ held.1, Bool.eq_false_iff.mpr fun known => ?_⟩
        rw [fixed known] at held
        cases held.2
  | intrinsic id args =>
      cases id with
      | assume => exact .refl _
      | _ =>
          rw [effectAt, effectAt]
          · cases args.head? with
            | none => exact .refl _
            | some ptr => exact Effect.within_ite (fewer _) (.refl _)
          · intro same
            cases same
          · intro same
            cases same
  | call callee args =>
      obtain ⟨less, narrower⟩ := behaves callee args rfl
      have limited : (if constant' then b'.effect.meet .read else b'.effect).Within
          (if constant then b.effect.meet .read else b.effect) := by
        cases constant with
        | true =>
            rw [fixed rfl]
            exact less.meet (.refl _)
        | false =>
            cases constant' with
            | true => exact (Effect.meet_within _ _).trans less
            | false => exact less
      rw [effectAt, effectAt]
      -- If the call is known to keep to arguments far from here, then whatever is known besides, it
      -- does nothing here. Otherwise its behaviour decides, and that of the sharper view is no
      -- more.
      by_cases far : (b.onlyArguments && !args.any (touches <| .behind ·)) = true
      · rw [if_pos far]
        rw [Bool.and_eq_true, Bool.not_eq_true', List.any_eq_false] at far
        rcases narrower far.1 with rfl | only
        · cases constant' <;> exact .refl _
        · have far' : args.any (touches' <| .behind ·) = false :=
            List.any_eq_false.mpr fun arg member near => far.2 arg member (fewer _ near)
          rw [only, far']
          exact .refl _
      · rw [if_neg far]
        generalize (b'.onlyArguments && !args.any (touches' <| .behind ·)) = far'
        cases far' with
        | true => exact Effect.none_within _
        | false => exact limited
  | _ => exact .refl _

namespace Oracle

variable {members : List Oracle} {p : Procedure} {m : Reading} {about : Location → Prop}

/-- Whether what one oracle says of locations and calls is never looser than what another says. -/
structure Refines (o o' : Oracle) (p : Procedure) : Prop where
  overlap : ∀ a b r, r ≠ .possible → o'.overlap p a b = .ok r → o.overlap p a b = .ok r
  constant : ∀ loc orLocal, o'.constant p loc orLocal = .ok true →
    o.constant p loc orLocal = .ok true
  behavior : ∀ call b b', o.behavior p call = .ok b → o'.behavior p call = .ok b' → b.Within b'

/-- Whether what one oracle says of instructions is never looser either. -/
structure Sharpens (o o' : Oracle) (p : Procedure) : Prop extends o.Refines o' p where
  effect : ∀ inst e e', o.effect p inst = .ok e → o'.effect p inst = .ok e' → e.Within e'
  effectAt : ∀ inst loc e e', o.effectAt p inst loc = .ok e → o'.effectAt p inst loc = .ok e' →
    e.Within e'

theorem exists_of_firstOverlap {a b : Location} {r : Overlap} (definite : r ≠ .possible)
    (told : firstOverlap members p a b = .ok r) : ∃ o ∈ members, o.overlap p a b = .ok r := by
  induction members with
  | nil => exact absurd (Except.ok.inj told).symm definite
  | cons o rest ih =>
      obtain ⟨r', told', told⟩ := bind_eq_ok.mp told
      cases r' with
      | possible =>
          obtain ⟨o, member, told⟩ := ih told
          exact ⟨o, List.mem_cons_of_mem _ member, told⟩
      | _ => exact ⟨o, List.mem_cons_self, told'.trans told⟩

theorem firstOverlap_append {a b : Location} {r : Overlap} (definite : r ≠ .possible)
    (told : firstOverlap members p a b = .ok r) (rest : List Oracle) :
    firstOverlap (members ++ rest) p a b = .ok r := by
  induction members with
  | nil => exact absurd (Except.ok.inj told).symm definite
  | cons o members ih =>
      obtain ⟨r', told', told⟩ := bind_eq_ok.mp told
      rw [List.cons_append, firstOverlap, told', ok_bind]
      cases r' with
      | possible => exact ih told
      | _ => exact told

theorem firstOverlap_total {a b : Location}
    (replies : ∀ o ∈ members, ∃ r, o.overlap p a b = .ok r) :
    ∃ r, firstOverlap members p a b = .ok r := by
  induction members with
  | nil => exact ⟨_, rfl⟩
  | cons o rest ih =>
      obtain ⟨⟨r, told⟩, later⟩ := List.forall_mem_cons.mp replies
      rw [firstOverlap, told, ok_bind]
      cases r with
      | possible => exact ih later
      | _ => exact ⟨_, rfl⟩

/-- A limited effect tells of all that happens if each answer does. -/
theorem limitEffect_covers {base : Except Fault Effect} {ask : Oracle → Except Fault Effect}
    {e : Effect} {r w : Set Int} (covers : ∀ start, base = .ok start → start.Covers r w)
    (sound : ∀ o ∈ members, ∀ e, ask o = .ok e → e.Covers r w)
    (told : base >>= limitEffect members ask = .ok e) : e.Covers r w := by
  obtain ⟨start, first, told⟩ := bind_eq_ok.mp told
  refine foldlM_keeps_of_mem (·.Covers r w) told (covers start first)
    fun o member e e' covers stepped => ?_
  obtain ⟨answer, told, same⟩ := bind_eq_ok.mp stepped
  obtain rfl := Except.ok.inj same
  exact covers.meet (sound o member answer told)

theorem limitEffect_total {base : Except Fault Effect} {ask : Oracle → Except Fault Effect}
    (first : ∃ start, base = .ok start) (replies : ∀ o ∈ members, ∃ e, ask o = .ok e) :
    ∃ e, base >>= limitEffect members ask = .ok e := by
  obtain ⟨start, first⟩ := first
  obtain ⟨e, ran, _⟩ :=
    foldlM_total members (fun e o => return e.meet (← ask o)) start (fun _ _ => True)
      trivial (by
        intro seen o rest e whole _
        obtain ⟨answer, told⟩ := replies o (by simp [whole])
        rw [told]
        exact ⟨_, rfl, trivial⟩)
  exact ⟨e, bind_eq_ok.mpr ⟨start, first, ran⟩⟩

theorem limitEffect_within {ask : Oracle → Except Fault Effect} {start start' e e' : Effect}
    (less : start.Within start') (told : limitEffect members ask start = .ok e)
    (told' : limitEffect members ask start' = .ok e') : e.Within e' := by
  induction members generalizing start start' with
  | nil =>
      cases told
      cases told'
      exact less
  | cons o rest ih =>
      rw [limitEffect, List.foldlM_cons] at told told'
      obtain ⟨_, stepped, told⟩ := bind_eq_ok.mp told
      obtain ⟨_, stepped', told'⟩ := bind_eq_ok.mp told'
      obtain ⟨answer, asked, same⟩ := bind_eq_ok.mp stepped
      obtain ⟨answer', asked', same'⟩ := bind_eq_ok.mp stepped'
      cases same
      cases same'
      cases asked.symm.trans asked'
      exact ih (less.meet (.refl _)) told told'

theorem limitEffect_append_within {base base' : Except Fault Effect}
    {ask : Oracle → Except Fault Effect} {o : Oracle} {e e' : Effect}
    (less : ∀ start start', base = .ok start → base' = .ok start' → start.Within start')
    (told : base >>= limitEffect (members ++ [o]) ask = .ok e)
    (told' : base' >>= limitEffect members ask = .ok e') : e.Within e' := by
  obtain ⟨start, first, told⟩ := bind_eq_ok.mp told
  obtain ⟨start', first', told'⟩ := bind_eq_ok.mp told'
  rw [limitEffect, List.foldlM_append] at told
  obtain ⟨mid, ran, told⟩ := bind_eq_ok.mp told
  obtain ⟨_, stepped, told⟩ := bind_eq_ok.mp told
  obtain ⟨answer, _, same⟩ := bind_eq_ok.mp stepped
  cases same
  cases told
  exact (Effect.meet_within _ _).trans
    (limitEffect_within (less start start' first first') ran told')

theorem usualEffect_within {o o' : Oracle} {inst : Inst} {e e' : Effect} (refines : o.Refines o' p)
    (told : usualEffect o.behavior p inst = .ok e)
    (told' : usualEffect o'.behavior p inst = .ok e') :
    e.Within e' := by
  obtain ⟨op, known, told⟩ := bind_eq_ok.mp told
  rw [usualEffect, known, ok_bind] at told'
  cases op with
  | call =>
      obtain ⟨b, behaves, same⟩ := bind_eq_ok.mp told
      obtain ⟨b', behaves', same'⟩ := bind_eq_ok.mp told'
      cases same
      cases same'
      exact (refines.behavior inst b b' behaves behaves').1
  | intrinsic id args =>
      cases id <;> cases told <;> cases told' <;> exact .refl _
  | _ =>
      cases told
      cases told'
      exact .refl _

theorem usualEffectAt_within {o o' : Oracle} {inst : Inst} {loc : Location} {e e' : Effect}
    (refines : o.Refines o' p)
    (told : usualEffectAt o.overlap o.constant o.behavior p inst loc = .ok e)
    (told' : usualEffectAt o'.overlap o'.constant o'.behavior p inst loc = .ok e') :
    e.Within e' := by
  obtain ⟨op, known, _⟩ := bind_eq_ok.mp told
  obtain ⟨b, behaves, rfl⟩ := usualEffectAt_eq_ok known told
  obtain ⟨b', behaves', rfl⟩ := usualEffectAt_eq_ok known told'
  refine Op.effectAt_within (fun x near => ?_) (fun fixed => ?_) fun callee args isCall => ?_
  · by_contra far
    have apart :=
      refines.overlap x loc .disjoint nofun (overlap_of_mayTouch (Bool.eq_false_iff.mpr far))
    rw [mayTouch, apart] at near
    cases near
  · exact isConstant_eq (refines.constant loc false (constant_of_isConstant fixed))
  · exact refines.behavior inst b b' (behaves callee args isCall) (behaves' callee args isCall)

theorem chain_grounded (follows : m.Follows p) (declared : m.KeepsDeclared p)
    (grounded : ∀ o ∈ members, o.Grounded p m) : (chain members).Grounded p m where
  overlap a b told := by
    obtain ⟨o, member, told⟩ := exists_of_firstOverlap (r := .disjoint) nofun told
    exact (grounded o member).overlap a b told
  constant loc told := by
    obtain ⟨o, member, told⟩ := exists_of_anyM told
    exact (grounded o member).constant loc told
  behavior inst op b known isCall told := by
    obtain ⟨start, first, told⟩ := bind_eq_ok.mp told
    refine foldlM_keeps_of_mem (m.Keeps inst op.arguments) told
      (keeps_declaredBehavior follows declared known isCall first)
      fun o member b b' keeps stepped => ?_
    obtain ⟨answer, told, same⟩ := bind_eq_ok.mp stepped
    cases same
    exact keeps.meet ((grounded o member).behavior inst op answer known isCall told)

theorem chain_sound (follows : m.Follows p) (declared : m.KeepsDeclared p)
    (sound : ∀ o ∈ members, o.Sound p m) : (chain members).Sound p m := by
  have grounded := chain_grounded follows declared fun o member => (sound o member).toGrounded
  have effectAt : ∀ inst loc e, (chain members).effectAt p inst loc = .ok e →
      e.Covers (m.reads inst ∩ m.bytes loc) (m.writes inst ∩ m.bytes loc) := by
    intro inst loc e told
    exact limitEffect_covers (fun _ => usualEffectAt_covers follows grounded)
      (fun o member => (sound o member).effectAt inst loc) told
  refine ⟨grounded, fun inst e told => ?_, effectAt, fun inst call op e known isCall told => ?_⟩
  · exact limitEffect_covers (fun _ => usualEffect_covers follows grounded)
      (fun o member => (sound o member).effect inst) told
  · exact limitEffect_covers
      (fun _ => usualEffectOnCall_covers follows grounded effectAt known isCall)
      (fun o member e => (sound o member).effectOnCall inst call op e known isCall) told

theorem chain_replies (declared : ∀ inst op, p.op inst = .ok op → op.isCall = true →
      ∃ b, declaredBehavior p inst = .ok b) (replies : ∀ o ∈ members, o.Replies p about) :
    (chain members).Replies p about where
  overlap a b here here' :=
    firstOverlap_total fun o member => (replies o member).overlap a b here here'
  constant loc orLocal here :=
    anyM_total fun o member => (replies o member).constant loc orLocal here
  behavior inst op known isCall := by
    obtain ⟨start, first⟩ := declared inst op known isCall
    obtain ⟨b, ran, _⟩ :=
      foldlM_total members (fun b o => return b.meet (← o.behavior p inst)) start
        (fun _ _ => True) trivial (by
          intro seen o rest b whole _
          obtain ⟨answer, told⟩ := (replies o (by simp [whole])).behavior inst op known isCall
          rw [told]
          exact ⟨_, rfl, trivial⟩)
    exact ⟨b, bind_eq_ok.mpr ⟨start, first, ran⟩⟩

theorem chain_repliesFully (accesses : p.AccessesOnly about)
    (declared : ∀ inst op, p.op inst = .ok op → op.isCall = true →
      ∃ b, declaredBehavior p inst = .ok b)
    (replies : ∀ o ∈ members, o.RepliesFully p about) : (chain members).RepliesFully p about := by
  have known := chain_replies declared fun o member => (replies o member).toReplies
  have answers : ∀ inst op loc, p.op inst = .ok op → about loc →
      ∃ e, (chain members).effectAt p inst loc = .ok e := by
    intro inst op loc found here
    exact limitEffect_total (usualEffectAt_total known accesses found here) fun o member =>
      (replies o member).effectAt inst op loc found here
  refine ⟨known, fun inst op found => ?_, answers, fun inst op call op' found found' isCall => ?_⟩
  · exact limitEffect_total (usualEffect_total known found) fun o member =>
      (replies o member).effect inst op found
  · exact limitEffect_total (usualEffectOnCall_total known accesses answers found found' isCall)
      fun o member =>
      (replies o member).effectOnCall inst op call op' found found' isCall

theorem chain_append_refines (members : List Oracle) (o : Oracle) (p : Procedure) :
    (chain (members ++ [o])).Refines (chain members) p where
  overlap _ _ _ definite told := firstOverlap_append definite told _
  constant _ _ told := anyM_append told _
  behavior call b b' told told' := by
    obtain ⟨start, first, told⟩ := bind_eq_ok.mp told
    obtain ⟨start', first', told'⟩ := bind_eq_ok.mp told'
    cases first.symm.trans first'
    rw [List.foldlM_append, told', ok_bind] at told
    obtain ⟨_, stepped, told⟩ := bind_eq_ok.mp told
    obtain ⟨answer, _, same⟩ := bind_eq_ok.mp stepped
    cases same
    cases told
    exact Behavior.meet_within _ _

theorem chain_append_sharpens (members : List Oracle) (o : Oracle) (p : Procedure) :
    (chain (members ++ [o])).Sharpens (chain members) p := by
  have refines := chain_append_refines members o p
  refine ⟨refines, fun inst e e' told told' => ?_, fun inst loc e e' told told' => ?_⟩
  · exact limitEffect_append_within (fun _ _ => usualEffect_within refines) told told'
  · exact limitEffect_append_within (fun _ _ => usualEffectAt_within refines) told told'

/-- A chain is true of whatever its members are all true of, no answer of it gets looser by one more
member, and it replies wherever they reply. -/
theorem chain_sound_and_sharp (members : List Oracle) (p : Procedure) :
    (∀ m : Reading, m.Follows p → m.KeepsDeclared p → (∀ o ∈ members, o.Sound p m) →
      (chain members).Sound p m) ∧
    (∀ o, (chain (members ++ [o])).Sharpens (chain members) p) ∧
    ∀ about, p.AccessesOnly about →
      (∀ inst op, p.op inst = .ok op → op.isCall = true → ∃ b, declaredBehavior p inst = .ok b) →
      (∀ o ∈ members, o.RepliesFully p about) → (chain members).RepliesFully p about :=
  ⟨fun _ => chain_sound, fun o => chain_append_sharpens members o p, fun _ => chain_repliesFully⟩

/-- That the first call writes the first slot is told through two levels of chains. -/
theorem chain_sound_and_sharp_pointers :
    pointersRun.Follows pointers ∧ pointersRun.KeepsDeclared pointers ∧
      (∀ o ∈ [chain [.byObject], .byObject], o.Sound pointers pointersRun) ∧
      (chain [chain [.byObject], .byObject]).Sound pointers pointersRun ∧
      (chain [chain [.byObject], .byObject]).Sharpens (chain [chain [.byObject]]) pointers ∧
      ∃ e, (chain [chain [.byObject], .byObject]).effectAt pointers ⟨7⟩ (.behind ⟨1⟩) = .ok e ∧
        e.writes = true := by
  have usual : byObject.IsUsual := ⟨rfl, rfl, rfl⟩
  have declared : ∀ inst op, pointers.op inst = .ok op → op.isCall = true →
      ∃ b, declaredBehavior pointers inst = .ok b := pointers_replies.behavior
  have one : ∀ o ∈ [byObject], o.Sound pointers pointersRun := by
    simpa using usual.sound pointersRun_follows pointersRun_grounded
  have one' : ∀ o ∈ [byObject], o.RepliesFully pointers fun loc =>
      pointers.hasValue loc.ptr = true := by
    simpa using usual.repliesFully pointers_accessesOnly pointers_replies
  have both : ∀ o ∈ [chain [byObject], byObject], o.Sound pointers pointersRun :=
    List.forall_mem_cons.mpr ⟨chain_sound pointersRun_follows pointersRun_declared one, one⟩
  obtain ⟨sound, _, replies⟩ := chain_sound_and_sharp [chain [byObject], byObject] pointers
  have sound := sound _ pointersRun_follows pointersRun_declared both
  have replies := replies _ pointers_accessesOnly declared
    (List.forall_mem_cons.mpr ⟨chain_repliesFully pointers_accessesOnly declared one', one'⟩)
  obtain ⟨e, told⟩ := replies.effectAt ⟨7⟩ _ (.behind ⟨1⟩) rfl rfl
  have written : (0 : Int) ∈ pointersRun.writes ⟨7⟩ ∩ pointersRun.bytes (.behind ⟨1⟩) :=
    ⟨⟨by decide, by decide⟩, pointersRun_behind_slot ⟨by decide, by decide⟩⟩
  exact ⟨pointersRun_follows, pointersRun_declared, both, sound,
    (chain_sound_and_sharp [chain [byObject]] pointers).2.1 byObject, e, told,
    (sound.effectAt ⟨7⟩ _ e told).2 ⟨0, written⟩⟩

end Oracle

end MemoryFlow
