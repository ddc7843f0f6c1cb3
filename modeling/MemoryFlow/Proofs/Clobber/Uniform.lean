import MemoryFlow.Alias.Object
import MemoryFlow.Proofs.Clobber.Footprint

/-! # Uses of one footprint under the usual oracles

An oracle that only says how locations overlap and which are never written leaves the rest to the
usual answers. Under it a use is a call or a load that is not ordered, so its footprint tells what
clobbers it.
-/

namespace MemoryFlow.Graph

variable {g : Graph} {p : Procedure} {o : Oracle} {q q' : Query} {a a' d : Access} {n : Node}
  {inst inst' : Inst} {op : Op}

theorem reorder_unordered {moving : Qualifiers} (loose : moving.isUnordered = true)
    (above : Qualifiers) :
    moving.reorder above = if above.order.atLeast .acquire then .never
      else if above.isVolatile then .ifDisjoint else .always := by
  obtain ⟨isVolatile, isInvariant, order⟩ := moving
  cases isVolatile with
  | true => cases loose
  | false =>
      cases order with
      | sequential => cases loose
      | _ => rfl

theorem effectOnCall_congr (overlap : OverlapQuery) (constant : ConstantQuery)
    (same : p.op inst = p.op inst') (definer : Inst) :
    Oracle.effectOnCall { overlap, constant } p definer inst =
      Oracle.effectOnCall { overlap, constant } p definer inst' := by
  simp only [usualEffectOnCall, usualEffectBetweenCalls, declaredBehavior, usualEffectAt, same]

theorem roleOf_use (known : o.roleOf p inst = .ok (some (.use inst' {})))
    (hop : p.op inst = .ok op) : op.isOrderedAccess = false ∧ op.intrinsic? ≠ some .assume ∧
      ∃ e, o.effect p inst = .ok e ∧ e.writes = false ∧ e.reads = true := by
  rw [Oracle.roleOf, hop, ok_bind] at known
  split at known
  · cases known
  · rename_i other
    obtain ⟨e, he, known⟩ := bind_eq_ok.mp known
    split at known
    · cases known
    · rename_i quiet
      rw [Bool.not_eq_true, Bool.or_eq_false_iff] at quiet
      split at known
      · rename_i reads
        exact ⟨quiet.2, other, e, he, quiet.1, reads⟩
      · cases known

theorem usual_use {overlap : OverlapQuery} {constant : ConstantQuery}
    (kinds : g.Classified { overlap, constant } p) (found : g.node? a = some n)
    (isUse : n.isUse = true) (hasInst : n.inst? = some inst) (known : p.op inst = .ok op) :
    (∃ ptr size quals, op = .load ptr size quals ∧ quals.isUnordered = true) ∨
      ∃ callee args, op = .call callee args := by
  have kind := kinds a _ inst (outline?_eq found) (by simpa using hasInst)
  obtain ⟨number, block, role, users⟩ := n
  cases role with
  | definition | phi => cases isUse
  | use =>
      obtain ⟨loose, other, e, told, quiet, reads⟩ := roleOf_use kind known
      have effect : usualEffect declaredBehavior p inst = .ok e := told
      rw [usualEffect, known, ok_bind] at effect
      cases op with
      | load ptr size quals =>
          exact .inl ⟨ptr, size, quals, rfl,
            by simpa [Op.isOrderedAccess, Op.qualifiers?] using loose⟩
      | call callee args => exact .inr ⟨callee, args, rfl⟩
      | store ptr value size quals =>
          obtain rfl := Except.ok.inj effect
          split at quiet <;> cases quiet
      | fence =>
          obtain rfl := Except.ok.inj effect
          cases quiet
      | intrinsic id args =>
          cases id with
          | assume => exact absurd rfl other
          | _ =>
              obtain rfl := Except.ok.inj effect
              cases quiet
      | _ =>
          obtain rfl := Except.ok.inj effect
          cases reads

theorem opClobbers_load {ptr ptr' : Value} {size size' : Nat} {quals quals' : Qualifiers}
    (known : p.op inst = .ok (.load ptr size quals)) (loose : quals.isUnordered = true)
    (known' : p.op inst' = .ok (.load ptr' size' quals')) (loose' : quals'.isUnordered = true)
    (definer : Inst) (opD : Op) (loc : Location) :
    o.opClobbers p definer opD (.access inst (some loc)) =
      o.opClobbers p definer opD (.access inst' (some loc)) := by
  cases opD with
  | intrinsic id => cases id <;> rfl
  | load =>
      simp only [Oracle.opClobbers, Oracle.mayDefine, known, known', ok_bind,
        reorder_unordered loose, reorder_unordered loose']
  | _ => rfl

theorem opClobbers_call
    (same : ∀ definer, o.effectOnCall p definer inst = o.effectOnCall p definer inst')
    (definer : Inst) (opD : Op) :
    o.opClobbers p definer opD (.call inst) = o.opClobbers p definer opD (.call inst') := by
  cases opD with
  | intrinsic id => cases id <;> rfl
  | _ => simp only [Oracle.opClobbers, same]

theorem kills_congr
    (same : ∀ definer opD, o.opClobbers p definer opD q = o.opClobbers p definer opD q') :
    g.Kills p o q d ↔ g.Kills p o q' d := by
  simp only [Kills, clobbers, same]

/-- Under an oracle with the usual effects nothing tells uses of one footprint apart: of the loads
only those that are not ordered are uses, and calls are told apart by callee and arguments. -/
theorem usual_opClobbers {overlap : OverlapQuery} {constant : ConstantQuery} {f : Footprint}
    (kinds : g.Classified { overlap, constant } p) (reads : g.Reads p a inst f)
    (reads' : g.Reads p a' inst' f) (definer : Inst) (opD : Op) :
    Oracle.opClobbers { overlap, constant } p definer opD (f.query inst) =
      Oracle.opClobbers { overlap, constant } p definer opD (f.query inst') := by
  obtain ⟨n, op, found, isUse, hasInst, known, footprint⟩ := reads
  obtain ⟨n', op', found', isUse', hasInst', known', footprint'⟩ := reads'
  rcases usual_use kinds found isUse hasInst known with
      ⟨ptr, size, quals, rfl, loose⟩ | ⟨callee, args, rfl⟩ <;>
    rcases usual_use kinds found' isUse' hasInst' known' with
      ⟨ptr', size', quals', rfl, loose'⟩ | ⟨callee', args', rfl⟩ <;>
    cases footprint <;> cases footprint'
  · exact opClobbers_load known loose known' loose' definer opD _
  · exact opClobbers_call (effectOnCall_congr overlap constant (known.trans known'.symm))
      definer opD

theorem uniform_usual {overlap : OverlapQuery} {constant : ConstantQuery}
    (kinds : g.Classified { overlap, constant } p) : g.Uniform p { overlap, constant } :=
  fun _ _ _ _ _ reads reads' _ => kills_congr (usual_opClobbers kinds reads reads')

theorem uniform_byObject (kinds : g.Classified .byObject p) : g.Uniform p .byObject :=
  uniform_usual kinds

end MemoryFlow.Graph
