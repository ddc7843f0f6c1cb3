import MemoryFlow.Alias.Location

/-! # Oracles

An oracle answers what may be said of locations and of the effect of instructions on them. All
knowledge of pointers sits in an oracle; everything else in the library only asks. An oracle need
only say how two locations overlap. The other questions have a usual answer that follows from it and
from the operations of the procedure.

Every answer errs on the side of caution: in doubt locations may overlap, and memory may be touched.
-/

namespace MemoryFlow

abbrev OverlapQuery := Procedure → Location → Location → Except Fault Overlap

/-- Whether a location is never written. If the flag is set, memory local to the procedure
counts. -/
abbrev ConstantQuery := Procedure → Location → Bool → Except Fault Bool

abbrev BehaviorQuery := Procedure → Inst → Except Fault Behavior

abbrev EffectQuery := Procedure → Inst → Except Fault Effect

abbrev EffectAtQuery := Procedure → Inst → Location → Except Fault Effect

/-- What the first instruction may do to the memory that the second, a call, accesses. -/
abbrev EffectOnCallQuery := Procedure → Inst → Inst → Except Fault Effect

/-- The behaviour that a call's callee is declared with. Intrinsics keep to their arguments. -/
def declaredBehavior : BehaviorQuery := fun p call => do
  match ← p.op call with
  | .call callee _ => return (← p.callee callee).behavior
  | .intrinsic .. => return .accessesArguments
  | _ => return .noAccess

/-- The usual effect on memory. An ordered access counts as a read and a write. -/
def usualEffect (behavior : BehaviorQuery) : EffectQuery := fun p inst => do
  match ← p.op inst with
  | .load _ _ quals => return if quals.isUnordered then .read else .readWrite
  | .store _ _ _ quals => return if quals.isUnordered then .write else .readWrite
  | .fence _ | .intrinsic .assume _ => return .readWrite
  | .intrinsic .. => return .write
  | .call .. => return (← behavior p inst).effect
  | _ => return .none

def usualEffectAt (overlap : OverlapQuery) (constant : ConstantQuery) (behavior : BehaviorQuery) :
    EffectAtQuery := fun p inst loc => do
  let mayTouch (other : Location) : Except Fault Bool := do
    return (← overlap p other loc) != .disjoint
  match ← p.op inst with
  | .load ptr size quals =>
      if !quals.isUnordered then return .readWrite
      else if ← mayTouch ⟨ptr, some size⟩ then return .read
      else return .none
  | .store ptr _ size quals =>
      if !quals.isUnordered then return .readWrite
      else if !(← mayTouch ⟨ptr, some size⟩) then return .none
      else if ← constant p loc false then return .none
      else return .write
  | .fence _ => return .readWrite
  | .intrinsic .assume _ => return .none
  | .intrinsic _ [] => return .none
  | .intrinsic _ (ptr :: _) => return if ← mayTouch (.behind ptr) then .write else .none
  | .call _ args =>
      let b ← behavior p inst
      let reaches ←
        if b = .noAccess then pure false
        else if b.onlyArguments then args.anyM fun arg => mayTouch (.behind arg)
        else pure true
      if !reaches then return .none
      else if ← constant p loc false then return b.effect.meet .read
      else return b.effect
  | _ => return .none

/-- What two calls do to each other's memory, from what each is known to do. If one keeps to its
arguments, only what the other does behind them counts. -/
def usualEffectBetweenCalls (effectAt : EffectAtQuery) (p : Procedure) (inst call : Inst)
    (args : List Value) (behavior callBehavior : Behavior) : Except Fault Effect := do
  if behavior = .noAccess ∨ callBehavior = .noAccess then return .none
  else if behavior.onlyReads && callBehavior.onlyReads then return .none
  else if callBehavior.onlyArguments then
    let onArgs ← (← p.op call).arguments.foldlM (fun total arg => do
      let e ← effectAt p inst (.behind arg)
      let clashes :=
        (callBehavior.effect.writes && e.touches) || (callBehavior.effect.reads && e.writes)
      return if clashes then total.join e else total) Effect.none
    return behavior.effect.meet onArgs
  else if behavior.onlyArguments then
    let onArgs ← args.foldlM (fun total arg => do
      return if (← effectAt p call (.behind arg)).touches then total.join behavior.effect
        else total)
      Effect.none
    return behavior.effect.meet onArgs
  else return behavior.effect

/-- The usual effect on a call: a load or store clashes with it if the call touches its location. -/
def usualEffectOnCall (behavior : BehaviorQuery) (effectAt : EffectAtQuery) : EffectOnCallQuery :=
  fun p inst call => do
    let op ← p.op inst
    if op.isFence then return .readWrite
    else if op.isCall then
      usualEffectBetweenCalls effectAt p inst call op.arguments (← behavior p inst)
        (← behavior p call)
    else
      match Location.ofOp? op with
      | none => return .none
      | some loc => return if (← effectAt p call loc).touches then .readWrite else .none

/-- A source of answers on memory. -/
structure Oracle where
  overlap : OverlapQuery
  constant : ConstantQuery := fun _ _ _ => pure false
  behavior : BehaviorQuery := declaredBehavior
  effect : EffectQuery := usualEffect behavior
  effectAt : EffectAtQuery := usualEffectAt overlap constant behavior
  effectOnCall : EffectOnCallQuery := usualEffectOnCall behavior effectAt

namespace Oracle

/-- Whether two locations surely share no byte. -/
def areDisjoint (o : Oracle) (p : Procedure) (a b : Location) : Except Fault Bool := do
  return (← o.overlap p a b) == .disjoint

/-- Whether two locations surely start at one address. -/
def areSame (o : Oracle) (p : Procedure) (a b : Location) : Except Fault Bool := do
  return (← o.overlap p a b) == .same

end Oracle

end MemoryFlow
