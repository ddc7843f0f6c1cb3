import MemoryFlow.Alias.Oracle

/-! # Chains of oracles

A chain asks several oracles. The first definite word on an overlap stands; on every other question
what each of them rules out is ruled out.
-/

namespace MemoryFlow.Oracle

/-- The first answer that is definite. -/
def firstOverlap : List Oracle → OverlapQuery
  | [], _, _, _ => pure .possible
  | o :: rest, p, a, b => do
      match ← o.overlap p a b with
      | .possible => firstOverlap rest p a b
      | definite => return definite

/-- Limit an effect by what each oracle says. -/
def limitEffect (members : List Oracle) (ask : Oracle → Except Fault Effect) (start : Effect) :
    Except Fault Effect :=
  members.foldlM (fun e o => return e.meet (← ask o)) start

/-- The oracle that asks all of `members`. Where each of them has a say, so have the usual answers
over the chain's own overlaps, constants and behaviours. -/
def chain (members : List Oracle) : Oracle :=
  let overlap : OverlapQuery := firstOverlap members
  let constant : ConstantQuery := fun p loc orLocal => members.anyM (·.constant p loc orLocal)
  let behavior : BehaviorQuery := fun p call => do
    members.foldlM (fun b o => return b.meet (← o.behavior p call)) (← declaredBehavior p call)
  let effectAt : EffectAtQuery := fun p inst loc => do
    limitEffect members (·.effectAt p inst loc)
      (← usualEffectAt overlap constant behavior p inst loc)
  { overlap
    constant
    behavior
    effect := fun p inst => do
      limitEffect members (·.effect p inst) (← usualEffect behavior p inst)
    effectAt
    effectOnCall := fun p inst call => do
      limitEffect members (·.effectOnCall p inst call)
        (← usualEffectOnCall behavior effectAt p inst call) }

end MemoryFlow.Oracle
