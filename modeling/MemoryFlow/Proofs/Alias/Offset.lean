import MemoryFlow.Proofs.Alias.Object
import MemoryFlow.Proofs.Procedure.Accepted

/-! # Chains of offsets

Tracing a pointer back follows the offsets it was made by. Finishing a draft makes sure that each of
them starts from a value of the procedure, but not that this value was made before: an offset may
start from itself. A chain of offsets ends, and tracing back with it, just if it does not come back
to a value it has passed (`offsets_end_iff_uncircled`).
-/

namespace MemoryFlow

namespace Procedure

open Relation (ReflTransGen TransGen)

variable {p : Procedure} {value base : Value} {fuel : Nat} {offset : Option Int}

/-- Whether the chain of offsets from `value` back comes to a value that is not made by an
offset. -/
def HasBase (p : Procedure) (value : Value) : Prop :=
  ∃ base, ReflTransGen p.OffsetOf value base ∧ ∀ next, ¬p.OffsetOf base next

theorem OffsetOf.unique {other : Value} (first : p.OffsetOf value base)
    (second : p.OffsetOf value other) : base = other := by
  obtain ⟨_, moved⟩ := first
  obtain ⟨_, moved'⟩ := second
  exact moved.unique moved'

theorem Derives.chain {sum : Int} (derives : p.Derives value base sum) :
    ReflTransGen p.OffsetOf value base := by
  induction derives with
  | here => exact .refl
  | offset moved _ ih => exact .head ⟨_, moved⟩ ih

/-- What values of an accepted procedure come from is there: instructions are made together with
their values, and the operands of all of them are looked at. -/
theorem Accepted.closed (accepted : p.Accepted) : p.Closed where
  insts value inst comes := by
    have listed : .result inst ∈ p.values := by
      unfold origin at comes
      split at comes
      · rename_i known
        obtain rfl := Except.ok.inj comes
        exact Array.mem_of_getElem? known
      · cases comes
    exact accepted.orderly.exists_op
      (accepted.complete.placed inst (accepted.complete.results inst listed))
  bases value base delta moved := by
    obtain ⟨inst, comes, performs⟩ := moved
    apply accepted.hasValue_of_mem performs
    simp [Op.arguments]

namespace Circles

theorem next (circles : p.Circles value) : ∃ base, p.OffsetOf value base ∧ p.Circles base :=
  exists_next_of_circle circles

theorem not_hasBase (circles : p.Circles value) : ¬p.HasBase value := by
  rintro ⟨base, way, rests⟩
  induction way using ReflTransGen.head_induction_on with
  | refl =>
      obtain ⟨next, moved, _⟩ := circles.next
      exact rests next moved
  | head moved _ ih =>
      obtain ⟨next, moved', circles⟩ := circles.next
      exact ih (moved.unique moved' ▸ circles)

/-- Tracing back round a circle does not end, however many steps are made. -/
theorem traceBack (circles : p.Circles value) :
    p.traceBack fuel value offset = .error .diverges := by
  induction fuel generalizing value offset with
  | zero => rfl
  | succ fuel ih =>
      obtain ⟨base, ⟨delta, inst, comes, performs⟩, circles⟩ := circles.next
      rw [Procedure.traceBack, comes, ok_bind]
      dsimp only
      rw [performs, ok_bind]
      exact ih circles

end Circles

theorem traceBack_rests {d : Derivation} (traced : p.traceBack fuel value offset = .ok d)
    (next : Value) : ¬p.OffsetOf d.base next := by
  induction fuel generalizing value offset with
  | zero => cases traced
  | succ fuel ih =>
      rcases traceBack_cases traced with ⟨rfl, rests, _⟩ | ⟨_, _, _, traced⟩
      · exact rests next
      · exact ih traced

theorem not_circles_of_lt
    (earlier : ∀ value base, p.OffsetOf value base → base.index < value.index) :
    ¬p.Circles value := by
  rintro ⟨c, _, circle⟩
  have descends : ∀ base, TransGen p.OffsetOf c base → base.index < c.index := by
    intro base way
    induction way with
    | single moved => exact earlier _ _ moved
    | tail _ moved ih => exact (earlier _ _ moved).trans ih
  exact Nat.lt_irrefl _ (descends c circle)

/-- In an accepted procedure a chain of offsets comes to a value that is not made by an offset just
if it does not come back to a value it has passed. Tracing a pointer back then finds that value;
otherwise it does not end, however many steps are made. No chain comes back where all offsets start
from values made before. -/
theorem offsets_end_iff_uncircled (accepted : p.Accepted) :
    (∀ value, p.hasValue value = true → (p.HasBase value ↔ ¬p.Circles value) ∧
      (¬p.Circles value → ∃ d, p.derivation value = .ok d ∧ ReflTransGen p.OffsetOf value d.base ∧
        ∀ next, ¬p.OffsetOf d.base next) ∧
      (p.Circles value → ∀ fuel offset, p.traceBack fuel value offset = .error .diverges)) ∧
      ((∀ value base, p.OffsetOf value base → base.index < value.index) →
        ∀ value, ¬p.Circles value) := by
  refine ⟨fun value known => ?_, fun earlier value => not_circles_of_lt earlier⟩
  have ends : ¬p.Circles value → ∃ d, p.derivation value = .ok d ∧
      ReflTransGen p.OffsetOf value d.base ∧ ∀ next, ¬p.OffsetOf d.base next := by
    intro free
    obtain ⟨d, traced⟩ := derivation_total accepted.closed free known
    obtain ⟨_, _, derives, _⟩ := derivation_sound traced
    exact ⟨d, traced, derives.chain, traceBack_rests traced⟩
  refine ⟨⟨fun base circles => circles.not_hasBase base, fun free => ?_⟩, ends,
    fun circles _ _ => circles.traceBack⟩
  obtain ⟨d, _, way, rests⟩ := ends free
  exact ⟨d.base, way, rests⟩

end Procedure

/-- A pointer into a slot, made by two offsets from values that are made later, and two pointers
made from each other. -/
def offsetsAhead : Procedure where
  name := "ahead"
  blockNames := #[none]
  insts := #[⟨.ptrOffset ⟨1⟩ 8, some ⟨0⟩⟩, ⟨.ptrOffset ⟨2⟩ 4, some ⟨1⟩⟩, ⟨.alloca 16, some ⟨2⟩⟩,
    ⟨.ptrOffset ⟨4⟩ 1, some ⟨3⟩⟩, ⟨.ptrOffset ⟨3⟩ 1, some ⟨4⟩⟩, ⟨.ret none, none⟩]
  values := #[.result ⟨0⟩, .result ⟨1⟩, .result ⟨2⟩, .result ⟨3⟩, .result ⟨4⟩]
  layout := .ofRows [⟨⟨0⟩, [⟨0⟩, ⟨1⟩, ⟨2⟩, ⟨3⟩, ⟨4⟩, ⟨5⟩]⟩]

theorem offsetsAhead_accepted : offsetsAhead.Accepted :=
  ⟨⟨offsetsAhead, some ⟨0⟩⟩,
    .append (.ret none)
    (.append (.ptrOffset ⟨3⟩ 1) (.append (.ptrOffset ⟨4⟩ 1) (.append (.alloca 16)
      (.append (.ptrOffset ⟨2⟩ 4) (.append (.ptrOffset ⟨1⟩ 8) (.select ⟨0⟩
        (.addBlock none (.start "ahead") rfl)) rfl) rfl) rfl) rfl) rfl) rfl, rfl⟩

theorem Procedure.offsets_end_iff_uncircled_offsetsAhead :
    offsetsAhead.Accepted ∧ offsetsAhead.HasBase ⟨0⟩ ∧
      offsetsAhead.derivation ⟨0⟩ = .ok ⟨⟨2⟩, some 12⟩ ∧ ¬offsetsAhead.HasBase ⟨3⟩ ∧
      ∀ fuel offset, offsetsAhead.traceBack fuel ⟨3⟩ offset = .error .diverges := by
  obtain ⟨chains, _⟩ := offsets_end_iff_uncircled offsetsAhead_accepted
  have traced : offsetsAhead.derivation ⟨0⟩ = .ok ⟨⟨2⟩, some 12⟩ := by decide
  have free : ¬offsetsAhead.Circles ⟨0⟩ :=
    fun circles => nomatch traced.symm.trans circles.traceBack
  have circles : offsetsAhead.Circles ⟨3⟩ :=
    ⟨⟨3⟩, .refl, .tail (.single ⟨1, ⟨3⟩, rfl, rfl⟩) ⟨1, ⟨4⟩, rfl, rfl⟩⟩
  exact ⟨offsetsAhead_accepted, (chains ⟨0⟩ rfl).1.mpr free, traced,
    fun base => (chains ⟨3⟩ rfl).1.mp base circles, (chains ⟨3⟩ rfl).2.2 circles⟩

/-- A pointer made from itself. -/
def offsetOfItself : Procedure where
  name := "itself"
  blockNames := #[none]
  insts := #[⟨.ptrOffset ⟨0⟩ 0, some ⟨0⟩⟩, ⟨.ret none, none⟩]
  values := #[.result ⟨0⟩]
  layout := .ofRows [⟨⟨0⟩, [⟨0⟩, ⟨1⟩]⟩]

theorem Procedure.offsetOfItself_has_no_base :
    offsetOfItself.Accepted ∧ offsetOfItself.hasValue ⟨0⟩ = true ∧ ¬offsetOfItself.HasBase ⟨0⟩ ∧
      (∀ fuel offset, offsetOfItself.traceBack fuel ⟨0⟩ offset = .error .diverges) ∧
      Oracle.byObject.constant offsetOfItself ⟨⟨0⟩, some 8⟩ false = .error .diverges := by
  have circles : offsetOfItself.Circles ⟨0⟩ := ⟨⟨0⟩, .refl, .single ⟨0, ⟨0⟩, rfl, rfl⟩⟩
  refine ⟨⟨⟨offsetOfItself, some ⟨0⟩⟩, ?_, rfl⟩, rfl, circles.not_hasBase,
    fun _ _ => circles.traceBack, by decide⟩
  exact .append (.ret none)
    (.append (.ptrOffset ⟨0⟩ 0) (.select ⟨0⟩ (.addBlock none (.start "itself") rfl)) rfl) rfl

end MemoryFlow
