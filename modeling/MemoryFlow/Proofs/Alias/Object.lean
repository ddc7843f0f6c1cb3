import MemoryFlow.Alias.Object
import MemoryFlow.Proofs.Procedure.Layout
import Mathlib.Data.Int.ConditionallyCompleteOrder
import Mathlib.Logic.Relation
import Mathlib.Order.CompletePartialOrder
import Mathlib.Order.ConditionallyCompleteLattice.Basic
import Mathlib.Order.WellFounded

/-! # Objects in memory

A `Placement` gives addresses to the values of a procedure and bytes to its slots and globals.
Tracing a pointer back finds a base that it lies a known distance from, if the distance is not lost
(`derivation_sound`), and what the oracle that reasons by objects says of two locations is borne out
by the bytes accessed through them (`byObject_overlaps_hold`).
-/

namespace MemoryFlow

namespace Procedure

open Relation (ReflTransGen TransGen)

variable {p : Procedure} {value base : Value}

/-- Whether `value` is `base` moved by `delta` bytes. -/
def IsOffset (p : Procedure) (value base : Value) (delta : Int) : Prop :=
  ∃ inst, p.origin value = .ok (.result inst) ∧ p.op inst = .ok (.ptrOffset base delta)

def OffsetOf (p : Procedure) (value base : Value) : Prop :=
  ∃ delta, p.IsOffset value base delta

/-- Whether the chain of offsets from `value` back comes to a value that it comes back to. -/
def Circles (p : Procedure) (value : Value) : Prop :=
  ∃ c, ReflTransGen p.OffsetOf value c ∧ TransGen p.OffsetOf c c

/-- Whether fixed offsets lead from `base` to `value`, over `sum` bytes in all. -/
inductive Derives (p : Procedure) : Value → Value → Int → Prop where
  | here (value : Value) : Derives p value value 0
  | offset {value next base : Value} {delta sum : Int} :
      p.IsOffset value next delta → Derives p next base sum → Derives p value base (sum + delta)

/-- Whether what values come from is there to be looked up. -/
structure Closed (p : Procedure) : Prop where
  insts : ∀ value inst, p.origin value = .ok (.result inst) → ∃ op, p.op inst = .ok op
  bases : ∀ value base delta, p.IsOffset value base delta → p.hasValue base = true

theorem exists_origin (known : p.hasValue value = true) :
    ∃ origin, p.origin value = .ok origin := by
  have bound : value.index < p.values.size := by simpa [hasValue] using known
  rw [origin, Array.getElem?_eq_getElem bound]
  exact ⟨_, rfl⟩

theorem addOffset_eq_some {i j k : Int} (added : addOffset i j = some k) : k = i + j := by
  rw [addOffset] at added
  split at added
  · exact (Option.some.inj added).symm
  · cases added

/-- A step of tracing back: either the base is reached, or the pointer is an offset of the next
one. -/
theorem traceBack_cases {fuel : Nat} {offset : Option Int} {d : Derivation}
    (traced : p.traceBack (fuel + 1) value offset = .ok d) :
    (d = ⟨value, offset⟩ ∧ (∀ next, ¬p.OffsetOf value next) ∧
      ∃ object, p.objectOf value = .ok object) ∨
      ∃ next delta, p.IsOffset value next delta ∧
        p.traceBack fuel next (offset.bind (addOffset · delta)) = .ok d := by
  obtain ⟨origin, comes, traced⟩ := bind_eq_ok.mp traced
  cases origin with
  | parameter index =>
      refine .inl ⟨(Except.ok.inj traced).symm, ?_, .parameter, ?_⟩
      · rintro next ⟨delta, inst, comes', _⟩
        cases comes.symm.trans comes'
      · rw [objectOf, comes]
        rfl
  | result inst =>
      obtain ⟨op, known, traced⟩ := bind_eq_ok.mp traced
      cases op with
      | ptrOffset next delta => exact .inr ⟨next, delta, ⟨inst, comes, known⟩, traced⟩
      | _ =>
          refine .inl ⟨(Except.ok.inj traced).symm, ?_, ?_⟩
          · rintro next ⟨delta, inst', comes', known'⟩
            cases comes.symm.trans comes'
            cases known.symm.trans known'
          · rw [objectOf, comes, ok_bind]
            dsimp only
            rw [known]
            exact ⟨_, rfl⟩

theorem traceBack_sound {fuel : Nat} {offset : Option Int} {d : Derivation}
    (traced : p.traceBack fuel value offset = .ok d) :
    (∃ object, p.objectOf d.base = .ok object) ∧
      ∃ sum, p.Derives value d.base sum ∧ ∀ k ∈ d.offset, ∃ j ∈ offset, k = j + sum := by
  induction fuel generalizing value offset with
  | zero => cases traced
  | succ fuel ih =>
      rcases traceBack_cases traced with ⟨rfl, _, object⟩ | ⟨next, delta, moved, traced⟩
      · exact ⟨object, 0, .here value, fun k held => ⟨k, held, by simp⟩⟩
      · obtain ⟨object, sum, derives, total⟩ := ih traced
        refine ⟨object, sum + delta, .offset moved derives, fun k held => ?_⟩
        obtain ⟨j, gathered, rfl⟩ := total k held
        obtain ⟨i, before, added⟩ := Option.bind_eq_some_iff.mp gathered
        exact ⟨i, before, by rw [addOffset_eq_some added]; omega⟩

/-- A pointer lies as far from its base as is said, and the base is of a known kind. -/
theorem derivation_sound {ptr : Value} {d : Derivation} (traced : p.derivation ptr = .ok d) :
    (∃ object, p.objectOf d.base = .ok object) ∧
      ∃ sum, p.Derives ptr d.base sum ∧ ∀ k ∈ d.offset, k = sum := by
  obtain ⟨object, sum, derives, total⟩ := traceBack_sound traced
  refine ⟨object, sum, derives, fun k held => ?_⟩
  obtain ⟨j, zero, rfl⟩ := total k held
  cases zero
  omega

theorem Circles.of_step (moved : p.OffsetOf value base) (circles : p.Circles base) :
    p.Circles value := by
  obtain ⟨c, way, circle⟩ := circles
  exact ⟨c, .head moved way, circle⟩

/-- Tracing back ends where the chain of offsets does not come back: the values passed are all
different, so there are no more of them than the procedure has. -/
theorem traceBack_total (closed : p.Closed) (free : ¬p.Circles value) {fuel : Nat}
    (passed : List Value) (distinct : passed.Nodup) (all : ∀ x ∈ passed, p.hasValue x = true)
    (leads : ∀ x ∈ passed, TransGen p.OffsetOf x value)
    (enough : p.values.size + 1 ≤ fuel + passed.length) (known : p.hasValue value = true)
    (offset : Option Int) : ∃ d, p.traceBack fuel value offset = .ok d := by
  induction fuel generalizing value passed offset with
  | zero =>
      have few := Entity.length_le distinct fun x member => by simpa [hasValue] using all x member
      omega
  | succ fuel ih =>
      obtain ⟨origin, comes⟩ := exists_origin known
      rw [traceBack, comes, ok_bind]
      cases origin with
      | parameter => exact ⟨_, rfl⟩
      | result inst =>
          obtain ⟨op, told⟩ := closed.insts value inst comes
          dsimp only
          rw [told, ok_bind]
          cases op with
          | ptrOffset next delta =>
              have moved : p.IsOffset value next delta := ⟨inst, comes, told⟩
              have fresh : value ∉ passed := fun member => free ⟨value, .refl, leads value member⟩
              refine ih (fun circles => free (circles.of_step ⟨delta, moved⟩)) (value :: passed)
                (List.nodup_cons.mpr ⟨fresh, distinct⟩) (List.forall_mem_cons.mpr ⟨known, all⟩)
                (List.forall_mem_cons.mpr ⟨.single ⟨delta, moved⟩, fun x member => ?_⟩)
                (by simp only [List.length_cons]; omega) (closed.bases value next delta moved) _
              exact (leads x member).tail ⟨delta, moved⟩
          | _ => exact ⟨_, rfl⟩

theorem derivation_total (closed : p.Closed) {ptr : Value} (free : ¬p.Circles ptr)
    (known : p.hasValue ptr = true) : ∃ d, p.derivation ptr = .ok d :=
  traceBack_total closed free [] List.nodup_nil (by simp) (by simp) (by simp) known (some 0)

theorem not_circles_of_wellFounded
    (ends : WellFounded fun base value => ∃ delta, p.IsOffset value base delta) (value : Value) :
    ¬p.Circles value := by
  rintro ⟨c, _, circle⟩
  exact ends.transGen.irrefl.irrefl c (Relation.transGen_swap.mp circle)

end Procedure

/-- Memory that is set aside: the slot that an instruction reserves, told by its result, or a
global. -/
inductive Region where
  | slot (result : Value)
  | global (global : Global)
  deriving DecidableEq, Repr

/-- Whether a value is the address of a region. -/
inductive Procedure.Addresses (p : Procedure) : Value → Region → Prop where
  | slot {value : Value} {inst : Inst} {size : Nat} :
      p.origin value = .ok (.result inst) → p.op inst = .ok (.alloca size) →
      p.Addresses value (.slot value)
  | global {value : Value} {inst : Inst} {global : Global} :
      p.origin value = .ok (.result inst) → p.op inst = .ok (.globalAddr global) →
        p.Addresses value (.global global)

def Procedure.IsParameter (p : Procedure) (value : Value) : Prop :=
  ∃ index, p.origin value = .ok (.parameter index)

namespace Procedure

variable {p : Procedure} {v w u : Value} {r s : Region}

theorem Addresses.unique (first : p.Addresses v r) (second : p.Addresses v s) : r = s := by
  cases first <;> cases second <;> simp_all

theorem Addresses.not_isParameter (addresses : p.Addresses v r) : ¬p.IsParameter v := by
  rintro ⟨index, comes⟩
  cases addresses <;> simp_all

theorem Addresses.fixed (addresses : p.Addresses v r) (next : Value) (delta : Int) :
    ¬p.IsOffset v next delta := by
  rintro ⟨inst, comes, known⟩
  cases addresses <;> simp_all

theorem IsParameter.fixed (parameter : p.IsParameter v) (next : Value) (delta : Int) :
    ¬p.IsOffset v next delta := by
  rintro ⟨inst, comes, known⟩
  obtain ⟨index, comes'⟩ := parameter
  simp_all

theorem IsOffset.unique {i j : Int} (first : p.IsOffset v w i) (second : p.IsOffset v u j) :
    w = u := by
  obtain ⟨inst, comes, known⟩ := first
  obtain ⟨inst', comes', known'⟩ := second
  simp_all

/-- Offsets lead back to no more than one value that is not made by an offset. -/
theorem Derives.eq_of_fixed {i j : Int} (first : p.Derives v w i) (second : p.Derives v u j)
    (fixedW : ∀ next delta, ¬p.IsOffset w next delta)
    (fixedU : ∀ next delta, ¬p.IsOffset u next delta) :
    w = u := by
  induction first generalizing j with
  | here =>
      cases second with
      | here => rfl
      | offset moved => exact absurd moved (fixedW _ _)
  | offset moved _ ih =>
      cases second with
      | here => exact absurd moved (fixedU _ _)
      | offset moved' derives =>
          obtain rfl := moved.unique moved'
          exact ih derives fixedW

end Procedure

/-- Whether a base is of the kind told by an object. -/
def Procedure.IsKind (p : Procedure) (base : Value) : MemoryObject → Prop
  | .slot _ => p.Addresses base (.slot base)
  | .global global => p.Addresses base (.global global)
  | .parameter => p.IsParameter base
  | .unknown => True

theorem Procedure.objectOf_isKind {p : Procedure} {base : Value} {object : MemoryObject}
    (told : p.objectOf base = .ok object) : p.IsKind base object := by
  obtain ⟨origin, comes, told⟩ := bind_eq_ok.mp told
  cases origin with
  | parameter index =>
      cases told
      exact ⟨index, comes⟩
  | result inst =>
      obtain ⟨op, known, told⟩ := bind_eq_ok.mp told
      cases op with
      | alloca =>
          cases told
          exact .slot comes known
      | globalAddr =>
          cases told
          exact .global comes known
      | _ =>
          cases told
          trivial

/-- The bytes of a location: from its start on, up to its end if its length is known. -/
def Location.span (address : Value → Int) (loc : Location) : Set Int :=
  {byte | address loc.ptr ≤ byte ∧ ∀ size ∈ loc.size, byte < address loc.ptr + size}

/-- Whether `high` starts after `low` and before the end of it. -/
def Location.StartsInside (address : Value → Int) (high low : Location) : Prop :=
  address low.ptr < address high.ptr ∧ ∃ size, low.size = some size ∧
    address high.ptr < address low.ptr + size

/-- An address for each value of a procedure, and bytes for each region. -/
structure Placement (p : Procedure) where
  address : Value → Int
  start : Region → Int
  length : Region → Nat
  /-- No two regions share a byte. -/
  apart : ∀ r s, r ≠ s →
    Disjoint (Set.Ico (start r) (start r + length r)) (Set.Ico (start s) (start s + length s))
  addresses : ∀ value region, p.Addresses value region → address value = start region
  offsets : ∀ value base delta, p.IsOffset value base delta → address value = address base + delta

namespace Placement

variable {p : Procedure} (m : Placement p)

def bytes (region : Region) : Set Int :=
  Set.Ico (m.start region) (m.start region + m.length region)

/-- Whether `byte` may be accessed through `ptr`: it is in the region that `ptr` is derived from,
and in no slot if `ptr` is derived from a parameter. -/
structure Allows (ptr : Value) (byte : Int) : Prop where
  inside : ∀ base sum region, p.Derives ptr base sum → p.Addresses base region →
    byte ∈ m.bytes region
  outside : ∀ base sum result, p.Derives ptr base sum → p.IsParameter base →
    byte ∉ m.bytes (.slot result)

/-- Whether the bytes `touched` may be what an access to `loc` touches. -/
def Accesses (loc : Location) (touched : Set Int) : Prop :=
  ∀ byte ∈ touched, byte ∈ loc.span m.address ∧ m.Allows loc.ptr byte

/-- Whether what is said of two locations is true of the bytes `x` and `y` accessed in them. -/
def Bears (a b : Location) (x y : Set Int) : Overlap → Prop
  | .disjoint => Disjoint x y
  | .possible => True
  | .shifted => b.StartsInside m.address a ∨ a.StartsInside m.address b
  | .same => m.address a.ptr = m.address b.ptr

variable {m} {a b : Location} {x y : Set Int} {v w : Value}

theorem address_of_derives {sum : Int} (derives : p.Derives v w sum) :
    m.address v = m.address w + sum := by
  induction derives with
  | here => simp
  | offset moved _ ih =>
      rw [m.offsets _ _ _ moved, ih]
      omega

theorem allows_of_region {base : Value} {sum : Int} {region : Region} {byte : Int}
    (derives : p.Derives v base sum) (addresses : p.Addresses base region)
    (inside : byte ∈ m.bytes region) : m.Allows v byte where
  inside base' sum' region' derives' addresses' := by
    obtain rfl := derives.eq_of_fixed derives' addresses.fixed addresses'.fixed
    rwa [← addresses.unique addresses']
  outside base' sum' result derives' parameter := by
    obtain rfl := derives.eq_of_fixed derives' addresses.fixed parameter.fixed
    exact absurd parameter addresses.not_isParameter

theorem Bears.symm {r : Overlap} (bears : m.Bears b a y x r) : m.Bears a b x y r := by
  cases r with
  | disjoint => exact Disjoint.symm bears
  | possible => trivial
  | shifted => exact Or.symm bears
  | same => exact Eq.symm bears

/-- The location that starts first is compared, by its length, with the distance to the other. -/
theorem bears_of_lower {gap : Nat} (hx : m.Accesses a x) (hy : m.Accesses b y)
    (place : m.address b.ptr = m.address a.ptr + gap) (apart : 0 < gap) :
    m.Bears a b x y (match a.size with
      | none => .possible
      | some size => if size ≤ gap then .disjoint else .shifted) := by
  cases known : a.size with
  | none => trivial
  | some size =>
      dsimp only
      split
      · refine Set.disjoint_left.mpr fun byte inX inY => ?_
        have below := (hx byte inX).1.2 size known
        have above := (hy byte inY).1.1
        omega
      · exact .inl ⟨by omega, size, known, by omega⟩

theorem overlapInObject_bears (start : Int) {i j : Option Int} (hx : m.Accesses a x)
    (hy : m.Accesses b y) (fromA : ∀ k ∈ i, m.address a.ptr = start + k)
    (fromB : ∀ k ∈ j, m.address b.ptr = start + k) :
    m.Bears a b x y (overlapInObject a b i j) := by
  match i, j with
  | none, _ | some _, none => trivial
  | some i, some j =>
      have placeA : m.address a.ptr = start + i := fromA i rfl
      have placeB : m.address b.ptr = start + j := fromB j rfl
      rw [overlapInObject]
      split
      · rename_i equal
        change m.address a.ptr = m.address b.ptr
        rw [placeA, placeB, equal]
      · rename_i differ
        by_cases first : i < j
        · rw [if_pos first]
          exact bears_of_lower hx hy (by omega) (by omega)
        · rw [if_neg first]
          exact (bears_of_lower hy hx (by omega) (by omega)).symm

theorem disjoint_of_regions {r s : Region} {i j : Int} (hx : m.Accesses a x) (hy : m.Accesses b y)
    (derivesA : p.Derives a.ptr v i) (derivesB : p.Derives b.ptr w j) (regionA : p.Addresses v r)
    (regionB : p.Addresses w s) (differ : r ≠ s) : Disjoint x y := by
  refine Set.disjoint_left.mpr fun byte inX inY => ?_
  have inA := (hx byte inX).2.inside _ _ _ derivesA regionA
  have inB := (hy byte inY).2.inside _ _ _ derivesB regionB
  exact Set.disjoint_left.mp (m.apart r s differ) inA inB

theorem disjoint_of_parameter {i j : Int} (hx : m.Accesses a x) (hy : m.Accesses b y)
    (derivesA : p.Derives a.ptr v i) (derivesB : p.Derives b.ptr w j)
    (slot : p.Addresses v (.slot v)) (parameter : p.IsParameter w) : Disjoint x y := by
  refine Set.disjoint_left.mpr fun byte inX inY => ?_
  have inA := (hx byte inX).2.inside _ _ _ derivesA slot
  exact (hy byte inY).2.outside _ _ _ derivesB parameter inA

theorem overlapAcross_bears {objectA objectB : MemoryObject} {i j : Int} (hx : m.Accesses a x)
    (hy : m.Accesses b y) (derivesA : p.Derives a.ptr v i) (derivesB : p.Derives b.ptr w j)
    (kindA : p.IsKind v objectA) (kindB : p.IsKind w objectB) (differ : v ≠ w)
    (other : objectA.isSameGlobal objectB = false) :
    m.Bears a b x y (overlapAcross objectA objectB) := by
  have regions := fun r s => disjoint_of_regions (r := r) (s := s) hx hy derivesA derivesB
  cases objectA with
  | slot =>
      cases objectB with
      | slot => exact regions _ _ kindA kindB (by simpa using differ)
      | global => exact regions _ _ kindA kindB (by simp)
      | parameter => exact disjoint_of_parameter hx hy derivesA derivesB kindA kindB
      | unknown => trivial
  | global =>
      cases objectB with
      | slot => exact regions _ _ kindA kindB (by simp)
      | global => exact regions _ _ kindA kindB (by simpa [MemoryObject.isSameGlobal] using other)
      | parameter | unknown => trivial
  | parameter =>
      cases objectB with
      | slot => exact (disjoint_of_parameter hy hx derivesB derivesA kindB kindA).symm
      | global | parameter | unknown => trivial
  | unknown => cases objectB <;> trivial

end Placement

theorem Oracle.byObject_overlap_cases {p : Procedure} {a b : Location} {r : Overlap}
    (told : byObject.overlap p a b = .ok r) :
    a.ptr = b.ptr ∧ r = .same ∨
      ∃ x y objectA objectB, p.derivation a.ptr = .ok x ∧ p.derivation b.ptr = .ok y ∧
        p.objectOf x.base = .ok objectA ∧ p.objectOf y.base = .ok objectB ∧
        r = if x.base = y.base ∨ objectA.isSameGlobal objectB
          then overlapInObject a b x.offset y.offset else overlapAcross objectA objectB := by
  unfold byObject at told
  dsimp only at told
  split at told
  · rename_i same
    exact .inl ⟨same, (Except.ok.inj told).symm⟩
  · obtain ⟨x, tracedA, told⟩ := bind_eq_ok.mp told
    obtain ⟨y, tracedB, told⟩ := bind_eq_ok.mp told
    obtain ⟨objectA, kindA, told⟩ := bind_eq_ok.mp told
    obtain ⟨objectB, kindB, told⟩ := bind_eq_ok.mp told
    refine .inr ⟨x, y, objectA, objectB, tracedA, tracedB, kindA, kindB, ?_⟩
    split at told
    · rename_i same
      rw [if_pos same]
      exact (Except.ok.inj told).symm
    · rename_i other
      rw [if_neg other]
      exact (Except.ok.inj told).symm

theorem Oracle.byObject_overlap_total {p : Procedure} {a b : Location} (closed : p.Closed)
    (ends : WellFounded fun base value => ∃ delta, p.IsOffset value base delta)
    (knownA : p.hasValue a.ptr = true) (knownB : p.hasValue b.ptr = true) :
    ∃ r, byObject.overlap p a b = .ok r := by
  obtain ⟨x, tracedA⟩ :=
    Procedure.derivation_total closed (Procedure.not_circles_of_wellFounded ends _) knownA
  obtain ⟨y, tracedB⟩ :=
    Procedure.derivation_total closed (Procedure.not_circles_of_wellFounded ends _) knownB
  obtain ⟨⟨objectA, kindA⟩, _⟩ := Procedure.derivation_sound tracedA
  obtain ⟨⟨objectB, kindB⟩, _⟩ := Procedure.derivation_sound tracedB
  unfold byObject
  dsimp only
  rw [tracedA, tracedB, ok_bind, ok_bind, kindA, kindB, ok_bind, ok_bind]
  split_ifs <;> exact ⟨_, rfl⟩

namespace Placement

variable {p : Procedure} {a b : Location} {x y : Set Int}

theorem address_of_same_object (m : Placement p) {v w : Value} {objectA objectB : MemoryObject}
    (kindA : p.IsKind v objectA) (kindB : p.IsKind w objectB)
    (same : v = w ∨ objectA.isSameGlobal objectB = true) : m.address v = m.address w := by
  rcases same with rfl | same
  · rfl
  · cases objectA with
    | global g =>
        cases objectB with
        | global g' =>
            obtain rfl : g = g' := by simpa [MemoryObject.isSameGlobal] using same
            rw [m.addresses v _ kindA, m.addresses w _ kindB]
        | _ => cases same
    | _ => cases same

theorem byObject_bears (m : Placement p) (hx : m.Accesses a x) (hy : m.Accesses b y) {r : Overlap}
    (told : Oracle.byObject.overlap p a b = .ok r) : m.Bears a b x y r := by
  rcases Oracle.byObject_overlap_cases told with
    ⟨same, rfl⟩ | ⟨d, e, objectA, objectB, tracedA, tracedB,
    toldA, toldB, rfl⟩
  · exact congrArg m.address same
  · obtain ⟨_, i, derivesA, distanceA⟩ := Procedure.derivation_sound tracedA
    obtain ⟨_, j, derivesB, distanceB⟩ := Procedure.derivation_sound tracedB
    have kindA := Procedure.objectOf_isKind toldA
    have kindB := Procedure.objectOf_isKind toldB
    split
    · rename_i same
      have start : m.address d.base = m.address e.base := m.address_of_same_object kindA kindB same
      refine overlapInObject_bears (m.address d.base) hx hy (fun k held => ?_) fun k held => ?_
      · rw [address_of_derives derivesA, distanceA k held]
      · rw [start, address_of_derives derivesB, distanceB k held]
    · rename_i other
      rw [not_or, Bool.not_eq_true] at other
      exact overlapAcross_bears hx hy derivesA derivesB kindA kindB other.1 other.2

/-- Wherever values and regions are placed, what the oracle that reasons by objects says of two
locations is true of the bytes accessed in them. It has something to say of all locations of a
procedure in which no chain of offsets goes on forever. -/
theorem byObject_overlaps_hold
    (ends : WellFounded fun base value => ∃ delta, p.IsOffset value base delta) (m : Placement p)
    (hx : m.Accesses a x) (hy : m.Accesses b y) :
    (p.Closed → p.hasValue a.ptr = true → p.hasValue b.ptr = true →
      ∃ r, Oracle.byObject.overlap p a b = .ok r) ∧
      ∀ r, Oracle.byObject.overlap p a b = .ok r → m.Bears a b x y r :=
  ⟨fun closed knownA knownB => Oracle.byObject_overlap_total closed ends knownA knownB,
    fun _ told => m.byObject_bears hx hy told⟩

end Placement

/-- Two slots, a pointer into the first of them, and two pointers to one constant global. -/
def pointers : Procedure where
  name := "pointers"
  params := [⟨0⟩]
  blockNames := #[none]
  insts := #[⟨.alloca 16, some ⟨1⟩⟩, ⟨.alloca 16, some ⟨2⟩⟩, ⟨.ptrOffset ⟨1⟩ 8, some ⟨3⟩⟩,
    ⟨.globalAddr ⟨0⟩, some ⟨4⟩⟩, ⟨.globalAddr ⟨0⟩, some ⟨5⟩⟩,
    ⟨.store ⟨3⟩ ⟨0⟩ 8 ⟨false, false, .notAtomic⟩, none⟩,
    ⟨.load ⟨4⟩ 8 ⟨false, false, .notAtomic⟩, some ⟨6⟩⟩, ⟨.call ⟨0⟩ [⟨1⟩], some ⟨7⟩⟩,
    ⟨.call ⟨1⟩ [], some ⟨8⟩⟩, ⟨.ret none, none⟩]
  values :=
    #[.parameter 0, .result ⟨0⟩, .result ⟨1⟩, .result ⟨2⟩, .result ⟨3⟩, .result ⟨4⟩, .result ⟨6⟩,
      .result ⟨7⟩, .result ⟨8⟩]
  callees := #[⟨"fill", .accessesArguments⟩, ⟨"look", .reads⟩]
  globals := #[⟨"table", 16, true⟩]
  layout := .ofRows [⟨⟨0⟩, [⟨0⟩, ⟨1⟩, ⟨2⟩, ⟨3⟩, ⟨4⟩, ⟨5⟩, ⟨6⟩, ⟨7⟩, ⟨8⟩, ⟨9⟩]⟩]

theorem pointers_isOffset {v w : Value} {delta : Int} (moved : pointers.IsOffset v w delta) :
    v = ⟨3⟩ ∧ w = ⟨1⟩ ∧ delta = 8 := by
  obtain ⟨inst, comes, known⟩ := moved
  obtain ⟨_ | _ | _ | _ | _ | _ | _ | _ | _ | v⟩ := v <;> cases comes <;> cases known
  exact ⟨rfl, rfl, rfl⟩

theorem pointers_addresses {v : Value} {r : Region} (addresses : pointers.Addresses v r) :
    (v, r) ∈ [((⟨1⟩ : Value), Region.slot ⟨1⟩), (⟨2⟩, .slot ⟨2⟩), (⟨4⟩, .global ⟨0⟩),
      (⟨5⟩, .global ⟨0⟩)] := by
  cases addresses with
  | slot comes known | global comes known =>
      obtain ⟨_ | _ | _ | _ | _ | _ | _ | _ | _ | v⟩ := v <;> cases comes <;> cases known <;> simp

theorem pointers_ends :
    WellFounded fun base value => ∃ delta, pointers.IsOffset value base delta := by
  refine Subrelation.wf (fun {base value} moved => ?_) (measure Entity.index).wf
  obtain ⟨delta, moved⟩ := moved
  obtain ⟨rfl, rfl, _⟩ := pointers_isOffset moved
  exact (by decide : 1 < 3)

/-- The slots lie side by side, and the global further up. -/
def pointersPlaced : Placement pointers where
  address value := [500, 0, 16, 8, 100, 100].getD value.index 0
  start
    | .slot result => 16 * (result.index - 1)
    | .global _ => 100
  length
    | .slot result => if result = ⟨1⟩ ∨ result = ⟨2⟩ then 16 else 0
    | .global global => if global = ⟨0⟩ then 16 else 0
  apart r s differ := by
    refine Set.disjoint_left.mpr fun byte inR inS => ?_
    rcases r with ⟨⟨i⟩⟩ | ⟨⟨i⟩⟩ <;> rcases s with ⟨⟨j⟩⟩ | ⟨⟨j⟩⟩ <;>
      simp only [Set.mem_Ico, Entity.mk.injEq, ne_eq, Region.slot.injEq, Region.global.injEq]
        at inR inS differ <;>
      split_ifs at inR inS <;> omega
  addresses value region addresses := by
    have known := pointers_addresses addresses
    simp only [List.mem_cons, Prod.mk.injEq, List.not_mem_nil, or_false] at known
    rcases known with ⟨rfl, rfl⟩ | ⟨rfl, rfl⟩ | ⟨rfl, rfl⟩ | ⟨rfl, rfl⟩ <;> rfl
  offsets value base delta moved := by
    obtain ⟨rfl, rfl, rfl⟩ := pointers_isOffset moved
    rfl

theorem pointers_slot : pointers.Addresses ⟨1⟩ (.slot ⟨1⟩) :=
  @Procedure.Addresses.slot _ _ ⟨0⟩ 16 rfl rfl

theorem pointers_closed : pointers.Closed where
  insts value inst comes := by
    obtain ⟨_ | _ | _ | _ | _ | _ | _ | _ | _ | value⟩ := value <;> cases comes <;> exact ⟨_, rfl⟩
  bases value base delta moved := by
    obtain ⟨_, rfl, _⟩ := pointers_isOffset moved
    rfl

theorem Placement.byObject_overlaps_hold_pointers :
    pointersPlaced.Accesses ⟨⟨1⟩, some 16⟩ (Set.Ico 0 16) ∧
      pointersPlaced.Accesses ⟨⟨3⟩, none⟩ (Set.Ico 8 12) ∧
      ∃ r, Oracle.byObject.overlap pointers ⟨⟨1⟩, some 16⟩ ⟨⟨3⟩, none⟩ = .ok r ∧ r = .shifted ∧
        pointersPlaced.Bears ⟨⟨1⟩, some 16⟩ ⟨⟨3⟩, none⟩ (Set.Ico 0 16) (Set.Ico 8 12) r := by
  have whole : pointersPlaced.Accesses ⟨⟨1⟩, some 16⟩ (Set.Ico 0 16) := by
    rintro byte ⟨low, high⟩
    exact ⟨⟨low, fun size known => by cases known; exact high⟩,
      allows_of_region (.here _) pointers_slot ⟨low, high⟩⟩
  have part : pointersPlaced.Accesses ⟨⟨3⟩, none⟩ (Set.Ico 8 12) := by
    rintro byte ⟨low, high⟩
    refine ⟨⟨low, nofun⟩, allows_of_region (.offset ⟨⟨2⟩, rfl, rfl⟩ (.here _)) pointers_slot ?_⟩
    exact ⟨by change (0 : Int) ≤ byte; omega, by change byte < (16 : Int); omega⟩
  obtain ⟨answers, holds⟩ := byObject_overlaps_hold pointers_ends pointersPlaced whole part
  obtain ⟨r, told⟩ := answers pointers_closed rfl rfl
  refine ⟨whole, part, r, told, ?_, holds r told⟩
  have computed : Oracle.byObject.overlap pointers ⟨⟨1⟩, some 16⟩ ⟨⟨3⟩, none⟩ = .ok .shifted := by
    decide
  exact Except.ok.inj (told.symm.trans computed)

end MemoryFlow
