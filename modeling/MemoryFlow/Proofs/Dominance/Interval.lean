import Mathlib.Data.List.Nodup
import MemoryFlow.Dominance.Tree
import MemoryFlow.Proofs.Basic
import MemoryFlow.Proofs.Dominance.Ancestor

/-! # Intervals around a tree

A walk around a tree comes to each vertex once and leaves it once, and in between goes around what
is below it. The interval of a vertex therefore lies in that of another exactly when the other is
above it, and those of siblings come one after the other. The tree is given by the parent of each
vertex; the walk sees only the lists of children.
-/

namespace MemoryFlow.Tree

def Walk.first (w : Walk) (v : Nat) : Nat :=
  (w.spans.getD v (0, 0)).1

def Walk.last (w : Walk) (v : Nat) : Nat :=
  (w.spans.getD v (0, 0)).2

/-- Whether each of some vertices is left before the next is come to. -/
def Walk.InTurn (w : Walk) (l : List Nat) : Prop :=
  l.Pairwise fun c d => w.last c < w.first d

/-- Whether the lists of children belong to a tree over the first `size` numbers. -/
structure ChildLists (parent : Nat → Nat) (size : Nat) (children : Array (List Nat)) : Prop where
  decreasing : ∀ v, 0 < v → parent v < v
  mem : ∀ v c, v < size → (c ∈ children.getD v [] ↔ 0 < c ∧ c < size ∧ parent c = v)
  nodup : ∀ v, (children.getD v []).Nodup

/-- What a walk around the subtrees of `roots` has done. -/
structure Walked (parent : Nat → Nat) (size : Nat) (children : Array (List Nat)) (roots : List Nat)
    (w w' : Walk) : Prop where
  size_eq : w'.spans.size = w.spans.size
  time_le : w.time ≤ w'.time
  outside : ∀ x, (∀ r ∈ roots, ¬Ancestor parent r x) →
    w'.spans.getD x (0, 0) = w.spans.getD x (0, 0)
  inside : ∀ x, x < size → ∀ r ∈ roots, Ancestor parent r x →
    w.time ≤ w'.first x ∧ w'.first x < w'.last x ∧ w'.last x < w'.time
  /-- An interval lies in another exactly when the other belongs to a vertex above. -/
  nested : ∀ x y, x < size → y < size → (∃ r ∈ roots, Ancestor parent r x) →
    (∃ r ∈ roots, Ancestor parent r y) →
    (w'.first y ≤ w'.first x ∧ w'.last x ≤ w'.last y ↔ Ancestor parent y x)
  order : w'.InTurn roots
  /-- A vertex is come to before its children, and these are gone around in turn. -/
  turns : ∀ x, x < size → (∃ r ∈ roots, Ancestor parent r x) →
    (∀ c ∈ children.getD x [], w'.first x < w'.first c) ∧ w'.InTurn (children.getD x [])

variable {parent : Nat → Nat} {size c v x : Nat} {roots l : List Nat} {w w' w'' : Walk}
  {children : Array (List Nat)}

theorem Walk.InTurn.congr (turns : w.InTurn l)
    (same : ∀ x ∈ l, w'.first x = w.first x ∧ w'.last x = w.last x) : w'.InTurn l := by
  refine turns.imp_of_mem fun {c d} memberC memberD before => ?_
  rw [(same c memberC).2, (same d memberD).1]
  exact before

theorem ChildLists.child (ch : ChildLists parent size children) (inside : v < size)
    (member : c ∈ children.getD v []) : Ancestor parent v c ∧ v < c := by
  obtain ⟨positive, _, up⟩ := (ch.mem v c inside).mp member
  exact ⟨.up positive (up ▸ .self), up ▸ ch.decreasing c positive⟩

theorem Walked.nil : Walked parent size children [] w w :=
  ⟨rfl, Nat.le_refl _, fun _ _ => rfl, by simp, by simp, .nil, by simp⟩

theorem Walked.cons (ch : ChildLists parent size children)
    (first : Walked parent size children [c] w w')
    (rest : Walked parent size children roots w' w'') (inside : ∀ r ∈ c :: roots, r < size)
    (apart : ∀ x, Ancestor parent c x → ∀ r ∈ roots, ¬Ancestor parent r x) :
    Walked parent size children (c :: roots) w w'' := by
  -- the intervals of the first subtree are left alone by the rest of the walk
  have keep : ∀ x, Ancestor parent c x →
      w''.first x = w'.first x ∧ w''.last x = w'.last x := by
    intro x below
    have same := rest.outside x (apart x below)
    exact ⟨congrArg Prod.fst same, congrArg Prod.snd same⟩
  have early : ∀ x, x < size → Ancestor parent c x →
      w.time ≤ w''.first x ∧ w''.first x < w''.last x ∧ w''.last x < w'.time := by
    intro x small below
    rw [(keep x below).1, (keep x below).2]
    exact first.inside x small c (List.mem_singleton_self c) below
  have late := rest.inside
  have times := rest.time_le
  refine ⟨rest.size_eq.trans first.size_eq, Nat.le_trans first.time_le times, ?_, ?_, ?_, ?_, ?_⟩
  · intro x off
    rw [rest.outside x (fun r member => off r (List.mem_cons_of_mem c member))]
    exact first.outside x (fun r member => List.mem_singleton.mp member ▸ off c List.mem_cons_self)
  · intro x small r member below
    rcases List.mem_cons.mp member with rfl | member
    · have := early x small below
      omega
    · have := late x small r member below
      have := first.time_le
      omega
  · intro x y smallX smallY belowX belowY
    simp only [List.mem_cons, exists_eq_or_imp] at belowX belowY
    rcases belowX with inX | ⟨r, memberX, inX⟩ <;> rcases belowY with inY | ⟨q, memberY, inY⟩
    · rw [(keep x inX).1, (keep x inX).2, (keep y inY).1, (keep y inY).2]
      exact first.nested x y smallX smallY ⟨c, by simp, inX⟩ ⟨c, by simp, inY⟩
    · have := early x smallX inX
      have := late y smallY q memberY inY
      refine iff_of_false (by omega) fun above => ?_
      exact apart x inX q memberY (inY.trans above)
    · have := late x smallX r memberX inX
      have := early y smallY inY
      refine iff_of_false (by omega) fun above => ?_
      exact apart x (inY.trans above) r memberX inX
    · exact rest.nested x y smallX smallY ⟨r, memberX, inX⟩ ⟨q, memberY, inY⟩
  · refine List.pairwise_cons.mpr ⟨fun r member => ?_, rest.order⟩
    have := early c (inside c List.mem_cons_self) .self
    have := late r (inside r (List.mem_cons_of_mem c member)) r member .self
    omega
  · intro x small below
    simp only [List.mem_cons, exists_eq_or_imp] at below
    rcases below with under | ⟨r, member, under⟩
    · obtain ⟨before, turns⟩ := first.turns x small ⟨c, by simp, under⟩
      have still : ∀ d ∈ children.getD x [], w''.first d = w'.first d ∧ w''.last d = w'.last d :=
        fun d child => keep d (under.trans (ch.child small child).1)
      refine ⟨fun d child => ?_, turns.congr still⟩
      rw [(keep x under).1, (still d child).1]
      exact before d child
    · exact rest.turns x small ⟨r, member, under⟩

theorem siblings_apart (decreasing : ∀ v, 0 < v → parent v < v) {a b : Nat} (other : a ≠ b)
    (positiveA : 0 < a) (positiveB : 0 < b) (same : parent a = parent b)
    (belowA : Ancestor parent a x) : ¬Ancestor parent b x := by
  intro belowB
  have lowA := decreasing a positiveA
  have lowB := decreasing b positiveB
  rcases Nat.le_total a b with order | order
  · have above := (belowA.of_le decreasing belowB order).of_ne other
    have := above.2.le decreasing
    omega
  · have above := (belowB.of_le decreasing belowA order).of_ne other.symm
    have := above.2.le decreasing
    omega

theorem ChildLists.foldl (ch : ChildLists parent size children) {visit : Walk → Nat → Walk}
    (one : ∀ w c, 0 < c → c < size → parent c = v → w.spans.size = size →
      Walked parent size children [c] w (visit w c))
    (cs : List Nat) (nodup : cs.Nodup) (mem : ∀ c ∈ cs, 0 < c ∧ c < size ∧ parent c = v) (w : Walk)
    (sized : w.spans.size = size) : Walked parent size children cs w (cs.foldl visit w) := by
  induction cs generalizing w with
  | nil => exact .nil
  | cons c cs ih =>
      obtain ⟨absent, nodup⟩ := List.nodup_cons.mp nodup
      obtain ⟨positive, small, up⟩ := mem c List.mem_cons_self
      have first := one w c positive small up sized
      have rest := ih nodup (fun d member => mem d (List.mem_cons_of_mem c member)) (visit w c)
        (first.size_eq.trans sized)
      refine first.cons ch rest (fun d member => (mem d member).2.1) ?_
      intro x below d member
      obtain ⟨positiveD, _, upD⟩ := mem d (List.mem_cons_of_mem c member)
      refine siblings_apart ch.decreasing ?_ positive positiveD (up.trans upD.symm) below
      rintro rfl
      exact absent member

theorem ChildLists.below (ch : ChildLists parent size children) (small : x < size)
    (inside : v < size) (below : Ancestor parent v x) (other : x ≠ v) :
    ∃ c ∈ children.getD v [], Ancestor parent c x := by
  induction below with
  | self => exact absurd rfl other
  | @up x positive above ih =>
      have lower := ch.decreasing x positive
      by_cases direct : parent x = v
      · exact ⟨x, (ch.mem v x inside).mpr ⟨positive, small, direct⟩, .self⟩
      · obtain ⟨c, member, below⟩ := ih (by omega) direct
        exact ⟨c, member, .up positive below⟩

/-- Where only the interval of a vertex is new and begins before those of its children, all below it
are still gone around in turn. -/
theorem Walked.turns_around (ch : ChildLists parent size children) (inside : v < size)
    (inner : Walked parent size children (children.getD v []) w w')
    (before : ∀ d ∈ children.getD v [], w''.first v < w'.first d)
    (still : ∀ d, d ≠ v → w''.first d = w'.first d ∧ w''.last d = w'.last d) (small : x < size)
    (below : Ancestor parent v x) :
    (∀ c ∈ children.getD x [], w''.first x < w''.first c) ∧ w''.InTurn (children.getD x []) := by
  have lower : ∀ d ∈ children.getD x [], d ≠ v := by
    intro d member
    have := (ch.child small member).2
    have := below.le ch.decreasing
    omega
  have turns : (∀ d ∈ children.getD x [], w''.first x < w'.first d) ∧
      w'.InTurn (children.getD x []) := by
    by_cases same : x = v
    · subst same
      exact ⟨before, inner.order⟩
    · rw [(still x same).1]
      exact inner.turns x small (ch.below small inside below same)
  refine ⟨fun d member => ?_, turns.2.congr fun d member => still d (lower d member)⟩
  rw [(still d (lower d member)).1]
  exact turns.1 d member

/-- A walk around what is below a vertex becomes a walk around the vertex when it is come to before
and left after. -/
theorem Walked.around (ch : ChildLists parent size children) (inside : v < size)
    (sized : w.spans.size = size)
    (inner : Walked parent size children (children.getD v []) (w.enter v) w') :
    Walked parent size children [v] w (w'.leave v) := by
  have child : ∀ c ∈ children.getD v [], Ancestor parent v c ∧ v < c := fun c => ch.child inside
  have entered : ∀ x, (w.enter v).spans.getD x (0, 0) =
      if x = v then (w.time, w.last v) else w.spans.getD x (0, 0) := fun x =>
    getD_setIfInBounds (sized.symm ▸ inside) _ _
  -- What was written on coming to the vertex is still there, as it is below none of its children.
  have kept : w'.first v = w.time := by
    rw [Walk.first, inner.outside v, entered, if_pos rfl]
    intro c member above
    have := above.le ch.decreasing
    have := (child c member).2
    omega
  have sized' : w'.spans.size = size := by
    rw [inner.size_eq, Walk.enter, Array.size_setIfInBounds, sized]
  have get : ∀ x, (w'.leave v).spans.getD x (0, 0) =
      if x = v then (w.time, w'.time) else w'.spans.getD x (0, 0) := by
    intro x
    rw [← kept]
    exact getD_setIfInBounds (sized'.symm ▸ inside) _ _
  have within : ∀ x, x < size → Ancestor parent v x → x ≠ v →
      w.time < w'.first x ∧ w'.first x < w'.last x ∧ w'.last x < w'.time := by
    intro x small below other
    obtain ⟨c, member, under⟩ := ch.below small inside below other
    have := inner.inside x small c member under
    exact ⟨Nat.lt_of_succ_le this.1, this.2⟩
  have times : w.time + 1 ≤ w'.time := inner.time_le
  have late : (w'.leave v).time = w'.time + 1 := rfl
  refine ⟨?_, by omega, ?_, ?_, ?_, List.pairwise_singleton .., ?_⟩
  · rw [Walk.leave, Array.size_setIfInBounds, sized', sized]
  · intro x off
    have other : x ≠ v := by
      rintro rfl
      exact off x (List.mem_singleton_self x) .self
    rw [get, if_neg other, inner.outside x, entered, if_neg other]
    exact fun c member below => off v (List.mem_singleton_self v) ((child c member).1.trans below)
  · intro x small r member below
    obtain rfl := List.mem_singleton.mp member
    simp only [Walk.first, Walk.last, get]
    by_cases same : x = r
    · simp only [same, if_true]
      omega
    · simp only [same, if_false]
      have := within x small below same
      simp only [Walk.first, Walk.last] at this
      omega
  · intro x y smallX smallY belowX belowY
    simp only [List.mem_singleton, exists_eq_left] at belowX belowY
    simp only [Walk.first, Walk.last, get]
    -- Only the interval of `v` is new, and it holds those of all below.
    by_cases sameX : x = v <;> by_cases sameY : y = v
    · simp only [sameX, sameY, if_true, Nat.le_refl, and_self, true_iff]
      exact .self
    · have := within y smallY belowY sameY
      simp only [Walk.first, Walk.last] at this
      simp only [sameX, sameY, if_true, if_false]
      refine iff_of_false (by omega) fun above => sameY ?_
      exact above.antisymm ch.decreasing belowY
    · have := within x smallX belowX sameX
      simp only [Walk.first, Walk.last] at this
      simp only [sameX, sameY, if_true, if_false]
      exact iff_of_true (by omega) belowX
    · simp only [sameX, sameY, if_false]
      exact inner.nested x y smallX smallY (ch.below smallX inside belowX sameX)
        (ch.below smallY inside belowY sameY)
  · intro x small below
    simp only [List.mem_singleton, exists_eq_left] at below
    refine inner.turns_around ch inside (fun d member => ?_) (fun d other => ?_) small below
    · obtain ⟨_, bounded, _⟩ := (ch.mem v d inside).mp member
      have := within d bounded (child d member).1 (Nat.ne_of_gt (child d member).2)
      simp only [Walk.first, get, if_true]
      exact this.1
    · simp only [Walk.first, Walk.last, get, if_neg other, and_self]

/-- Walk around the subtree of a vertex: come to it, walk around those of its children, and leave
it. -/
def walkAround (children : Array (List Nat)) : Nat → Walk → Nat → Walk
  | 0, w, _ => w
  | fuel + 1, w, v => ((children.getD v []).foldl (walkAround children fuel) (w.enter v)).leave v

/-- The vertices of a subtree, in the order a walk comes to them. -/
def around (children : Array (List Nat)) : Nat → Nat → List Nat
  | 0, _ => []
  | fuel + 1, v => v :: (children.getD v []).flatMap (around children fuel)

theorem walkOn_done {more next v : Nat} {stack : List (Nat × Nat)} {w : Walk}
    (rest : (children.getD v []).drop next = []) :
    walkOn children (1 + more) ((v, next) :: stack) w = walkOn children more stack (w.leave v) := by
  rw [Nat.add_comm, walkOn, List.getElem?_eq_none_iff.mpr (List.drop_eq_nil_iff.mp rest)]

namespace ChildLists

variable (ch : ChildLists parent size children)
include ch

/-- The fuel is enough if it reaches from the number of the vertex to the greatest number. -/
theorem walkAround : ∀ (fuel v : Nat) (w : Walk), v < size → size ≤ fuel + v → w.spans.size = size →
    Walked parent size children [v] w (Tree.walkAround children fuel w v) := by
  intro fuel
  induction fuel with
  | zero => intro v w inside enough _; omega
  | succ fuel ih =>
      intro v w inside enough sized
      have sized' : (w.enter v).spans.size = size := by
        rw [Walk.enter, Array.size_setIfInBounds, sized]
      refine .around ch inside sized (ch.foldl (v := v) ?_ _ (ch.nodup v)
        (fun c member => (ch.mem v c inside).mp member) _ sized')
      intro w' c positive small up sized'
      have := ch.decreasing c positive
      exact ih c w' small (by omega) sized'

theorem mem_around {fuel : Nat} (inside : v < size) (member : x ∈ around children fuel v) :
    Ancestor parent v x ∧ x < size := by
  induction fuel generalizing v with
  | zero => cases member
  | succ fuel ih =>
      rw [around, List.mem_cons, List.mem_flatMap] at member
      rcases member with rfl | ⟨c, child, member⟩
      · exact ⟨.self, inside⟩
      · obtain ⟨below, small⟩ := ih ((ch.mem v c inside).mp child).2.1 member
        exact ⟨(ch.child inside child).1.trans below, small⟩

theorem nodup_around (fuel : Nat) (inside : v < size) : (around children fuel v).Nodup := by
  induction fuel generalizing v with
  | zero => exact List.nodup_nil
  | succ fuel ih =>
      have small : ∀ c ∈ children.getD v [], c < size := fun c child =>
        ((ch.mem v c inside).mp child).2.1
      refine List.nodup_cons.mpr ⟨fun member => ?_, List.nodup_flatMap.mpr ⟨fun c child => ?_, ?_⟩⟩
      · obtain ⟨c, child, member⟩ := List.mem_flatMap.mp member
        have := (ch.child inside child).2
        have := (ch.mem_around (small c child) member).1.le ch.decreasing
        omega
      · exact ih (small c child)
      · refine (ch.nodup v).imp_of_mem fun {c d} childC childD other x inC inD => ?_
        obtain ⟨positiveC, _, upC⟩ := (ch.mem v c inside).mp childC
        obtain ⟨positiveD, _, upD⟩ := (ch.mem v d inside).mp childD
        exact siblings_apart ch.decreasing other positiveC positiveD (upC.trans upD.symm)
          (ch.mem_around (small c childC) inC).1 (ch.mem_around (small d childD) inD).1

theorem length_around (fuel : Nat) (inside : v < size) :
    (around children fuel v).length ≤ size := by
  have range := (ch.nodup_around fuel inside).subperm fun x member =>
    List.mem_range.mpr (ch.mem_around inside member).2
  simpa using range.length_le

/-- The walk with a stack goes around the children of a vertex that are left, and leaves the vertex.
Each of the vertices below is come to in one step and left in another. -/
theorem walkOn_eq (fuel : Nat) : ∀ v next left, v < size → size ≤ fuel + v + 1 →
    (children.getD v []).drop next = left → ∀ more stack w,
    walkOn children (roundTrip (around children fuel) left + more) ((v, next) :: stack) w =
      walkOn children more stack ((left.foldl (Tree.walkAround children fuel) w).leave v) := by
  induction fuel with
  | zero =>
      intro v next left inside enough rest more stack w
      have none : children.getD v [] = [] := List.eq_nil_iff_forall_not_mem.mpr fun c child => by
        have := ch.child inside child
        have := (ch.mem v c inside).mp child
        omega
      obtain rfl : left = [] := by rw [← rest, none, List.drop_nil]
      exact walkOn_done rest
  | succ fuel ih =>
      intro v next left inside enough rest more
      induction left generalizing next with
      | nil => exact fun stack w => walkOn_done rest
      | cons c left again =>
          intro stack w
          obtain ⟨some, rest'⟩ := drop_eq_cons rest
          have child : c ∈ children.getD v [] := List.mem_of_getElem? some
          obtain ⟨_, small, _⟩ := (ch.mem v c inside).mp child
          have lower := (ch.child inside child).2
          -- One step goes to the child. Then come those of its children, and then the others.
          rw [roundTrip_cons rfl, walkOn, some]
          exact (ih c 0 _ small (by omega) List.drop_zero _ _ _).trans
            (again (next + 1) rest' stack _)

/-- The walk with a stack is the walk around the subtree of the root. -/
theorem spans_eq (count : children.size = size) (some' : 0 < size) : spans children =
    (Tree.walkAround children children.size ⟨0, Array.replicate children.size (0, 0)⟩ 0).spans := by
  subst count
  obtain ⟨fuel, deep⟩ : ∃ fuel, children.size = fuel + 1 := ⟨children.size - 1, by omega⟩
  obtain ⟨more, steps⟩ :=
    Nat.exists_eq_add_of_le (roundTrip_le rfl (ch.length_around (fuel + 1) some'))
  have walked : Tree.walkAround children children.size = Tree.walkAround children (fuel + 1) :=
    congrArg _ deep
  rw [spans, steps, ch.walkOn_eq fuel 0 0 _ some' (by omega) List.drop_zero, walked,
    Tree.walkAround]
  cases more <;> rw [walkOn]

theorem spans_walked (count : children.size = size) (some' : 0 < size) :
    ∃ w w' : Walk, w'.spans = spans children ∧ Walked parent size children [0] w w' := by
  have same := ch.spans_eq count some'
  subst count
  exact ⟨_, _, same.symm,
    ch.walkAround children.size 0 ⟨0, Array.replicate children.size (0, 0)⟩ some'
    (by omega) (by simp)⟩

end ChildLists

/-- The interval of a vertex lies in that of another exactly when the other is above it. -/
theorem ChildLists.spans_nested (ch : ChildLists parent size children)
    (count : children.size = size) {x y : Nat} (smallX : x < size) (smallY : y < size) :
    ((spans children).getD y (0, 0)).1 ≤ ((spans children).getD x (0, 0)).1 ∧
      ((spans children).getD x (0, 0)).2 ≤ ((spans children).getD y (0, 0)).2 ↔
      Ancestor parent y x := by
  obtain ⟨_, _, same, walked⟩ := ch.spans_walked count (by omega)
  have below : ∀ x, ∃ r ∈ [0], Ancestor parent r x :=
    fun x => ⟨0, by simp, .from_zero ch.decreasing x⟩
  simpa only [Walk.first, Walk.last, same] using walked.nested x y smallX smallY (below x) (below y)

/-- A vertex is come to before it is left and before its children are come to, and these are gone
around in turn. -/
theorem ChildLists.spans_turns (ch : ChildLists parent size children) (count : children.size = size)
    (small : x < size) :
    ((spans children).getD x (0, 0)).1 < ((spans children).getD x (0, 0)).2 ∧
      (∀ c ∈ children.getD x [],
        ((spans children).getD x (0, 0)).1 < ((spans children).getD c (0, 0)).1) ∧
      (children.getD x []).Pairwise fun c d =>
        ((spans children).getD c (0, 0)).2 < ((spans children).getD d (0, 0)).1 := by
  obtain ⟨_, _, same, walked⟩ := ch.spans_walked count (by omega)
  have below := Ancestor.from_zero ch.decreasing x
  have inside := (walked.inside x small 0 (by simp) below).2.1
  have turns := walked.turns x small ⟨0, by simp, below⟩
  simp only [Walk.InTurn, Walk.first, Walk.last, same] at inside turns
  exact ⟨inside, turns⟩

end MemoryFlow.Tree
