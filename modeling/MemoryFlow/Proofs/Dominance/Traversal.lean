import Mathlib.Data.List.Nodup
import MemoryFlow.Proofs.Basic
import MemoryFlow.Proofs.Dominance.DepthFirst

/-! # What a traversal finds

`Spanning.follow` numbers blocks depth first. Two small changes make up all it does: a vertex is
added, or a source is noted for a vertex that exists. The invariant `Spanning.Found` holds after
each of them; `Spanning.Followed` says what has been achieved by following a list of edges from one
vertex.

The fuel is enough as long as it exceeds the number of blocks with successors that are not numbered
yet.
-/

namespace MemoryFlow.Spanning

variable {next : Block → List Block} {starts : List Block} {s t : Spanning} {source u v w : Nat}
  {block : Block}

def block? (s : Spanning) (v : Nat) : Option Block :=
  s.vertices[v]?.bind (·.block)

/-- Take the edge from vertex `source` to `block`, and if the block is new number it and all that is
first reached through it. The fuel bounds the length of a path through new blocks. -/
def follow (next : Block → List Block) : Nat → Nat → Spanning → Block → Spanning
  | 0, _, s, _ => s
  | fuel + 1, source, s, block =>
      match s.number? block with
      | some v => s.addSource v source
      | none => (next block).foldl (follow next fuel s.vertices.size) (s.addVertex block source)

theorem follow_of_some (fuel : Nat) (known : s.number? block = some v) :
    follow next (fuel + 1) source s block = s.addSource v source := by
  simp only [follow, known]

theorem follow_of_none (fuel : Nat) (fresh : s.number? block = none) :
    follow next (fuel + 1) source s block =
      (next block).foldl (follow next fuel s.vertices.size) (s.addVertex block source) := by
  simp only [follow, fresh]

theorem block?_of_number? (known : s.number? block = some v) : s.block? v = some block := by
  obtain ⟨inside, found, _⟩ := Array.findIdx?_eq_some_iff_getElem.mp known
  simpa [block?, inside] using found

theorem number?_eq_none : s.number? block = none ↔ ∀ v, s.block? v ≠ some block := by
  simp only [number?, Array.findIdx?_eq_none_iff, block?, beq_eq_false_iff_ne]
  constructor
  · intro absent v found
    obtain ⟨x, member, same⟩ := Option.bind_eq_some_iff.mp found
    exact absent x (Array.mem_of_getElem? member) same
  · intro absent x member same
    obtain ⟨v, inside, rfl⟩ := Array.getElem_of_mem member
    exact absent v (by simpa [inside] using same)

theorem lt_of_block? (found : s.block? v = some block) : v < s.vertices.size := by
  obtain ⟨x, member, _⟩ := Option.bind_eq_some_iff.mp found
  exact (Array.getElem?_eq_some_iff.mp member).1

theorem edge_lt (e : s.Edge u v) : v < s.vertices.size := by
  by_contra outside
  simp [Edge, sources, Array.getElem?_eq_none (by omega : s.vertices.size ≤ v)] at e

@[simp] theorem size_addSource : (s.addSource v source).vertices.size = s.vertices.size := by
  simp [addSource]

@[simp] theorem block?_addSource : (s.addSource v source).block? w = s.block? w := by
  simp only [block?, addSource, Array.getElem?_modify]
  split <;> cases s.vertices[w]? <;> rfl

@[simp] theorem parent_addSource : (s.addSource v source).parent = s.parent := by
  funext w
  simp only [parent, addSource, Array.getElem?_modify]
  split <;> cases s.vertices[w]? <;> rfl

theorem edge_addSource (inside : v < s.vertices.size) :
    (s.addSource v source).Edge u w ↔ s.Edge u w ∨ (u = source ∧ w = v) := by
  simp only [Edge, sources, addSource, Array.getElem?_modify]
  by_cases same : v = w
  · subst same
    simp [inside]
  · simp [same, Ne.symm same]

@[simp] theorem size_addVertex :
    (s.addVertex block source).vertices.size = s.vertices.size + 1 := by
  simp [addVertex]

theorem block?_addVertex : (s.addVertex block source).block? w =
    if w = s.vertices.size then some block else s.block? w := by
  simp only [block?, addVertex, Array.getElem?_push]
  split <;> rfl

theorem parent_addVertex : (s.addVertex block source).parent w =
    if w = s.vertices.size then source else s.parent w := by
  simp only [parent, addVertex, Array.getElem?_push]
  split <;> rfl

theorem edge_addVertex : (s.addVertex block source).Edge u w ↔
    s.Edge u w ∨ (u = source ∧ w = s.vertices.size) := by
  simp only [Edge, sources, addVertex, Array.getElem?_push]
  by_cases same : w = s.vertices.size
  · subst same
    simp
  · simp [same]

/-- What holds of the vertices found so far, the traversal having been started at some blocks. -/
structure Found (next : Block → List Block) (starts : List Block) (s : Spanning) : Prop
    extends s.DepthFirst where
  /-- A block has one number. -/
  distinct : ∀ u v b, s.block? u = some b → s.block? v = some b → u = v
  /-- Every edge leads on from a block, or from vertex 0 to a start. -/
  genuine : ∀ u v, s.Edge u v → ∃ c, s.block? v = some c ∧
    ((∃ b, s.block? u = some b ∧ c ∈ next b) ∨ (u = 0 ∧ c ∈ starts))

theorem Found.number? (f : s.Found next starts) :
    s.number? block = some v ↔ s.block? v = some block := by
  constructor
  · exact block?_of_number?
  · intro found
    cases known : s.number? block with
    | none => exact absurd found (number?_eq_none.mp known v)
    | some w => rw [f.distinct w v block (block?_of_number? known) found]

/-- Whether all vertices numbered after `source` or something above it are below it too: the
traversal has not left it yet. -/
def Open (s : Spanning) (source : Nat) : Prop :=
  ∀ m, Ancestor s.parent m source → ∀ y, m ≤ y → y < s.vertices.size → Ancestor s.parent m y

/-- Whether an edge from `source` to `block` may be taken. -/
def Leads (next : Block → List Block) (starts : List Block) (s : Spanning) (source : Nat)
    (block : Block) : Prop :=
  (∃ b, s.block? source = some b ∧ block ∈ next b) ∨ (source = 0 ∧ block ∈ starts)

theorem Found.addSource (f : s.Found next starts) (isOpen : s.Open source)
    (leads : Leads next starts s source block) (inside : source < s.vertices.size)
    (found : s.block? v = some block) : (s.addSource v source).Found next starts := by
  have edge : ∀ u w, (s.addSource v source).Edge u w ↔ s.Edge u w ∨ (u = source ∧ w = v) :=
    fun u w => edge_addSource (lt_of_block? found)
  refine ⟨⟨?_, ?_, ?_, ?_, ?_, ?_⟩, ?_, ?_⟩
  · simpa using f.parent_zero
  · simpa using f.parent_lt
  · intro w positive bounded
    exact (edge _ _).mpr (.inl (by simpa using f.parent_edge w positive (by simpa using bounded)))
  · intro u w e
    rw [size_addSource]
    rcases (edge _ _).mp e with old | ⟨rfl, rfl⟩
    · exact f.source_lt u w old
    · exact inside
  · intro u w e before
    rw [parent_addSource]
    rcases (edge _ _).mp e with old | ⟨rfl, rfl⟩
    · exact f.forward u w old before
    · exact isOpen u .self w (Nat.le_of_lt before) (lt_of_block? found)
  · simpa using f.interval
  · simpa using f.distinct
  · intro u w e
    simp only [block?_addSource]
    rcases (edge _ _).mp e with old | ⟨rfl, rfl⟩
    · exact f.genuine u w old
    · exact ⟨block, found, leads⟩

theorem ancestor_addVertex (decreasing : ∀ v, 0 < v → s.parent v < v) (old : v < s.vertices.size)
    (a : Ancestor s.parent u v) : Ancestor (s.addVertex block source).parent u v := by
  refine a.congr decreasing ?_
  intro w bounded _
  rw [parent_addVertex, if_neg (by omega)]

theorem Found.parent_lt_addVertex (f : s.Found next starts) (block : Block)
    (anchored : source < max s.vertices.size 1) :
    ∀ v, 0 < v → (s.addVertex block source).parent v < v := by
  intro v positive
  rw [parent_addVertex]
  split
  · omega
  · exact f.parent_lt v positive

theorem Found.open_addVertex (f : s.Found next starts) (block : Block) (isOpen : s.Open source)
    (anchored : source < max s.vertices.size 1) :
    (s.addVertex block source).Open s.vertices.size := by
  intro m above y order bounded
  simp only [size_addVertex] at bounded
  by_cases last : y = s.vertices.size
  · exact last ▸ above
  by_cases self : m = s.vertices.size
  · omega
  · have up := above.of_ne self
    rw [parent_addVertex, if_pos rfl] at up
    refine ancestor_addVertex f.parent_lt (by omega) (isOpen m ?_ y order (by omega))
    refine up.2.congr (f.parent_lt_addVertex block anchored) ?_
    intro w small _
    rw [parent_addVertex, if_neg (by omega)]

theorem Found.addVertex (f : s.Found next starts) (isOpen : s.Open source)
    (leads : Leads next starts s source block) (anchored : source < max s.vertices.size 1)
    (fresh : s.number? block = none) : (s.addVertex block source).Found next starts := by
  have decreasing := f.parent_lt_addVertex block anchored
  have opened := f.open_addVertex block isOpen anchored
  have absent := number?_eq_none.mp fresh
  refine ⟨⟨?_, decreasing, ?_, ?_, ?_, ?_⟩, ?_, ?_⟩
  · rw [parent_addVertex]
    split
    · omega
    · exact f.parent_zero
  · intro w positive bounded
    rw [size_addVertex] at bounded
    rw [edge_addVertex, parent_addVertex]
    by_cases last : w = s.vertices.size
    · exact .inr ⟨if_pos last, last⟩
    · rw [if_neg last]
      exact .inl (f.parent_edge w positive (by omega))
  · intro u w e
    rw [size_addVertex]
    rcases edge_addVertex.mp e with old | ⟨rfl, _⟩
    · have := f.source_lt u w old
      omega
    · omega
  · intro u w e before
    rcases edge_addVertex.mp e with old | ⟨rfl, rfl⟩
    · exact ancestor_addVertex f.parent_lt (edge_lt old) (f.forward u w old before)
    · refine .up (by omega) ?_
      rw [parent_addVertex, if_pos rfl]
      exact .self
  · intro m y x bounded above low high
    by_cases last : x = s.vertices.size
    · exact opened m (last ▸ above) y low (by simp only [size_addVertex]; omega)
    · simp only [size_addVertex] at bounded
      refine ancestor_addVertex f.parent_lt (by omega) (f.interval m y x (by omega) ?_ low high)
      refine above.congr decreasing ?_
      intro w small _
      rw [parent_addVertex, if_neg (by omega)]
  · intro u w b hu hw
    rw [block?_addVertex] at hu hw
    split at hu <;> split at hw
    · omega
    · exact absurd hw (Option.some.inj hu ▸ absent w)
    · exact absurd hu (Option.some.inj hw ▸ absent u)
    · exact f.distinct u w b hu hw
  · intro u w e
    rcases edge_addVertex.mp e with old | ⟨rfl, rfl⟩
    · obtain ⟨c, found, from_⟩ := f.genuine u w old
      refine ⟨c, ?_, ?_⟩
      · rwa [block?_addVertex, if_neg (Nat.ne_of_lt (lt_of_block? found))]
      · rcases from_ with ⟨b, hb, member⟩ | start
        · refine .inl ⟨b, ?_, member⟩
          rwa [block?_addVertex, if_neg (Nat.ne_of_lt (lt_of_block? hb))]
        · exact .inr start
    · refine ⟨block, by rw [block?_addVertex, if_pos rfl], ?_⟩
      rcases leads with ⟨b, hb, member⟩ | start
      · refine .inl ⟨b, ?_, member⟩
        rwa [block?_addVertex, if_neg (Nat.ne_of_lt (lt_of_block? hb))]
      · exact .inr start

structure Extends (s t : Spanning) : Prop where
  size_le : s.vertices.size ≤ t.vertices.size
  block?_eq : ∀ v, v < s.vertices.size → t.block? v = s.block? v
  parent_eq : ∀ v, v < s.vertices.size → t.parent v = s.parent v
  edge : ∀ u v, s.Edge u v → t.Edge u v

namespace Extends

theorem refl : s.Extends s :=
  ⟨Nat.le_refl _, fun _ _ => rfl, fun _ _ => rfl, fun _ _ => id⟩

theorem trans {r : Spanning} (rs : r.Extends s) (st : s.Extends t) : r.Extends t where
  size_le := Nat.le_trans rs.size_le st.size_le
  block?_eq v inside :=
    (st.block?_eq v (Nat.lt_of_lt_of_le inside rs.size_le)).trans (rs.block?_eq v inside)
  parent_eq v inside :=
    (st.parent_eq v (Nat.lt_of_lt_of_le inside rs.size_le)).trans (rs.parent_eq v inside)
  edge u v e := st.edge u v (rs.edge u v e)

theorem addSource (inside : v < s.vertices.size) : s.Extends (s.addSource v source) :=
  ⟨by simp, by simp, by simp, fun _ _ e => (edge_addSource inside).mpr (.inl e)⟩

theorem addVertex : s.Extends (s.addVertex block source) where
  size_le := by simp
  block?_eq v inside := by rw [block?_addVertex, if_neg (Nat.ne_of_lt inside)]
  parent_eq v inside := by rw [parent_addVertex, if_neg (Nat.ne_of_lt inside)]
  edge u v e := edge_addVertex.mpr (.inl e)

theorem block? (ext : s.Extends t) (found : s.block? v = some block) : t.block? v = some block :=
  (ext.block?_eq v (lt_of_block? found)).trans found

end Extends

/-- Whether every edge from the block of a vertex has been taken. -/
def Finished (next : Block → List Block) (s : Spanning) (v : Nat) : Prop :=
  ∀ b, s.block? v = some b → ∀ c ∈ next b, ∃ w, s.block? w = some c ∧ s.Edge v w

theorem Finished.mono (ext : s.Extends t) (inside : v < s.vertices.size)
    (finished : s.Finished next v) : t.Finished next v := by
  intro b found c member
  rw [ext.block?_eq v inside] at found
  obtain ⟨w, target, e⟩ := finished b found c member
  exact ⟨w, ext.block? target, ext.edge v w e⟩

structure Followed (next : Block → List Block) (starts : List Block) (source : Nat)
    (targets : List Block) (s t : Spanning) : Prop where
  found : t.Found next starts
  ext : s.Extends t
  isOpen : t.Open source
  taken : ∀ c ∈ targets, ∃ w, t.block? w = some c ∧ t.Edge source w
  finished : ∀ v, s.vertices.size ≤ v → v < t.vertices.size → t.Finished next v

theorem Followed.append {r : Spanning} {front back : List Block}
    (first : Followed next starts source front r s)
    (second : Followed next starts source back s t) :
    Followed next starts source (front ++ back) r t where
  found := second.found
  ext := first.ext.trans second.ext
  isOpen := second.isOpen
  taken c member := by
    rcases List.mem_append.mp member with early | late
    · obtain ⟨w, target, e⟩ := first.taken c early
      exact ⟨w, second.ext.block? target, second.ext.edge _ w e⟩
    · exact second.taken c late
  finished v new bounded := by
    by_cases inside : v < s.vertices.size
    · exact (first.finished v new inside).mono second.ext inside
    · exact second.finished v (by omega) bounded

def unnumbered (s : Spanning) (blocks : List Block) : Nat :=
  blocks.countP fun b => (s.number? b).isNone

theorem number?_isNone (ext : s.Extends t) (missing : (t.number? block).isNone) :
    (s.number? block).isNone := by
  rw [Option.isNone_iff_eq_none] at missing ⊢
  refine number?_eq_none.mpr fun v found => ?_
  exact number?_eq_none.mp missing v (ext.block? found)

theorem unnumbered_le (ext : s.Extends t) (blocks : List Block) :
    t.unnumbered blocks ≤ s.unnumbered blocks :=
  List.countP_mono_left fun _ _ missing => number?_isNone ext missing

theorem unnumbered_addVertex {blocks : List Block} (fresh : s.number? block = none)
    (member : block ∈ blocks) :
    (s.addVertex block source).unnumbered blocks < s.unnumbered blocks := by
  have known : ((s.addVertex block source).number? block).isNone = false := by
    rw [Option.isNone_eq_false_iff, Option.isSome_iff_ne_none]
    intro missing
    exact number?_eq_none.mp missing s.vertices.size (by rw [block?_addVertex, if_pos rfl])
  exact countP_lt (fun _ _ missing => number?_isNone .addVertex missing) member
    (by simp [fresh]) known

theorem foldl_followed {fuel : Nat} {domain : List Block}
    (one : ∀ (s : Spanning) (block : Block), s.Found next starts → s.Open source →
      Leads next starts s source block → source < s.vertices.size → s.unnumbered domain < fuel →
      Followed next starts source [block] s (follow next fuel source s block))
    (targets : List Block) (f : s.Found next starts) (isOpen : s.Open source)
    (leads : ∀ c ∈ targets, Leads next starts s source c) (inside : source < s.vertices.size)
    (room : targets ≠ [] → s.unnumbered domain < fuel) :
    Followed next starts source targets s (targets.foldl (follow next fuel source) s) := by
  induction targets generalizing s with
  | nil => exact ⟨f, .refl, isOpen, by simp, fun v new old => absurd old (Nat.not_lt.mpr new)⟩
  | cons c rest ih =>
      have first := one s c f isOpen (leads c List.mem_cons_self) inside (room (by simp))
      have keep : ∀ d ∈ rest, Leads next starts (follow next fuel source s c) source d := by
        intro d member
        rcases leads d (List.mem_cons_of_mem c member) with ⟨b, hb, edge⟩ | start
        · exact .inl ⟨b, first.ext.block? hb, edge⟩
        · exact .inr start
      have after := ih first.found first.isOpen keep (Nat.lt_of_lt_of_le inside first.ext.size_le)
        (fun _ => Nat.lt_of_le_of_lt (unnumbered_le first.ext domain) (room (by simp)))
      exact first.append after

/-- What is achieved by following the edges of a new vertex is achieved by following the edge to
it. -/
theorem Followed.of_new (anchored : source < max s.vertices.size 1)
    (below : Followed next starts s.vertices.size (next block) (s.addVertex block source) t) :
    Followed next starts source [block] s t := by
  have ext : s.Extends t := Extends.addVertex.trans below.ext
  have here : t.block? s.vertices.size = some block :=
    below.ext.block? (by rw [block?_addVertex, if_pos rfl])
  have parent : t.parent s.vertices.size = source := by
    rw [below.ext.parent_eq _ (by simp), parent_addVertex, if_pos rfl]
  refine ⟨below.found, ext, ?_, ?_, ?_⟩
  · intro m above
    by_cases first : s.vertices.size = 0
    · obtain rfl : source = s.vertices.size := by omega
      exact below.isOpen m above
    · exact below.isOpen m (.up (by omega) (parent.symm ▸ above))
  · intro c member
    obtain rfl := List.mem_singleton.mp member
    exact ⟨_, here, below.ext.edge _ _ (edge_addVertex.mpr (.inr ⟨rfl, rfl⟩))⟩
  · intro v new bounded
    by_cases first : v = s.vertices.size
    · subst first
      intro b found c member
      obtain rfl := Option.some.inj (here.symm.trans found)
      exact below.taken c member
    · exact below.finished v (by simp only [size_addVertex]; omega) bounded

theorem follow_followed {domain : List Block}
    (covers : ∀ b, (b ∈ starts ∨ ∃ a, b ∈ next a) → next b ≠ [] → b ∈ domain) (fuel : Nat) :
    ∀ (s : Spanning) (source : Nat) (block : Block), s.Found next starts → s.Open source →
      Leads next starts s source block → source < max s.vertices.size 1 →
      s.unnumbered domain < fuel →
      Followed next starts source [block] s (follow next fuel source s block) := by
  induction fuel with
  | zero => intro _ _ _ _ _ _ _ room; omega
  | succ fuel ih =>
      intro s source block f isOpen leads anchored room
      cases known : s.number? block with
      | some v =>
          have target := block?_of_number? known
          have inside := lt_of_block? target
          rw [follow_of_some fuel known]
          refine ⟨f.addSource isOpen leads (by omega) target, .addSource inside, ?_, ?_, ?_⟩
          · simpa [Open] using isOpen
          · intro c member
            obtain rfl := List.mem_singleton.mp member
            exact ⟨v, by simpa using target, (edge_addSource inside).mpr (.inr ⟨rfl, rfl⟩)⟩
          · intro w new old
            rw [size_addSource] at old
            omega
      | none =>
          have here : (s.addVertex block source).block? s.vertices.size = some block := by
            rw [block?_addVertex, if_pos rfl]
          -- A block that is not in the domain leads nowhere, and no fuel is needed below it.
          have small : next block ≠ [] → (s.addVertex block source).unnumbered domain < fuel := by
            intro some_next
            have led : block ∈ starts ∨ ∃ a, block ∈ next a :=
              leads.elim (fun ⟨b, _, member⟩ => .inr ⟨b, member⟩) fun start => .inl start.2
            have less : (s.addVertex block source).unnumbered domain < s.unnumbered domain :=
              unnumbered_addVertex known (covers block led some_next)
            omega
          rw [follow_of_none fuel known]
          refine .of_new anchored (foldl_followed ?_ (next block)
            (f.addVertex isOpen leads anchored known) (f.open_addVertex block isOpen anchored)
            (fun c member => .inl ⟨block, here, member⟩) (by simp) small)
          intro t c ft ot lt inside
          exact ih t _ c ft ot lt (by omega)

theorem Found.empty : Found next starts {} := by
  refine ⟨⟨?_, ?_, ?_, ?_, ?_, ?_⟩, ?_, ?_⟩ <;>
    simp [Spanning.parent, Edge, sources, block?]

/-- What is true of a traversal that has taken every edge there is. -/
structure Exhaustive (next : Block → List Block) (starts : List Block) (s : Spanning) : Prop
    extends s.Found next starts where
  rooted : 0 < s.vertices.size
  finished : ∀ v, v < s.vertices.size → s.Finished next v

theorem Exhaustive.mono {more : List Block} (e : s.Exhaustive next starts) (sub : starts ⊆ more) :
    s.Exhaustive next more where
  toFound := {
    e.toFound with
    genuine := fun u v edge => by
      obtain ⟨c, found, from_⟩ := e.genuine u v edge
      exact ⟨c, found, from_.imp_right fun ⟨root, start⟩ => ⟨root, sub start⟩⟩ }
  rooted := e.rooted
  finished := e.finished

theorem Exhaustive.follow_root {domain : List Block} {fuel : Nat}
    (covers : ∀ b, (b ∈ starts ∨ ∃ a, b ∈ next a) → next b ≠ [] → b ∈ domain)
    (room : domain.length < fuel) (e : s.Exhaustive next starts) (start : block ∈ starts) :
    Followed next starts 0 [block] s (follow next fuel 0 s block) := by
  have isOpen : s.Open 0 := by
    intro m above y _ _
    rw [Nat.le_zero.mp (above.le e.parent_lt)]
    exact .from_zero e.parent_lt y
  have most : s.unnumbered domain ≤ domain.length := List.countP_le_length
  exact follow_followed covers fuel s 0 block e.toFound isOpen (.inr ⟨rfl, start⟩) (by omega)
    (by omega)

theorem Exhaustive.block?_of_pos (e : s.Exhaustive next starts) (positive : 0 < v)
    (inside : v < s.vertices.size) : ∃ b, s.block? v = some b := by
  obtain ⟨b, found, _⟩ := e.genuine _ _ (e.parent_edge v positive inside)
  exact ⟨b, found⟩

end MemoryFlow.Spanning
