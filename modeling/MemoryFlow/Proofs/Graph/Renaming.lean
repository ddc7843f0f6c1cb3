import MemoryFlow.Proofs.Graph.Lockstep
import MemoryFlow.Proofs.Graph.Passed

/-! # Renaming part of a graph

A later renaming starts at some block with what is said to hold there, and goes down. The accesses
of the blocks on its way are linked anew, but not those of blocks visited before; in all of them
what holds at the end flows along the edges to the phis. If the lists of these blocks are tidy, each
access is linked to the last definition or phi before it, and nothing else changes
(`renameFrom_relinks`).
-/

namespace MemoryFlow

namespace Graph

variable {g g' : Graph} {p : Procedure} {o : Oracle} {entry root b succ : Block}
  {inc a x phi : Access} {n : Node} {before after : List Access} {visited : Std.TreeSet Block}

def Beneath (g : Graph) (root b : Block) : Prop :=
  g.tree.contains b = true ∧ g.tree.dominates root b = true

instance (g : Graph) (root b : Block) : Decidable (g.Beneath root b) :=
  inferInstanceAs (Decidable (_ ∧ _))

/-- What holds at the start of a block under `root`: the last definition or phi of the nearest block
above it that is under `root` and has one, or else what holds at the start of `root`. -/
def heldIn (g : Graph) (root : Block) (inc : Access) (b : Block) : Access :=
  (((g.tree.dominators b).filter (g.tree.dominates root)).findSome?
    fun above => (g.definitions above).getLast?).getD inc

/-- What holds in a block under `root` after some of its accesses. -/
def heldAfter (g : Graph) (root : Block) (inc : Access) (b : Block) (seen : List Access) : Access :=
  (g.defining seen).getLast?.getD (g.heldIn root inc b)

def heldOut (g : Graph) (root : Block) (inc : Access) (b : Block) : Access :=
  (g.definitions b).getLast?.getD (g.heldIn root inc b)

/-- Whether what holds at the end of a block flows into a phi. -/
def Feeds (g : Graph) (pred : Block) (phi : Access) : Prop :=
  ∃ succ ∈ g.flow.succs pred, g.phi? succ = some phi

def Renames (g : Graph) (root : Block) (visited : Std.TreeSet Block) (b : Block) : Prop :=
  g.Beneath root b ∧ visited.contains b = false

/-- Whether the lists of the blocks under `root` are in order: what is to be linked anew is in the
graph and listed once, and the last definition of a block is known from both of its lists. -/
structure Tidy (g : Graph) (root : Block) (visited : Std.TreeSet Block) : Prop where
  live : ∀ b, g.Renames root visited b → ∀ a ∈ g.accesses b, ∃ n, g.node? a = some n
  once : ∀ b, g.Renames root visited b → (g.accesses b).Nodup
  apart : ∀ b c a, g.Renames root visited b → g.Renames root visited c → a ∈ g.accesses b →
    a ∈ g.accesses c → b = c
  last : ∀ b, g.Renames root visited b →
    (g.definitions b).getLast? = (g.defining (g.accesses b)).getLast?
  /-- Of a block visited before only the last definition matters. -/
  passed : ∀ b d, g.Beneath root b → visited.contains b = true →
    (g.definitions b).getLast? = some d → ∃ n, g.node? d = some n ∧ n.isUse = false

theorem Lockstep.tidy (h : g.Lockstep) (root : Block) (visited : Std.TreeSet Block) :
    g.Tidy root visited where
  live := by
    intro b _ a member
    obtain ⟨_, found, _⟩ := (h.lists b).placed a member
    obtain ⟨n, found', _⟩ := node?_of_outline? found
    exact ⟨n, found'⟩
  once := fun b _ => (h.lists b).distinct
  apart := fun b c a _ _ member member' => h.block_unique member member'
  last := fun b _ => by rw [(h.lists b).definitions]
  passed := by
    intro b d _ _ last
    rw [(h.lists b).definitions] at last
    obtain ⟨_, outline, notUse⟩ := exists_of_mem_defining (List.mem_of_getLast? last)
    obtain ⟨n, found, rfl⟩ := node?_of_outline? outline
    exact ⟨n, found, by simpa using notUse⟩

section Held

variable (sound : g.tree.Sound g.flow entry)
include sound

theorem beneath_iff : g.Beneath root b ↔ g.flow.AtOrBelow entry root b := by
  rw [Beneath, sound.reaches, sound.dominates]
  rfl

theorem heldIn_root (reached : Reaches g.flow.Edge entry root) : g.heldIn root inc root = inc := by
  have none : (g.tree.dominators root).filter (g.tree.dominates root) = [] := by
    rw [List.filter_eq_nil_iff]
    intro a member under
    obtain ⟨other, dom⟩ := (sound.mem_dominators reached).mp member
    exact other (dom.antisymm reached ((sound.dominates root a).mp under))
  rw [heldIn, none]
  rfl

/-- What holds at the start of a block is what holds at the end of its immediate dominator. -/
theorem heldIn_idom {id above : TreeNode} {c : Block} (isAbove : g.tree.idomOf? id = some above)
    (hc : g.tree.blockOf? above = some c) (hb : g.tree.blockOf? id = some b)
    (under : g.flow.AtOrBelow entry root c) : g.heldIn root inc b = g.heldOut root inc c := by
  have kept : g.tree.dominates root c = true := (sound.dominates root c).mpr under.2
  rw [heldIn, sound.dominators_idom isAbove hc hb, List.filter_cons_of_pos kept,
    List.findSome?_cons, heldOut]
  cases (g.definitions c).getLast? <;> rfl

end Held

section Defines

variable (sound : g.tree.Sound g.flow entry) (tidy : g.Tidy root visited)
  (holding : ∃ m, g.node? inc = some m ∧ m.isUse = false)
include tidy

theorem Tidy.last_defines {d : Access} (beneath : g.Beneath root b)
    (last : (g.definitions b).getLast? = some d) :
    ∃ n, g.node? d = some n ∧ n.isUse = false := by
  cases before : visited.contains b with
  | true => exact tidy.passed b d beneath before last
  | false =>
      rw [tidy.last b ⟨beneath, before⟩] at last
      obtain ⟨_, outline, notUse⟩ := exists_of_mem_defining (List.mem_of_getLast? last)
      obtain ⟨n, found, rfl⟩ := node?_of_outline? outline
      exact ⟨n, found, by simpa using notUse⟩

include sound holding

theorem Tidy.heldIn_defines (beneath : g.Beneath root b) :
    ∃ n, g.node? (g.heldIn root inc b) = some n ∧ n.isUse = false := by
  rw [heldIn]
  cases found : ((g.tree.dominators b).filter (g.tree.dominates root)).findSome?
      fun above => (g.definitions above).getLast? with
  | none => exact holding
  | some d =>
      obtain ⟨above, member, last⟩ := List.exists_of_findSome?_eq_some found
      obtain ⟨member, dominated⟩ := List.mem_filter.mp member
      have reached := (sound.reaches b).mp beneath.1
      have dom := ((sound.mem_dominators reached).mp member).2
      exact tidy.last_defines ⟨(sound.reaches above).mpr (dom.reaches reached), dominated⟩ last

theorem Tidy.heldOut_defines (beneath : g.Beneath root b) :
    ∃ n, g.node? (g.heldOut root inc b) = some n ∧ n.isUse = false := by
  rw [heldOut]
  cases last : (g.definitions b).getLast? with
  | none => exact tidy.heldIn_defines sound holding beneath
  | some d => exact tidy.last_defines beneath last

theorem Tidy.heldAfter_defines (beneath : g.Beneath root b) (seen : List Access) :
    ∃ n, g.node? (g.heldAfter root inc b seen) = some n ∧ n.isUse = false := by
  rw [heldAfter]
  cases last : (g.defining seen).getLast? with
  | none => exact tidy.heldIn_defines sound holding beneath
  | some d =>
      obtain ⟨_, outline, notUse⟩ := exists_of_mem_defining (List.mem_of_getLast? last)
      obtain ⟨n, found, rfl⟩ := node?_of_outline? outline
      exact ⟨n, found, by simpa using notUse⟩

end Defines

theorem Tidy.place_unique (tidy : g.Tidy root visited) {c : Block} {before' after' : List Access}
    (renames : g.Renames root visited b) (renames' : g.Renames root visited c)
    (first : g.accesses b = before ++ a :: after) (second : g.accesses c = before' ++ a :: after') :
    b = c ∧ before = before' := by
  obtain rfl := tidy.apart b c a renames renames' (by simp [first]) (by simp [second])
  exact ⟨rfl, front_unique (tidy.once b renames) first second⟩

theorem heldAfter_use (found : g.outline? a = some n) (isUse : n.isUse = true) :
    g.heldAfter root inc b (before ++ [a]) = g.heldAfter root inc b before := by
  rw [heldAfter, heldAfter, defining_use found isUse]

theorem heldAfter_define (found : g.outline? a = some n) (notUse : n.isUse = false) :
    g.heldAfter root inc b (before ++ [a]) = a := by
  rw [heldAfter, defining_define found notUse]
  simp

/-- What becomes of a node when some accesses have been linked anew, and when what holds at the end
of some blocks has flowed into phis. -/
structure Relinks (base : Graph) (root : Block) (inc : Access) (visited : Std.TreeSet Block)
    (done : Access → Prop) (flowed : Block → Access → Prop) (x : Access) (n m : Node) : Prop where
  outline : m.outline = n.outline
  kept : ¬done x → m.defining? = n.defining?
  linked : ∀ b before after, base.Renames root visited b →
    base.accesses b = before ++ x :: after → done x →
    n.isPhi = false → m.defining? = some (base.heldAfter root inc b before)
  edges : List.Forall₂ (fun old new => new.1 = old.1 ∧
    (flowed old.1 x → new.2 = base.heldOut root inc old.1) ∧ (¬flowed old.1 x → new.2 = old.2))
    n.incoming m.incoming

structure Relinking (base : Graph) (root : Block) (inc : Access) (visited : Std.TreeSet Block)
    (done : Access → Prop) (flowed : Block → Access → Prop) (g : Graph) : Prop where
  exact : g.Exact
  flow : g.flow = base.flow
  tree : g.tree = base.tree
  lists : g.lists = base.lists
  defLists : g.defLists = base.defLists
  blockPhi : g.blockPhi = base.blockPhi
  nodes : ∀ x n, base.node? x = some n →
    ∃ m, g.node? x = some m ∧ base.Relinks root inc visited done flowed x n m

namespace Relinking

variable {base : Graph} {done done' : Access → Prop} {flowed flowed' : Block → Access → Prop}

theorem start (exact : base.Exact) :
    base.Relinking root inc visited (fun _ => False) (fun _ _ => False) base := by
  refine ⟨exact, rfl, rfl, rfl, rfl, rfl, fun x n found => ⟨n, found, rfl, fun _ => rfl,
    fun _ _ _ _ _ none => none.elim, ?_⟩⟩
  exact List.forall₂_same.mpr fun edge _ => ⟨rfl, fun none => none.elim, fun _ => rfl⟩

theorem congr (relinking : base.Relinking root inc visited done flowed g)
    (sameDone : ∀ x, done x ↔ done' x) (sameFlowed : ∀ pred x, flowed pred x ↔ flowed' pred x) :
    base.Relinking root inc visited done' flowed' g := by
  obtain rfl : done = done' := funext fun x => propext (sameDone x)
  obtain rfl : flowed = flowed' := funext fun pred => funext fun x => propext (sameFlowed pred x)
  exact relinking

theorem read_defines (relinking : base.Relinking root inc visited done flowed g)
    (live : ∃ n, base.node? x = some n ∧ n.isUse = false) :
    ∃ m, g.node? x = some m ∧ m.isUse = false := by
  obtain ⟨n, found, notUse⟩ := live
  obtain ⟨m, found', relinks⟩ := relinking.nodes x n found
  exact ⟨m, found', by rw [← m.isUse_outline, relinks.outline, n.isUse_outline, notUse]⟩

theorem link (relinking : base.Relinking root inc visited done flowed g)
    (tidy : base.Tidy root visited) (renames : base.Renames root visited b)
    (place : base.accesses b = before ++ a :: after)
    (found : base.node? a = some n) (notPhi : n.isPhi = false)
    (live : ∃ m, base.node? (base.heldAfter root inc b before) = some m ∧ m.isUse = false) :
    ∃ g', g.setDefining a (base.heldAfter root inc b before) = .ok g' ∧
      base.Relinking root inc visited (fun x => done x ∨ x = a) flowed g' := by
  obtain ⟨d, foundD, notUse⟩ := relinking.read_defines live
  obtain ⟨m, foundM, relinks⟩ := relinking.nodes a n found
  have plain : m.isPhi = false := by
    rw [← m.isPhi_outline, relinks.outline, n.isPhi_outline, notPhi]
  obtain ⟨g', ran, exact, recast⟩ := setDefining_recast relinking.exact foundM plain foundD notUse
  refine ⟨g', ran, exact, recast.flow.trans relinking.flow, recast.tree.trans relinking.tree,
    recast.lists.trans relinking.lists, recast.defLists.trans relinking.defLists,
    recast.blockPhi.trans relinking.blockPhi, fun x k foundK => ?_⟩
  obtain ⟨k₁, foundK₁, relinks₁⟩ := relinking.nodes x k foundK
  obtain ⟨k₂, foundK₂, core⟩ := recast.read foundK₁
  refine ⟨k₂, foundK₂, ?_⟩
  by_cases here : x = a
  · subst here
    cases found.symm.trans foundK
    cases foundM.symm.trans foundK₁
    rw [if_pos rfl] at core
    have linked : k₂.defining? = some (base.heldAfter root inc b before) := by
      rw [← k₂.alike_core.defining?, core, Node.defining?_mapLink (m.alike_core.isPhi.trans plain)]
    refine ⟨?_, fun missed => absurd (.inr rfl) missed,
      fun c before' after' renames' place' _ _ => ?_, ?_⟩
    · rw [← k₂.outline_core, core, Node.outline_mapLink, m.outline_core, relinks.outline]
    · obtain ⟨rfl, rfl⟩ := tidy.place_unique renames renames' place place'
      exact linked
    · rw [← k₂.alike_core.incoming, core, Node.incoming_mapLink, m.alike_core.incoming]
      exact relinks.edges
  · rw [if_neg here] at core
    have alike := Node.Alike.of_core core
    refine ⟨?_, fun missed => ?_, fun c before' after' renames' place' either notPhi' => ?_, ?_⟩
    · rw [← k₂.outline_core, core, k₁.outline_core, relinks₁.outline]
    · rw [alike.defining?, relinks₁.kept fun early => missed (.inl early)]
    · rw [alike.defining?]
      exact relinks₁.linked c before' after' renames' place' (either.resolve_right here) notPhi'
    · rw [alike.incoming]
      exact relinks₁.edges

theorem pass (relinking : base.Relinking root inc visited done flowed g)
    (found : base.node? a = some n) (isPhi : n.isPhi = true) :
    base.Relinking root inc visited (fun x => done x ∨ x = a) flowed g := by
  refine { relinking with nodes := fun x k foundK => ?_ }
  obtain ⟨m, foundM, relinks⟩ := relinking.nodes x k foundK
  refine ⟨m, foundM, { relinks with
    kept := fun missed => relinks.kept fun early => missed (.inl early),
    linked := fun c before after renames place either notPhi => ?_ }⟩
  refine relinks.linked c before after renames place (either.resolve_right ?_) notPhi
  rintro rfl
  cases found.symm.trans foundK
  simp [isPhi] at notPhi

theorem carry (relinking : base.Relinking root inc visited done flowed g)
    (comes : b ∈ base.sourcesOf phi)
    (live : ∃ m, base.node? (base.heldOut root inc b) = some m ∧ m.isUse = false) :
    ∃ g', g.setIncomingFrom phi b (base.heldOut root inc b) = .ok (true, g') ∧
      base.Relinking root inc visited done
      (fun pred x => flowed pred x ∨ pred = b ∧ x = phi) g' := by
  obtain ⟨n, found, isPhi⟩ : ∃ n, base.node? phi = some n ∧ n.isPhi = true := by
    cases found : base.node? phi with
    | none => simp [sourcesOf, found] at comes
    | some n =>
        refine ⟨n, rfl, ?_⟩
        by_contra plain
        rw [sourcesOf_eq found, n.incoming_of_not_isPhi (by simpa using plain)] at comes
        simp at comes
  obtain ⟨d, foundD, notUse⟩ := relinking.read_defines live
  obtain ⟨m, foundM, relinks⟩ := relinking.nodes phi n found
  have isPhi' : m.isPhi = true := by rw [← m.isPhi_outline, relinks.outline, n.isPhi_outline, isPhi]
  have sources : m.incoming.map Prod.fst = n.incoming.map Prod.fst := by
    have same : List.Forall₂ (fun old new => new.1 = old.1) n.incoming m.incoming :=
      relinks.edges.imp fun _ _ edge => edge.1
    rw [← List.forall₂_eq_eq_eq, List.forall₂_map_left_iff, List.forall₂_map_right_iff]
    exact same.flip
  have comes' : b ∈ m.incoming.map Prod.fst := by rwa [sources, ← sourcesOf_eq found]
  obtain ⟨g', ran, exact, recast⟩ :=
    setIncomingFrom_recast relinking.exact foundM isPhi' foundD notUse comes'
  refine ⟨g', ran, exact, recast.flow.trans relinking.flow, recast.tree.trans relinking.tree,
    recast.lists.trans relinking.lists, recast.defLists.trans relinking.defLists,
    recast.blockPhi.trans relinking.blockPhi, fun x k foundK => ?_⟩
  obtain ⟨k₁, foundK₁, relinks₁⟩ := relinking.nodes x k foundK
  obtain ⟨k₂, foundK₂, core⟩ := recast.read foundK₁
  refine ⟨k₂, foundK₂, ?_⟩
  by_cases here : x = phi
  · subst here
    cases foundM.symm.trans foundK₁
    rw [if_pos rfl] at core
    refine ⟨?_, fun missed => ?_, fun c before after renames place either notPhi => ?_, ?_⟩
    · rw [← k₂.outline_core, core, Node.outline_mapIncoming, m.outline_core, relinks₁.outline]
    · rw [← k₂.alike_core.defining?, core, Node.defining?_mapIncoming, m.alike_core.defining?,
        relinks₁.kept missed]
    · cases found.symm.trans foundK
      simp [isPhi] at notPhi
    · rw [← k₂.alike_core.incoming, core,
        Node.incoming_mapIncoming (m.alike_core.isPhi.trans isPhi'),
        m.alike_core.incoming, List.forall₂_map_right_iff]
      refine relinks₁.edges.imp fun old new edge => ?_
      obtain ⟨source, carried, held⟩ := edge
      refine ⟨source, ?_, ?_⟩
      · by_cases mine : new.1 = b
        · rw [if_pos mine, ← source, mine]
          exact fun _ => rfl
        · rw [if_neg mine]
          rintro (early | ⟨same, _⟩)
          · exact carried early
          · exact absurd (source.trans same) mine
      · intro neither
        rw [if_neg]
        · exact held fun early => neither (.inl early)
        · exact fun mine => neither (.inr ⟨source.symm.trans mine, rfl⟩)
  · rw [if_neg here] at core
    have alike := Node.Alike.of_core core
    refine ⟨?_, fun missed => ?_, fun c before after renames place early notPhi => ?_, ?_⟩
    · rw [← k₂.outline_core, core, k₁.outline_core, relinks₁.outline]
    · rw [alike.defining?, relinks₁.kept missed]
    · rw [alike.defining?]
      exact relinks₁.linked c before after renames place early notPhi
    · rw [alike.incoming]
      refine relinks₁.edges.imp fun old new edge => ?_
      obtain ⟨source, carried, held⟩ := edge
      refine ⟨source, ?_, ?_⟩
      · rintro (early | ⟨_, same⟩)
        · exact carried early
        · exact absurd same here
      · exact fun neither => held fun early => neither (.inl early)

theorem renameAccess (relinking : base.Relinking root inc visited done flowed g)
    (tidy : base.Tidy root visited) (renames : base.Renames root visited b)
    (place : base.accesses b = before ++ a :: after)
    (live : ∃ m, base.node? (base.heldAfter root inc b before) = some m ∧ m.isUse = false) :
    ∃ g', Graph.renameAccess .again (g, base.heldAfter root inc b before) a =
        .ok (g', base.heldAfter root inc b (before ++ [a])) ∧
      base.Relinking root inc visited (fun x => done x ∨ x = a) flowed g' := by
  obtain ⟨n, found⟩ := tidy.live b renames a (by simp [place])
  obtain ⟨m, foundM, relinks⟩ := relinking.nodes a n found
  have sameUse : m.isUse = n.outline.isUse := by rw [← m.isUse_outline, relinks.outline]
  have samePhi : m.isPhi = n.isPhi := by rw [← m.isPhi_outline, relinks.outline, n.isPhi_outline]
  have outline := outline?_eq found
  rw [Graph.renameAccess]
  simp only [node_eq foundM, ok_bind]
  cases isPhi : n.isPhi with
  | true =>
      refine ⟨g, ?_, relinking.pass found isPhi⟩
      rw [samePhi, isPhi, heldAfter_define outline (by simpa using n.isUse_of_isPhi isPhi)]
      rfl
  | false =>
      obtain ⟨g', ran, relinking'⟩ := relinking.link tidy renames place found isPhi live
      refine ⟨g', ?_, relinking'⟩
      rw [samePhi, isPhi]
      simp only [true_or, if_true, ran, ok_bind]
      cases isUse : n.outline.isUse with
      | true =>
          rw [heldAfter_use outline isUse, sameUse, isUse]
          rfl
      | false =>
          rw [heldAfter_define outline isUse, sameUse, isUse]
          rfl

theorem renameBlock (relinking : base.Relinking root inc visited done flowed g)
    (sound : base.tree.Sound base.flow entry) (tidy : base.Tidy root visited)
    (holding : ∃ m, base.node? inc = some m ∧ m.isUse = false)
    (renames : base.Renames root visited b) :
    ∃ g', g.renameBlock .again b (base.heldIn root inc b) = .ok (g', base.heldOut root inc b) ∧
      base.Relinking root inc visited (fun x => done x ∨ x ∈ base.accesses b) flowed g' := by
  have accesses : g.accesses b = base.accesses b := by
    rw [Graph.accesses, relinking.lists, Graph.accesses]
  obtain ⟨⟨g', held⟩, ran, relinking', holds⟩ := foldlM_total (base.accesses b)
    (Graph.renameAccess .again) (g, base.heldIn root inc b)
    (fun seen state => base.Relinking root inc visited (fun x => done x ∨ x ∈ seen) flowed state.1 ∧
      state.2 = base.heldAfter root inc b seen)
    ⟨by simpa using relinking, rfl⟩ (by
      rintro seen a rest ⟨g, _⟩ place ⟨relinking, rfl⟩
      obtain ⟨g', ran, relinking'⟩ := relinking.renameAccess tidy renames place
        (tidy.heldAfter_defines sound holding renames.1 seen)
      refine ⟨_, ran, relinking'.congr (fun x => ?_) fun _ _ => .rfl, rfl⟩
      simp only [List.mem_append, List.mem_singleton, or_assoc])
  have last : held = base.heldOut root inc b := by
    have whole : held = base.heldAfter root inc b (base.accesses b) := holds
    rw [whole, heldAfter, heldOut, tidy.last b renames]
  refine ⟨g', ?_, relinking'⟩
  rw [Graph.renameBlock, accesses, ran, last]

theorem renameEdges (relinking : base.Relinking root inc visited done flowed g) (succs : List Block)
    (live : ∃ m, base.node? (base.heldOut root inc b) = some m ∧ m.isUse = false)
    (comes : ∀ succ ∈ succs, ∀ phi, base.phi? succ = some phi → b ∈ base.sourcesOf phi) :
    ∃ g', succs.foldlM (renameEdge .again b (base.heldOut root inc b)) g = .ok g' ∧
      base.Relinking root inc visited done
        (fun pred x => flowed pred x ∨ pred = b ∧ ∃ succ ∈ succs, base.phi? succ = some x) g' := by
  refine foldlM_total succs _ g (fun seen g => base.Relinking root inc visited done
    (fun pred x => flowed pred x ∨ pred = b ∧ ∃ succ ∈ seen, base.phi? succ = some x) g)
    (by simpa using relinking) ?_
  intro seen succ rest g whole relinking
  have phi? : g.phi? succ = base.phi? succ := by rw [Graph.phi?, relinking.blockPhi, Graph.phi?]
  rw [renameEdge, phi?]
  cases known : base.phi? succ with
  | none =>
      refine ⟨g, rfl, relinking.congr (fun _ => .rfl) fun pred x => ?_⟩
      simp [List.mem_append, or_and_right, exists_or, known]
  | some phi =>
      obtain ⟨g', ran, relinking'⟩ := relinking.carry (comes succ (by simp [whole]) phi known) live
      refine ⟨g', ?_, relinking'.congr (fun _ => .rfl) fun pred x => ?_⟩
      · simp only [ran, ok_bind]
        rfl
      · simp only [List.mem_append, List.mem_singleton, or_and_right, exists_or,
          exists_eq_left, known, Option.some.injEq, and_or_left, or_assoc, eq_comm (a := phi)]

end Relinking

structure Coming (base : Graph) (root : Block) (inc : Access) (visited : Std.TreeSet Block)
    (come : Block → Prop) (r : Renaming) : Prop where
  relinking : base.Relinking root inc visited
    (fun a => ∃ b, come b ∧ base.Renames root visited b ∧ a ∈ base.accesses b)
    (fun pred phi => come pred ∧ base.Feeds pred phi) r.graph
  same : ∀ b, r.visited.contains b = true ↔ visited.contains b = true ∨ come b

theorem Coming.enter {base : Graph} {come : Block → Prop} {r : Renaming}
    (coming : base.Coming root inc visited come r) (sound : base.tree.Sound base.flow entry)
    (tidy : base.Tidy root visited) (holding : ∃ m, base.node? inc = some m ∧ m.isUse = false)
    (beneath : base.Beneath root b) (new : ¬come b)
    (comes : ∀ phi, base.Feeds b phi → b ∈ base.sourcesOf phi) :
    ∃ r', r.enter .again b (base.heldIn root inc b) = .ok (r', base.heldOut root inc b) ∧
      base.Coming root inc visited (fun x => come x ∨ x = b) r' := by
  have visits : r.visited.contains b = visited.contains b := by
    rw [Bool.eq_iff_iff, coming.same, or_iff_left new]
  have leave : ∀ g, base.Relinking root inc visited
        (fun a => ∃ c, (come c ∨ c = b) ∧ base.Renames root visited c ∧ a ∈ base.accesses c)
        (fun pred phi => come pred ∧ base.Feeds pred phi) g →
      ∃ r', (do
          let g ← (g.flow.succs b).foldlM (renameEdge .again b (base.heldOut root inc b)) g
          return ((⟨g, r.visited.insert b⟩ : Renaming), base.heldOut root inc b)) =
            .ok (r', base.heldOut root inc b) ∧
            base.Coming root inc visited (fun x => come x ∨ x = b) r' := by
    intro g relinking
    obtain ⟨g', flowed, relinking'⟩ := relinking.renameEdges (base.flow.succs b)
      (tidy.heldOut_defines sound holding beneath) fun succ member phi known =>
        comes phi ⟨succ, member, known⟩
    refine ⟨⟨g', r.visited.insert b⟩, ?_, relinking'.congr (fun _ => .rfl) fun pred phi => ?_,
      fun x => ?_⟩
    · rw [relinking.flow, flowed]
      rfl
    · rw [or_and_right]
      refine or_congr_right ⟨?_, ?_⟩
      · rintro ⟨rfl, feeds⟩
        exact ⟨rfl, feeds⟩
      · rintro ⟨rfl, feeds⟩
        exact ⟨rfl, feeds⟩
    · rw [Std.TreeSet.contains_insert, Bool.or_eq_true, coming.same, beq_iff_eq,
        Std.compare_eq_iff_eq, or_comm, or_assoc, eq_comm (a := b)]
  rw [Renaming.enter]
  dsimp only
  cases before : visited.contains b with
  | true =>
      -- What is in a block visited before stays as it is.
      have last : r.graph.definitions b = base.definitions b := by
        rw [Graph.definitions, coming.relinking.defLists, Graph.definitions]
      rw [if_pos ⟨rfl, visits.trans before⟩, last]
      refine leave r.graph (coming.relinking.congr (fun a => ?_) fun _ _ => .rfl)
      simp [Renames, before, or_and_right, exists_or]
  | false =>
      obtain ⟨g₁, ran, relinking⟩ :=
        coming.relinking.renameBlock sound tidy holding ⟨beneath, before⟩
      rw [if_neg (by simp [visits, before]), ran]
      refine leave g₁ (relinking.congr (fun a => ?_) fun _ _ => .rfl)
      simp [Renames, beneath, before, or_and_right, exists_or]

/-- Whether a graph can be renamed from `root` on: control gets there, what is to hold there can be
referred to, and wherever what holds at the end of a block is to flow into a phi there is an edge
for it. -/
structure Renamable (g : Graph) (root : Block) (inc : Access) (visited : Std.TreeSet Block) :
    Prop where
  reached : g.tree.contains root = true
  unvisited : visited.contains root = false
  holding : ∃ m, g.node? inc = some m ∧ m.isUse = false
  comes : ∀ b phi, g.Beneath root b → g.Feeds b phi → b ∈ g.sourcesOf phi

instance (g : Graph) (root : Block) (inc : Access) (visited : Std.TreeSet Block) :
    Decidable (g.Renamable root inc visited) :=
  decidable_of_iff (g.tree.contains root = true ∧ visited.contains root = false ∧
      (g.node? inc).any (!·.isUse) = true ∧ ∀ b ∈ g.flow.blocks, g.Beneath root b →
        ∀ succ ∈ g.flow.succs b, ∀ phi ∈ g.phi? succ, b ∈ g.sourcesOf phi) <| by
    constructor
    · rintro ⟨reached, unvisited, holding, comes⟩
      refine ⟨reached, unvisited, by simpa [Option.any_eq_true] using holding, ?_⟩
      rintro b phi beneath ⟨succ, member, known⟩
      exact comes b (FlowGraph.mem_blocks_of_edge member) beneath succ member phi known
    · rintro ⟨reached, unvisited, holding, comes⟩
      refine ⟨reached, unvisited, by simpa [Option.any_eq_true] using holding, ?_⟩
      exact fun b _ beneath succ member phi known => comes b phi beneath ⟨succ, member, known⟩

/-- What a renaming from `root` on makes of a graph. -/
structure RenamedFrom (g : Graph) (root : Block) (inc : Access) (visited : Std.TreeSet Block)
    (r : Renaming) : Prop where
  visits : ∀ b, r.visited.contains b = true ↔ visited.contains b = true ∨ g.Beneath root b
  /-- An access of a block that was not visited is linked to the definition or phi that holds before
  it. -/
  linked : ∀ b before a after n, g.Renames root visited b → g.accesses b = before ++ a :: after →
    g.node? a = some n → n.isPhi = false →
      ∃ m, r.graph.node? a = some m ∧ m.defining? = some (g.heldAfter root inc b before)
  /-- Every other access keeps its defining access. -/
  kept : ∀ a n, g.node? a = some n → (∀ b, g.Renames root visited b → a ∉ g.accesses b) →
    ∃ m, r.graph.node? a = some m ∧ m.defining? = n.defining?
  /-- Along the edges from the blocks there comes what holds at their ends, along the others what
  came before. -/
  edges : ∀ a n, g.node? a = some n → ∃ m, r.graph.node? a = some m ∧ m.outline = n.outline ∧
    List.Forall₂ (fun old new => new.1 = old.1 ∧
      (g.Beneath root old.1 ∧ g.Feeds old.1 a → new.2 = g.heldOut root inc old.1) ∧
      (¬(g.Beneath root old.1 ∧ g.Feeds old.1 a) → new.2 = old.2)) n.incoming m.incoming

theorem Coming.renamedFrom {r : Renaming} (coming : g.Coming root inc visited (g.Beneath root) r) :
    g.RenamedFrom root inc visited r := by
  refine ⟨coming.same, fun b before a after n renames place found notPhi => ?_,
    fun a n found missed => ?_, fun a n found => ?_⟩
  · obtain ⟨m, found', relinks⟩ := coming.relinking.nodes a n found
    exact ⟨m, found', relinks.linked b before after renames place
      ⟨b, renames.1, renames, by simp [place]⟩ notPhi⟩
  · obtain ⟨m, found', relinks⟩ := coming.relinking.nodes a n found
    refine ⟨m, found', relinks.kept ?_⟩
    rintro ⟨b, _, renames, member⟩
    exact missed b renames member
  · obtain ⟨m, found', relinks⟩ := coming.relinking.nodes a n found
    exact ⟨m, found', relinks.outline, relinks.edges⟩

theorem Renamable.renameFrom (renamable : g.Renamable root inc visited) (tidy : g.Tidy root visited)
    (exact : g.Exact) (sound : g.tree.Sound g.flow entry) :
    ∃ r, g.renameFrom root inc visited = .ok r ∧ g.RenamedFrom root inc visited r := by
  have start : g.Coming root inc visited (fun _ => False) ⟨g, visited⟩ := by
    refine ⟨(Relinking.start exact).congr (fun x => ?_) fun pred x => ?_, by simp⟩
    · simp
    · simp
  have descent : Renaming.Descent g.tree g.flow entry root .again (g.heldIn root inc)
      (g.heldOut root inc) (g.Coming root inc visited) :=
    ⟨sound, fun coming => coming.relinking.tree, heldIn_idom sound, fun below new coming =>
      have beneath := (beneath_iff sound).mpr below
      coming.enter sound tidy renamable.holding beneath new fun phi =>
        renamable.comes _ phi beneath⟩
  have reaches := (sound.reaches root).mp renamable.reached
  obtain ⟨r, ran, coming⟩ := descent.run reaches (by simp [renamable.unvisited]) start
  rw [heldIn_root sound reaches] at ran
  have all : g.flow.AtOrBelow entry root = g.Beneath root :=
    funext fun b => propext (beneath_iff sound).symm
  exact ⟨r, ran, (all ▸ coming).renamedFrom⟩

/-- Whatever was done to a built graph, it can be renamed from any block that control gets to, if
the lists below are tidy; and they are if nothing was put into a list twice or directly before a
phi. -/
theorem renameFrom_relinks {config : Config} {first : Graph}
    (built : build p o config = .ok first) :
    (∀ (acts : List Act) g root inc visited, acts.foldlM Act.apply first = .ok g →
      g.Renamable root inc visited → g.Tidy root visited →
        ∃ r, g.renameFrom root inc visited = .ok r ∧ g.RenamedFrom root inc visited r) ∧
    (p.layout.blocks.Nodup → ∀ g root visited, Relation.ReflTransGen CarefulStep first g →
      g.Tidy root visited) := by
  refine ⟨fun acts g root inc visited ran renamable tidy => ?_,
    fun distinct g root visited steps => ?_⟩
  · obtain ⟨entry, sound⟩ := sound_of_acts built ran
    have exact : g.Exact :=
      foldlM_keeps Exact ran (build_exact built) fun _ _ _ exact ran => exact.act ran
    exact renamable.renameFrom tidy exact sound
  · exact ((build_lockstep distinct built).run steps).tidy root visited

open Walker in
/-- The store of the loop's body is made twice, and the loads behind the loop get a phi of their
own. -/
def bodyDone : List Act :=
  [.change (.createAccess storeBeforeLoop byAddress ⟨0⟩ ⟨1⟩),
    .change (.insertBefore ⟨5⟩ ⟨2⟩ (some ⟨2⟩)), .change (.createPhi ⟨3⟩),
    .change (.addIncoming ⟨6⟩ ⟨1⟩ ⟨1⟩)]

def loopBody : Std.TreeSet Block :=
  .ofList [(⟨2⟩ : Block)]

open Walker in
/-- The loop is renamed, but not its body: the last store of the body flows into the phi of the
loop, and the load behind the loop sees the new phi. -/
theorem renameFrom_relinks_bodyDone :
    storeBeforeLoop.layout.blocks.Nodup ∧
    ∃ first g r, build storeBeforeLoop byAddress {} = .ok first ∧
      Relation.ReflTransGen CarefulStep first g ∧ g.accesses ⟨2⟩ = [⟨5⟩, ⟨2⟩] ∧
      g.Renamable ⟨1⟩ ⟨1⟩ loopBody ∧ g.Tidy ⟨1⟩ loopBody ∧
      g.renameFrom ⟨1⟩ ⟨1⟩ loopBody = .ok r ∧ g.RenamedFrom ⟨1⟩ ⟨1⟩ loopBody r := by
  obtain ⟨first, built, runs⟩ := exists_of_any (x := build storeBeforeLoop byAddress {})
    (P := runsCarefully (fun g => g.accesses ⟨2⟩ = [⟨5⟩, ⟨2⟩] ∧
    g.Renamable ⟨1⟩ ⟨1⟩ loopBody) bodyDone) (by decide +kernel)
  obtain ⟨g, steps, facts⟩ := exists_of_runsCarefully runs
  obtain ⟨body, renamable⟩ := of_decide_eq_true facts
  obtain ⟨acts, ran⟩ := exists_acts_of_steps (fun _ _ ⟨act, _, ran⟩ => ⟨act, ran⟩) steps
  have tidy := (renameFrom_relinks built).2 (by decide) g ⟨1⟩ loopBody steps
  obtain ⟨r, renamed, rules⟩ := (renameFrom_relinks built).1 acts g ⟨1⟩ ⟨1⟩ _ ran renamable tidy
  exact ⟨by decide, first, g, r, built, steps, body, renamable, tidy, renamed, rules⟩

/-- A slot is read, written and read again, and read once more where control never gets to. -/
def readWriteRead : Procedure where
  name := "reads"
  params := [⟨0⟩]
  blockNames := #[none, none, none, none]
  insts := #[⟨.jump ⟨1⟩, none⟩, ⟨.load ⟨0⟩ 8 ⟨false, false, .notAtomic⟩, some ⟨1⟩⟩,
    ⟨.store ⟨0⟩ ⟨0⟩ 8 ⟨false, false, .notAtomic⟩, none⟩, ⟨.jump ⟨2⟩, none⟩,
    ⟨.load ⟨0⟩ 8 ⟨false, false, .notAtomic⟩, some ⟨2⟩⟩, ⟨.ret none, none⟩,
    ⟨.load ⟨0⟩ 8 ⟨false, false, .notAtomic⟩, some ⟨3⟩⟩, ⟨.ret none, none⟩]
  values := #[.parameter 0, .result ⟨1⟩, .result ⟨4⟩, .result ⟨6⟩]
  layout := .ofRows [⟨⟨0⟩, [⟨0⟩]⟩, ⟨⟨1⟩, [⟨1⟩, ⟨2⟩, ⟨3⟩]⟩, ⟨⟨2⟩, [⟨4⟩, ⟨5⟩]⟩, ⟨⟨3⟩, [⟨6⟩, ⟨7⟩]⟩]

/-- If a list below still has an access that has been removed, renaming fails. If an access is in
two lists, it is linked to what holds in the second place. If the definitions of a block are listed
in another order, what holds at its end is not the last of them. And a block that control never gets
to is left alone, although every block counts as dominating it. -/
theorem renameFrom_depends_on_lists :
    (∃ first, build readWriteRead .byObject {} = .ok first ∧ ∃ g,
      [.change (.insert ⟨3⟩ ⟨1⟩ .ending), .change (.remove ⟨3⟩)].foldlM Act.apply first = .ok g ∧
      g.Renamable ⟨0⟩ .liveOnEntry {} ∧ ¬∃ r, g.renameFrom ⟨0⟩ .liveOnEntry {} = .ok r) ∧
    (∃ first, build readWriteRead .byObject {} = .ok first ∧ ∃ g,
      [.change (.insert ⟨2⟩ ⟨2⟩ .ending)].foldlM Act.apply first = .ok g ∧
      g.Renamable ⟨0⟩ .liveOnEntry {} ∧ g.accesses ⟨1⟩ = [⟨1⟩, ⟨2⟩] ∧
      g.heldAfter ⟨0⟩ .liveOnEntry ⟨1⟩ [⟨1⟩] = .liveOnEntry ∧
      ∃ r, g.renameFrom ⟨0⟩ .liveOnEntry {} = .ok r ∧
        (r.graph.node? ⟨2⟩).bind Node.defining? = some ⟨2⟩) ∧
    (∃ first, build readWriteRead .byObject {} = .ok first ∧ ∃ g,
      [.change (.createPhi ⟨1⟩), .change (.addIncoming ⟨5⟩ ⟨0⟩ .liveOnEntry),
        .change (.moveBefore ⟨1⟩ ⟨1⟩ (some ⟨5⟩)), .change (.move ⟨2⟩ ⟨1⟩ .beginning)].foldlM
          Act.apply first = .ok g ∧
      g.Renamable ⟨1⟩ .liveOnEntry {} ∧ g.accesses ⟨2⟩ = [⟨3⟩] ∧
      g.heldAfter ⟨1⟩ .liveOnEntry ⟨2⟩ [] = ⟨2⟩ ∧ ∃ r, g.renameFrom ⟨1⟩ .liveOnEntry {} = .ok r ∧
        (r.graph.node? ⟨3⟩).bind Node.defining? = some ⟨5⟩) ∧
    ∃ first, build readWriteRead .byObject {} = .ok first ∧ ∃ g,
      [.change (.setDefining ⟨4⟩ ⟨2⟩)].foldlM Act.apply first = .ok g ∧
      g.Renamable ⟨0⟩ .liveOnEntry {} ∧ g.tree.dominates ⟨0⟩ ⟨3⟩ = true ∧ g.accesses ⟨3⟩ = [⟨4⟩] ∧
      ∃ r, g.renameFrom ⟨0⟩ .liveOnEntry {} = .ok r ∧ r.visited.contains ⟨3⟩ = false ∧
        (r.graph.node? ⟨4⟩).bind Node.defining? = some ⟨2⟩ := by
  decide +kernel

end Graph

end MemoryFlow
