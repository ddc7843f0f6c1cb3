import MemoryFlow.Proofs.Graph.Creation
import MemoryFlow.Proofs.Graph.Descent

/-! # Linking the accesses of a graph

What holds at a place that can be reached is the last definition or phi before it in its block, or
else in the nearest block above that has one. Renaming brings it along the dominator tree and links
every access to it. The invariant `Graph.Linking` says which accesses are linked so far and along
which edges values have flowed into phis; each step adds one of either.
-/

namespace MemoryFlow.Graph

variable {g g' base : Graph} {p : Procedure} {entry b block pred succ : Block} {a x : Access}
  {n : Node} {seen before after : List Access} {done : Access → Prop}
  {flowed : Block → Block → Prop}

/-- What holds at the start of a block that can be reached. -/
def reachIn (g : Graph) (b : Block) : Access :=
  ((g.tree.dominators b).findSome? fun above => (g.definitions above).getLast?).getD .liveOnEntry

def reachOut (g : Graph) (b : Block) : Access :=
  (g.definitions b).getLast?.getD (g.reachIn b)

/-- What holds in a block after some of its accesses. Where nothing is reached memory is as on
entry. -/
def holdsAfter (g : Graph) (b : Block) (seen : List Access) : Access :=
  if g.tree.contains b then (g.defining seen).getLast?.getD (g.reachIn b) else .liveOnEntry

/-- A graph of which some accesses are linked, and into whose phis values have flowed along some
edges. -/
structure Linking (base : Graph) (done : Access → Prop) (flowed : Block → Block → Prop)
    (g : Graph) : Prop where
  frame : g = { base with nodes := g.nodes }
  uncached : g.Uncached
  outline : ∀ x, g.outline? x = base.outline? x
  linked : ∀ b before a after n, base.accesses b = before ++ a :: after → done a →
    g.node? a = some n → n.isPhi = false →
    n.link? = some { defining := some (base.holdsAfter b before) }
  unlinked : ∀ a n, ¬done a → g.node? a = some n → n.isPhi = false → n.link? = some {}
  incoming : ∀ phi n pred value, g.node? phi = some n → n.isPhi = true →
    ((pred, value) ∈ n.incoming ↔ flowed pred n.block ∧
    value = base.holdsAfter pred (base.accesses pred))
  /-- Nothing flows into a phi twice from one block. -/
  once : ∀ phi n, g.node? phi = some n → (n.incoming.map Prod.fst).Nodup

theorem holdsAfter_unreached (missed : g.tree.contains b = false) :
    g.holdsAfter b seen = .liveOnEntry := by
  rw [holdsAfter, missed]
  rfl

theorem holdsAfter_nil (reached : g.tree.contains b = true) : g.holdsAfter b [] = g.reachIn b := by
  rw [holdsAfter, reached]
  rfl

theorem Arranged.holdsAfter_accesses (h : g.Arranged p entry) (reached : g.tree.contains b = true) :
    g.holdsAfter b (g.accesses b) = g.reachOut b := by
  rw [holdsAfter, reached, reachOut, h.definitions_eq]
  rfl

theorem exists_of_mem_defining (member : a ∈ g.defining seen) :
    ∃ n, g.outline? a = some n ∧ n.isUse = false := by
  have kind := (List.mem_filter.mp member).2
  cases outline : g.outline? a with
  | none => simp [outline] at kind
  | some n => exact ⟨n, rfl, by simpa [outline] using kind⟩

theorem Arranged.holdsAfter_defines (h : g.Arranged p entry) (b : Block) (seen : List Access) :
    ∃ n, g.outline? (g.holdsAfter b seen) = some n ∧ n.isUse = false := by
  have onEntry : ∃ n, g.outline? .liveOnEntry = some n ∧ n.isUse = false := ⟨_, h.entryNode, rfl⟩
  rw [holdsAfter]
  split
  · cases last : (g.defining seen).getLast? with
    | some a => exact exists_of_mem_defining (List.mem_of_getLast? last)
    | none =>
        rw [Option.getD_none, reachIn]
        cases above : (g.tree.dominators b).findSome? fun x => (g.definitions x).getLast? with
        | none => exact onEntry
        | some a =>
            obtain ⟨x, _, last⟩ := List.exists_of_findSome?_eq_some above
            exact exists_of_mem_defining (h.definitions_eq x ▸ List.mem_of_getLast? last)
  · exact onEntry

theorem Linking.start (created : base.Created p entry) :
    base.Linking (fun _ => False) (fun _ _ => False) base := by
  have role : ∀ a n, base.node? a = some n → n.role = n.outline.role := by
    intro a n found
    have plain := created.plain a
    rw [bare?_eq found, outline?_eq found] at plain
    have equal : n.bare.role = n.outline.role := congrArg Node.role (Option.some.inj plain)
    exact equal
  refine ⟨rfl, .of_plain created.cachedBy created.plain, fun _ => rfl,
    fun _ _ _ _ _ _ none => none.elim, ?_, ?_, ?_⟩
  · intro a n _ found notPhi
    have plain := role a n found
    obtain ⟨number, block, kind, users⟩ := n
    cases kind with
    | definition inst link | use inst link =>
        cases plain
        rfl
    | phi => cases notPhi
  · intro phi n pred value found isPhi
    have plain := role phi n found
    obtain ⟨number, block, kind, users⟩ := n
    cases kind with
    | definition | use => cases isPhi
    | phi incoming =>
        cases plain
        simp [Node.incoming]
  · intro phi n found
    have plain := role phi n found
    obtain ⟨number, block, kind, users⟩ := n
    cases kind with
    | definition | use => exact List.nodup_nil
    | phi incoming =>
        cases plain
        exact List.nodup_nil

theorem Rewired.read {m : Node} (rewired : g.Rewired g' a m) (found : g'.node? x = some n) :
    (x = a ∧ n.block = m.block ∧ n.role = m.role) ∨
      (x ≠ a ∧ ∃ old, g.node? x = some old ∧ n.block = old.block ∧ n.role = old.role) := by
  have bare := bare?_eq found
  by_cases same : x = a
  · subst same
    have equal := Option.some.inj (bare.symm.trans rewired.here)
    have block : n.bare.block = m.bare.block := congrArg Node.block equal
    have role : n.bare.role = m.bare.role := congrArg Node.role equal
    exact .inl ⟨rfl, block, role⟩
  · rw [rewired.elsewhere x same] at bare
    obtain ⟨old, known, equal⟩ := node?_of_bare? bare
    exact .inr ⟨same, old, known, (congrArg Node.block equal).symm, (congrArg Node.role equal).symm⟩

theorem outline?_eq_bare? (g : Graph) (x : Access) :
    g.outline? x = (g.bare? x).map Node.outline := by
  rw [outline?, bare?, Option.map_map]
  rfl

theorem Rewired.outline {m : Node} (rewired : g.Rewired g' a m) (found : g.node? a = some n)
    (same : m.outline = n.outline) (x : Access) : g'.outline? x = g.outline? x := by
  by_cases here : x = a
  · subst here
    rw [outline?_eq_bare?, rewired.here, outline?_eq found]
    exact congrArg some same
  · rw [outline?_eq_bare?, outline?_eq_bare?, rewired.elsewhere x here]

theorem link?_congr {m : Node} (role : n.role = m.role) : n.link? = m.link? := by
  simp only [Node.link?, role]

theorem isPhi_congr {m : Node} (role : n.role = m.role) : n.isPhi = m.isPhi := by
  simp only [Node.isPhi, role]

theorem incoming_congr {m : Node} (role : n.role = m.role) : n.incoming = m.incoming := by
  simp only [Node.incoming, role]

theorem Arranged.nodup_succs (h : g.Arranged p entry) (b : Block) : (g.flow.succs b).Nodup := by
  rw [h.flow]
  exact FlowGraph.nodup_succs p b

theorem front_unique {l before' after' : List Access} (distinct : l.Nodup)
    (first : l = before ++ a :: after) (second : l = before' ++ a :: after') : before = before' := by
  rw [first, List.nodup_append, List.nodup_cons] at distinct
  have outside : a ∉ before := fun member => distinct.2.2 a member a (by simp) rfl
  exact ((List.append_cons_inj_of_notMem outside distinct.2.1.1).mp (first.symm.trans second)).1

theorem Arranged.place_unique (h : g.Arranged p entry) {before' after' : List Access}
    (first : g.accesses b = before ++ a :: after)
    (second : g.accesses block = before' ++ a :: after') :
    b = block ∧ before = before' := by
  obtain ⟨_, n, found, rfl⟩ :=
    h.mem_accesses.mp (first ▸ List.mem_append_right _ List.mem_cons_self)
  obtain ⟨_, m, found', rfl⟩ :=
    h.mem_accesses.mp (second ▸ List.mem_append_right _ List.mem_cons_self)
  obtain rfl := Option.some.inj (found.symm.trans found')
  exact ⟨rfl, front_unique (h.nodup_accesses n.block) first second⟩

theorem Linking.link (h : base.Arranged p entry) (linking : base.Linking done flowed g)
    (place : base.accesses b = before ++ a :: after) (found : g.node? a = some n)
    (notPhi : n.isPhi = false) (new : ¬done a) :
    ∃ g', g.setDefining a (base.holdsAfter b before) = .ok g' ∧
      base.Linking (fun x => done x ∨ x = a) flowed g' := by
  obtain ⟨outline, known, defines⟩ := h.holdsAfter_defines b before
  rw [← linking.outline] at known
  obtain ⟨m, hd, rfl⟩ := node?_of_outline? known
  obtain ⟨g', ran, rewired⟩ :=
    setDefining_rewired linking.uncached hd (by simpa using defines) found
    (linking.unlinked a n new found notPhi)
  have kind : (n.definedBy (base.holdsAfter b before)).outline = n.outline ∧
      (n.definedBy (base.holdsAfter b before)).isPhi = false ∧
      (n.definedBy (base.holdsAfter b before)).link? =
        some { defining := some (base.holdsAfter b before) } := by
    obtain ⟨number, block, role, users⟩ := n
    cases role with
    | definition | use => exact ⟨rfl, rfl, rfl⟩
    | phi => cases notPhi
  refine ⟨g', ran, ?_, rewired.uncached, ?_, ?_, ?_, ?_, ?_⟩
  · rw [rewired.frame, linking.frame]
  · exact fun x => (rewired.outline found kind.1 x).trans (linking.outline x)
  · intro b' before' x after' m place' either read notPhi'
    rcases rewired.read read with ⟨rfl, _, role⟩ | ⟨other, old, known, _, role⟩
    · obtain ⟨rfl, rfl⟩ := h.place_unique place place'
      exact (link?_congr role).trans kind.2.2
    · exact (link?_congr role).trans (linking.linked b' before' x after' old place'
        (either.resolve_right other) known ((isPhi_congr role).symm.trans notPhi'))
  · intro x m neither read notPhi'
    rcases rewired.read read with ⟨rfl, _, role⟩ | ⟨other, old, known, _, role⟩
    · exact absurd (.inr rfl) neither
    · exact (link?_congr role).trans
        (linking.unlinked x old (fun before => neither (.inl before)) known
        ((isPhi_congr role).symm.trans notPhi'))
  · intro phi m pred value read isPhi
    rcases rewired.read read with ⟨rfl, _, role⟩ | ⟨other, old, known, block, role⟩
    · exact absurd (isPhi.symm.trans ((isPhi_congr role).trans kind.2.1)) (by simp)
    · rw [incoming_congr role, block]
      exact linking.incoming phi old pred value known ((isPhi_congr role).symm.trans isPhi)
  · intro x m read
    rcases rewired.read read with ⟨_, _, role⟩ | ⟨_, old, known, _, role⟩
    · rw [m.incoming_of_not_isPhi ((isPhi_congr role).trans kind.2.1)]
      exact List.nodup_nil
    · rw [incoming_congr role]
      exact linking.once x old known

theorem Linking.flow (h : base.Arranged p entry) (linking : base.Linking done flowed g)
    (isPhi : base.phi? succ = some a) (new : ¬flowed pred succ) :
    ∃ g', g.addIncoming a pred (base.holdsAfter pred (base.accesses pred)) = .ok g' ∧
      base.Linking done (fun x y => flowed x y ∨ x = pred ∧ y = succ) g' := by
  obtain ⟨outline, known, defines⟩ := h.holdsAfter_defines pred (base.accesses pred)
  rw [← linking.outline] at known
  obtain ⟨m, hv, rfl⟩ := node?_of_outline? known
  obtain ⟨outline, known, phi, rfl⟩ := (h.phi succ a).mp isPhi
  rw [← linking.outline] at known
  obtain ⟨n, found, rfl⟩ := node?_of_outline? known
  rw [Node.isPhi_outline] at phi
  obtain ⟨g', ran, rewired⟩ :=
    addIncoming_rewired linking.uncached pred hv (by simpa using defines) found phi
  have kind : ∀ value, (n.withIncoming pred value).outline = n.outline ∧
      (n.withIncoming pred value).block = n.block ∧ (n.withIncoming pred value).isPhi = true ∧
      (n.withIncoming pred value).incoming = n.incoming ++ [(pred, value)] := by
    obtain ⟨number, block, role, users⟩ := n
    cases role with
    | definition | use => cases phi
    | phi => exact fun _ => ⟨rfl, rfl, rfl, rfl⟩
  obtain ⟨sameOutline, sameBlock, stillPhi, grown⟩ :=
    kind (base.holdsAfter pred (base.accesses pred))
  refine ⟨g', ran, ?_, rewired.uncached, ?_, ?_, ?_, ?_, ?_⟩
  · rw [rewired.frame, linking.frame]
  · exact fun x => (rewired.outline found sameOutline x).trans (linking.outline x)
  · intro b before x after m place linked read notPhi
    rcases rewired.read read with ⟨rfl, _, role⟩ | ⟨other, old, known, _, role⟩
    · exact absurd (notPhi.symm.trans ((isPhi_congr role).trans stillPhi)) (by simp)
    · exact (link?_congr role).trans (linking.linked b before x after old place linked known
        ((isPhi_congr role).symm.trans notPhi))
  · intro x m new read notPhi
    rcases rewired.read read with ⟨rfl, _, role⟩ | ⟨other, old, known, _, role⟩
    · exact absurd (notPhi.symm.trans ((isPhi_congr role).trans stillPhi)) (by simp)
    · exact (link?_congr role).trans (linking.unlinked x old new known
        ((isPhi_congr role).symm.trans notPhi))
  · intro x m source value read isPhi'
    rcases rewired.read read with ⟨rfl, block, role⟩ | ⟨other, old, known', block, role⟩
    · have same : m.block = n.outline.block := block.trans sameBlock
      rw [incoming_congr role, grown, List.mem_append, List.mem_singleton, same,
        linking.incoming x n source value found phi, Prod.mk.injEq]
      constructor
      · rintro (⟨before, rfl⟩ | ⟨rfl, rfl⟩)
        · exact ⟨.inl before, rfl⟩
        · exact ⟨.inr ⟨rfl, rfl⟩, rfl⟩
      · rintro ⟨before | ⟨rfl, _⟩, rfl⟩
        · exact .inl ⟨before, rfl⟩
        · exact .inr ⟨rfl, rfl⟩
    · have isPhi'' := (isPhi_congr role).symm.trans isPhi'
      have elsewhere : old.block ≠ n.outline.block := by
        intro same
        have first := (h.phi old.block x).mpr ⟨old.outline,
          (linking.outline x).symm.trans (outline?_eq known'), by simpa using isPhi'', rfl⟩
        rw [same, isPhi] at first
        exact other (Option.some.inj first).symm
      rw [incoming_congr role, block, linking.incoming x old source value known' isPhi'']
      simp only [elsewhere, and_false, or_false]
  · intro x m read
    rcases rewired.read read with ⟨_, _, role⟩ | ⟨_, old, known, _, role⟩
    · rw [incoming_congr role, grown, List.map_append, List.nodup_append]
      refine ⟨linking.once a n found, List.nodup_singleton _, ?_⟩
      rintro source member _ single rfl
      obtain ⟨⟨_, value⟩, flows, rfl⟩ := List.mem_map.mp member
      obtain rfl := List.mem_singleton.mp single
      exact new ((linking.incoming a n _ value found phi).mp flows).1
    · rw [incoming_congr role]
      exact linking.once x old known

theorem Linking.flow_none (h : base.Arranged p entry) (linking : base.Linking done flowed g)
    (pred : Block) (none : base.phi? succ = none) :
    base.Linking done (fun x y => flowed x y ∨ x = pred ∧ y = succ) g := by
  refine { linking with incoming := fun phi n x value found isPhi => ?_ }
  have other : n.block ≠ succ := by
    intro same
    have known := (h.phi n.block phi).mpr
      ⟨n.outline, (linking.outline phi).symm.trans (outline?_eq found), by simpa using isPhi, rfl⟩
    rw [same, none] at known
    cases known
  simp only [other, and_false, or_false]
  exact linking.incoming phi n x value found isPhi

theorem Linking.pass (linking : base.Linking done flowed g) (found : g.node? a = some n)
    (isPhi : n.isPhi = true) : base.Linking (fun x => done x ∨ x = a) flowed g := by
  refine { linking with linked := ?_, unlinked := ?_ }
  · intro b before x after m place either read notPhi
    refine linking.linked b before x after m place (either.resolve_right ?_) read notPhi
    rintro rfl
    obtain rfl := Option.some.inj (found.symm.trans read)
    exact absurd (isPhi.symm.trans notPhi) (by simp)
  · exact fun x m neither => linking.unlinked x m fun before => neither (.inl before)

theorem defining_use (found : g.outline? a = some n) (isUse : n.isUse = true) :
    g.defining (seen ++ [a]) = g.defining seen := by
  simp [defining, found, isUse]

theorem defining_define (found : g.outline? a = some n) (notUse : n.isUse = false) :
    g.defining (seen ++ [a]) = g.defining seen ++ [a] := by
  simp [defining, found, notUse]

theorem holdsAfter_use (found : g.outline? a = some n) (isUse : n.isUse = true) :
    g.holdsAfter b (seen ++ [a]) = g.holdsAfter b seen := by
  rw [holdsAfter, holdsAfter, defining_use found isUse]

theorem holdsAfter_define (reached : g.tree.contains b = true) (found : g.outline? a = some n)
    (notUse : n.isUse = false) : g.holdsAfter b (seen ++ [a]) = a := by
  rw [holdsAfter, defining_define found notUse, reached]
  simp

theorem Linking.renameAccess (h : base.Arranged p entry) (linking : base.Linking done flowed g)
    (reached : base.tree.contains b = true) (place : base.accesses b = before ++ a :: after)
    (new : ¬done a) : ∃ g', renameAccess .first (g, base.holdsAfter b before) a =
        .ok (g', base.holdsAfter b (before ++ [a])) ∧
      base.Linking (fun x => done x ∨ x = a) flowed g' := by
  have member : a ∈ base.accesses b := place ▸ List.mem_append_right _ List.mem_cons_self
  obtain ⟨_, n₀, known, _⟩ := h.mem_accesses.mp member
  have outline := outline?_eq known
  have outline' := (linking.outline a).trans outline
  obtain ⟨n, found, same⟩ := node?_of_outline? outline'
  have sameUse : n.isUse = n₀.outline.isUse := by rw [← same, Node.isUse_outline]
  rw [Graph.renameAccess]
  simp only [node_eq found, ok_bind]
  cases isPhi : n.isPhi with
  | true =>
      have notUse : n.isUse = false := n.isUse_of_isPhi isPhi
      refine ⟨g, ?_, linking.pass found isPhi⟩
      rw [holdsAfter_define reached outline (sameUse.symm.trans notUse)]
      rfl
  | false =>
      obtain ⟨g', ran, linking'⟩ := linking.link h place found isPhi new
      have link := linking.unlinked a n new found isPhi
      have undefined : n.defining? = none := by simp [Node.defining?, link]
      refine ⟨g', ?_, linking'⟩
      simp only [undefined, Option.isNone_none, or_true, if_true, ran, ok_bind]
      cases isUse : n.isUse with
      | true =>
          rw [holdsAfter_use outline (sameUse.symm.trans isUse)]
          rfl
      | false =>
          rw [holdsAfter_define reached outline (sameUse.symm.trans isUse)]
          rfl

theorem Linking.accesses_eq (linking : base.Linking done flowed g) :
    g.accesses = base.accesses := by
  rw [linking.frame]
  rfl

theorem Linking.phi?_eq (linking : base.Linking done flowed g) : g.phi? = base.phi? := by
  rw [linking.frame]
  rfl

theorem Linking.renameBlock (h : base.Arranged p entry) (linking : base.Linking done flowed g)
    (reached : base.tree.contains b = true) (fresh : ∀ a ∈ base.accesses b, ¬done a) :
    ∃ g', g.renameBlock .first b (base.reachIn b) = .ok (g', base.reachOut b) ∧
      base.Linking (fun x => done x ∨ x ∈ base.accesses b) flowed g' := by
  obtain ⟨⟨g', holding⟩, ran, linking', holds⟩ := foldlM_total (base.accesses b)
    (Graph.renameAccess .first) (g, base.reachIn b)
    (fun seen state => base.Linking (fun x => done x ∨ x ∈ seen) flowed state.1 ∧
      state.2 = base.holdsAfter b seen)
    ⟨by simpa using linking, (holdsAfter_nil reached).symm⟩ (by
      rintro seen a rest ⟨g, _⟩ place ⟨linking, rfl⟩
      have member : a ∈ base.accesses b := place ▸ List.mem_append_right _ List.mem_cons_self
      have once := h.nodup_accesses b
      rw [place, List.nodup_append] at once
      have new : ¬(done a ∨ a ∈ seen) := by
        rintro (before | twice)
        · exact fresh a member before
        · exact once.2.2 a twice a (by simp) rfl
      obtain ⟨g', ran, linking'⟩ := linking.renameAccess h reached place new
      refine ⟨_, ran, ?_, rfl⟩
      simpa only [List.mem_append, List.mem_singleton, or_assoc] using linking')
  refine ⟨g', ?_, linking'⟩
  rw [Graph.renameBlock, linking.accesses_eq, ran, show holding = base.reachOut b from
    holds.trans (h.holdsAfter_accesses reached)]

theorem not_flowed {succs rest : List Block} {before : List Block} (new : ∀ y, ¬flowed b y)
    (distinct : succs.Nodup) (whole : succs = before ++ succ :: rest) :
    ¬(flowed b succ ∨ b = b ∧ succ ∈ before) := by
  rintro (earlier | ⟨_, twice⟩)
  · exact new succ earlier
  · rw [whole, List.nodup_append] at distinct
    exact distinct.2.2 succ twice succ List.mem_cons_self rfl

theorem Linking.renameEdges (h : base.Arranged p entry) (linking : base.Linking done flowed g)
    (reached : base.tree.contains b = true) (new : ∀ y, ¬flowed b y) {succs : List Block}
    (distinct : succs.Nodup) :
    ∃ g', succs.foldlM (renameEdge .first b (base.reachOut b)) g = .ok g' ∧
      base.Linking done (fun x y => flowed x y ∨ x = b ∧ y ∈ succs) g' := by
  refine foldlM_total succs _ g
    (fun seen g => base.Linking done (fun x y => flowed x y ∨ x = b ∧ y ∈ seen) g) ?_ ?_
  · simpa using linking
  · intro seen succ rest g whole linking
    have same : (fun x y => flowed x y ∨ x = b ∧ y ∈ seen ++ [succ]) =
        fun x y => (flowed x y ∨ x = b ∧ y ∈ seen) ∨ x = b ∧ y = succ := by
      funext x y
      simp only [List.mem_append, List.mem_singleton, and_or_left, or_assoc]
    rw [same, renameEdge, linking.phi?_eq]
    cases known : base.phi? succ with
    | none => exact ⟨g, rfl, linking.flow_none h b known⟩
    | some phi =>
        obtain ⟨g', ran, linking'⟩ := linking.flow h known (not_flowed new distinct whole)
        rw [h.holdsAfter_accesses reached] at ran
        exact ⟨g', ran, linking'⟩

def LinkedIn (base : Graph) (visited : Block → Prop) (g : Graph) : Prop :=
  base.Linking (fun a => ∃ b, visited b ∧ a ∈ base.accesses b)
    (fun x y => visited x ∧ base.flow.Edge x y) g

theorem Linking.visited {visited : Block → Prop} (linking : base.Linking
      (fun a => (∃ b, visited b ∧ a ∈ base.accesses b) ∨ a ∈ base.accesses block)
      (fun x y => (visited x ∧ base.flow.Edge x y) ∨ x = block ∧ y ∈ base.flow.succs block) g) :
    base.LinkedIn (fun b => visited b ∨ b = block) g := by
  have accesses : (fun a => ∃ b, (visited b ∨ b = block) ∧ a ∈ base.accesses b) =
      fun a => (∃ b, visited b ∧ a ∈ base.accesses b) ∨ a ∈ base.accesses block := by
    funext a
    simp only [or_and_right, exists_or, exists_eq_left]
  have edges : (fun x y => (visited x ∨ x = block) ∧ base.flow.Edge x y) =
      fun x y => (visited x ∧ base.flow.Edge x y) ∨ x = block ∧ y ∈ base.flow.succs block := by
    funext x y
    rw [or_and_right]
    refine propext (or_congr_right ⟨?_, ?_⟩)
    · rintro ⟨rfl, e⟩
      exact ⟨rfl, e⟩
    · rintro ⟨rfl, e⟩
      exact ⟨rfl, e⟩
  rw [LinkedIn, accesses, edges]
  exact linking

theorem Arranged.not_visited (h : base.Arranged p entry) {visited : Block → Prop} (new : ¬visited b)
    (member : a ∈ base.accesses b) : ¬∃ b, visited b ∧ a ∈ base.accesses b := by
  rintro ⟨b', before, member'⟩
  obtain ⟨_, n, found, rfl⟩ := h.mem_accesses.mp member
  obtain ⟨_, m, found', rfl⟩ := h.mem_accesses.mp member'
  obtain rfl := Option.some.inj (found.symm.trans found')
  exact new before

structure Visiting (base : Graph) (visited : Block → Prop) (r : Renaming) : Prop where
  linked : base.LinkedIn visited r.graph
  same : ∀ b, r.visited.contains b = true ↔ visited b

theorem Visiting.enter (h : base.Arranged p entry) {r : Renaming} {visited : Block → Prop}
    (visiting : base.Visiting visited r) (reached : base.tree.contains b = true)
    (new : ¬visited b) : ∃ r', r.enter .first b (base.reachIn b) = .ok (r', base.reachOut b) ∧
      base.Visiting (fun x => visited x ∨ x = b) r' := by
  obtain ⟨g₁, renamed, linking₁⟩ :=
    Linking.renameBlock h visiting.linked reached fun a member => h.not_visited new member
  obtain ⟨g₂, flowed, linking₂⟩ :=
    linking₁.renameEdges h reached (fun _ before => new before.1) (h.nodup_succs b)
  refine ⟨⟨g₂, r.visited.insert b⟩, ?_, linking₂.visited, fun x => ?_⟩
  · have flow : g₁.flow = base.flow := by rw [linking₁.frame]
    rw [Renaming.enter, if_neg (by simp), renamed, ok_bind]
    simp only [flow, flowed, ok_bind]
    rfl
  · rw [Std.TreeSet.contains_insert, Bool.or_eq_true, visiting.same, beq_iff_eq,
      Std.compare_eq_iff_eq, or_comm, eq_comm]

/-- What holds at the start of a block is what holds at the end of its immediate dominator. -/
theorem reachIn_idom (h : base.Arranged p entry) {id above : TreeNode}
    (isAbove : base.tree.idomOf? id = some above) (ha : base.tree.blockOf? above = some block)
    (hb : base.tree.blockOf? id = some b) : base.reachIn b = base.reachOut block := by
  rw [reachIn, h.tree.dominators_idom isAbove ha hb, List.findSome?_cons, reachOut]
  cases (base.definitions block).getLast? <;> rfl

theorem run_visiting (created : base.Created p entry) :
    ∃ r, Renaming.run ⟨base, {}⟩ .first entry .liveOnEntry = .ok r ∧
      base.Visiting (Reaches base.flow.Edge entry) r := by
  have h := created.toArranged
  have start : base.Visiting (fun _ => False) ⟨base, {}⟩ := by
    refine ⟨?_, by simp⟩
    simpa [LinkedIn] using Linking.start created
  have descent : Renaming.Descent base.tree base.flow entry entry .first base.reachIn base.reachOut
      base.Visiting := by
    refine ⟨h.tree, fun visiting => ?_, fun isAbove ha hb _ => reachIn_idom h isAbove ha hb,
      fun below new visiting => visiting.enter h ((h.tree.reaches _).mpr below.1) new⟩
    rw [visiting.linked.frame]
  have onEntry : base.reachIn entry = .liveOnEntry := by
    rw [reachIn, h.tree.dominators_root]
    rfl
  have all : base.flow.AtOrBelow entry entry = Reaches base.flow.Edge entry := by
    funext b
    exact propext ⟨fun below => below.1, fun reached => ⟨reached, .from_root⟩⟩
  rw [← onEntry, ← all]
  exact descent.run .self (by simp) start

theorem Arranged.reaches_phi (h : base.Arranged p entry) (isPhi : base.phi? b = some a) :
    Reaches base.flow.Edge entry b :=
  have ⟨_, reached, edge⟩ := h.joins b (by rw [isPhi]; rfl)
  reached.step edge

theorem Linking.addEntryEdges (h : base.Arranged p entry) (linking : base.Linking done flowed g)
    (missed : base.tree.contains b = false) (new : ∀ y, ¬flowed b y) {succs : List Block}
    (distinct : succs.Nodup) :
    ∃ g', succs.foldlM (addEntryEdge b) g = .ok g' ∧
      base.Linking done (fun x y => flowed x y ∨ x = b ∧ y ∈ succs) g' := by
  refine foldlM_total succs _ g
    (fun seen g => base.Linking done (fun x y => flowed x y ∨ x = b ∧ y ∈ seen) g) ?_ ?_
  · simpa using linking
  · intro seen succ rest g whole linking
    have same : (fun x y => flowed x y ∨ x = b ∧ y ∈ seen ++ [succ]) =
        fun x y => (flowed x y ∨ x = b ∧ y ∈ seen) ∨ x = b ∧ y = succ := by
      funext x y
      simp only [List.mem_append, List.mem_singleton, and_or_left, or_assoc]
    have tree : g.tree = base.tree := by rw [linking.frame]
    rw [same, addEntryEdge, tree, linking.phi?_eq]
    cases known : base.phi? succ with
    | none =>
        refine ⟨g, ?_, linking.flow_none h b known⟩
        split <;> rfl
    | some phi =>
        have unflowed := not_flowed new distinct whole
        have reached : base.tree.contains succ = true :=
          (h.tree.reaches succ).mpr (h.reaches_phi known)
        obtain ⟨_, outline, isPhi, rfl⟩ := (h.phi succ phi).mp known
        obtain ⟨n, found, rfl⟩ := node?_of_outline? ((linking.outline phi).trans outline)
        simp only [reached, Bool.not_true, Bool.false_eq_true, if_false, node_eq found, ok_bind]
        cases given : n.incomingFrom? b with
        | none =>
            obtain ⟨g', ran, linking'⟩ := linking.flow h known unflowed
            rw [holdsAfter_unreached missed] at ran
            exact ⟨g', ran, linking'⟩
        | some value =>
            obtain ⟨_, _, whole, _⟩ := List.lookup_eq_some_iff.mp given
            have member : (b, value) ∈ n.incoming := by simp [whole]
            have flows := (linking.incoming phi n b value found (by simpa using isPhi)).mp member
            exact absurd flows.1 unflowed

theorem Linking.linkToEntry (h : base.Arranged p entry) (linking : base.Linking done flowed g)
    (missed : base.tree.contains b = false) (fresh : ∀ a ∈ base.accesses b, ¬done a) :
    ∃ g', (base.accesses b).foldlM linkToEntry g = .ok g' ∧
      base.Linking (fun x => done x ∨ x ∈ base.accesses b) flowed g' := by
  refine foldlM_total (base.accesses b) _ g
    (fun seen g => base.Linking (fun x => done x ∨ x ∈ seen) flowed g) ?_ ?_
  · simpa using linking
  · intro seen a rest g place linking
    have member : a ∈ base.accesses b := place ▸ List.mem_append_right _ List.mem_cons_self
    have once := h.nodup_accesses b
    rw [place, List.nodup_append] at once
    have new : ¬(done a ∨ a ∈ seen) := by
      rintro (before | twice)
      · exact fresh a member before
      · exact once.2.2 a twice a (by simp) rfl
    obtain ⟨_, n₀, known, block⟩ := h.mem_accesses.mp member
    obtain ⟨n, found, same⟩ := node?_of_outline? ((linking.outline a).trans (outline?_eq known))
    have notPhi : n.isPhi = false := by
      by_contra isPhi
      have isPhi : n₀.outline.isPhi = true := by rw [← same, Node.isPhi_outline]; simpa using isPhi
      have reached := h.reaches_phi ((h.phi b a).mpr ⟨_, outline?_eq known, isPhi, block⟩)
      rw [← h.tree.reaches, missed] at reached
      cases reached
    obtain ⟨g', ran, linking'⟩ := linking.link h place found notPhi new
    rw [holdsAfter_unreached missed] at ran
    refine ⟨g', ?_, ?_⟩
    · rw [Graph.linkToEntry, node_eq found, ok_bind, notPhi]
      exact ran
    · simpa only [List.mem_append, List.mem_singleton, or_assoc] using linking'

theorem LinkedIn.linkUnreachable (h : base.Arranged p entry) {visited : Block → Prop}
    (linked : base.LinkedIn visited g) (missed : base.tree.contains b = false) (new : ¬visited b) :
    ∃ g', g.linkUnreachable b = .ok g' ∧ base.LinkedIn (fun x => visited x ∨ x = b) g' := by
  obtain ⟨g₁, flowed, linking₁⟩ :=
    Linking.addEntryEdges h linked missed (fun _ before => new before.1) (h.nodup_succs b)
  obtain ⟨g₂, ran, linking₂⟩ :=
    linking₁.linkToEntry h missed fun a member => h.not_visited new member
  refine ⟨g₂, ?_, linking₂.visited⟩
  have tree : g.tree = base.tree := by rw [Linking.frame linked]
  have flow : g.flow = base.flow := by rw [Linking.frame linked]
  simp only [Graph.linkUnreachable, tree, missed, flow, flowed, ok_bind, linking₁.accesses_eq, ran]
  rfl

theorem linkAll_linkedIn (created : base.Created p entry) (distinct : base.flow.blocks.Nodup) :
    ∃ g, base.linkAll = .ok g ∧
      base.LinkedIn (fun b => Reaches base.flow.Edge entry b ∨ b ∈ base.flow.blocks) g := by
  have h := created.toArranged
  obtain ⟨r, ran, visiting⟩ := run_visiting created
  have unvisited : base.flow.blocks.filter (!r.visited.contains ·) =
      base.flow.blocks.filter (!base.tree.contains ·) := by
    refine List.filter_congr fun b _ => ?_
    rw [Bool.eq_iff_iff, Bool.not_eq_true', Bool.not_eq_true', ← Bool.not_eq_true,
      ← Bool.not_eq_true, visiting.same, h.tree.reaches]
  obtain ⟨g, linkedAll, linked⟩ := foldlM_total (base.flow.blocks.filter (!base.tree.contains ·))
    Graph.linkUnreachable r.graph
    (fun seen g => base.LinkedIn (fun b => Reaches base.flow.Edge entry b ∨ b ∈ seen) g)
    (by simpa using visiting.linked) (by
      intro seen b rest g whole linked
      have member : b ∈ base.flow.blocks.filter (!base.tree.contains ·) := by simp [whole]
      have missed : base.tree.contains b = false := by simpa using (List.mem_filter.mp member).2
      have once := distinct.filter (!base.tree.contains ·)
      rw [whole, List.nodup_append] at once
      have new : ¬(Reaches base.flow.Edge entry b ∨ b ∈ seen) := by
        rintro (reached | twice)
        · rw [← h.tree.reaches, missed] at reached
          cases reached
        · exact once.2.2 b twice b (by simp) rfl
      obtain ⟨g', ran, linked'⟩ := linked.linkUnreachable h missed new
      exact ⟨g', ran, by simpa only [List.mem_append, List.mem_singleton, or_assoc] using linked'⟩)
  refine ⟨g, ?_, ?_⟩
  · rw [linkAll, h.tree.root]
    simp only [ran, ok_bind, unvisited, linkedAll]
  · have same : (fun b => Reaches base.flow.Edge entry b ∨
        b ∈ base.flow.blocks.filter (!base.tree.contains ·)) =
        fun b => Reaches base.flow.Edge entry b ∨ b ∈ base.flow.blocks := by
      funext b
      refine propext ⟨Or.imp_right fun member => (List.mem_filter.mp member).1, ?_⟩
      rintro (reached | member)
      · exact .inl reached
      · by_cases reached : Reaches base.flow.Edge entry b
        · exact .inl reached
        · refine .inr (List.mem_filter.mpr ⟨member, ?_⟩)
          rw [Bool.not_eq_true', ← Bool.not_eq_true, h.tree.reaches]
          exact reached
    exact same ▸ linked

/-- A graph in which every access is linked to what holds before it. -/
structure Wired (p : Procedure) (entry : Block) (g : Graph) : Prop extends g.Arranged p entry where
  entryLink : ∀ n, g.node? .liveOnEntry = some n → n.defining? = none
  defined : ∀ b before a after n, g.accesses b = before ++ a :: after → g.node? a = some n →
    n.isPhi = false → n.defining? = some (g.holdsAfter b before)
  /-- Into a phi flows what holds at the end of each block before, and that once. -/
  flows : ∀ phi n pred value, g.node? phi = some n → n.isPhi = true → ((pred, value) ∈ n.incoming ↔
    g.flow.Edge pred n.block ∧ value = g.holdsAfter pred (g.accesses pred))
  once : ∀ phi n, g.node? phi = some n → (n.incoming.map Prod.fst).Nodup

/-- A linked graph with the shape of one built for a procedure in which no block leads back to the
entry. -/
structure Linked (p : Procedure) (entry : Block) (g : Graph) : Prop extends
    g.Shaped p entry, g.Wired p entry where
  first : ∀ b, ¬g.flow.Edge b entry

theorem Wired.incoming (h : g.Wired p entry) (phi : Access) (n : Node) (pred : Block)
    (value : Access) (found : g.node? phi = some n) (isPhi : n.isPhi = true)
    (reached : g.tree.contains pred = true) :
    (pred, value) ∈ n.incoming ↔ g.flow.Edge pred n.block ∧ value = g.reachOut pred := by
  rw [h.flows phi n pred value found isPhi, h.holdsAfter_accesses reached]

theorem holdsAfter_congr (tree : g'.tree = g.tree) (defLists : g'.defLists = g.defLists)
    (outline : ∀ x, g'.outline? x = g.outline? x) : g'.holdsAfter = g.holdsAfter := by
  have definitions : g'.definitions = g.definitions := by
    funext b
    rw [definitions, defLists]
    rfl
  have reachIn : g'.reachIn = g.reachIn := by
    funext b
    rw [Graph.reachIn, Graph.reachIn, tree, definitions]
  have defining : g'.defining = g.defining := by
    funext l
    simp only [Graph.defining, outline]
  funext b l
  rw [holdsAfter, holdsAfter, tree, reachIn, defining]

theorem linkAll_wired (created : base.Created p entry) :
    ∃ g, base.linkAll = .ok g ∧ g.Shaped p entry ∧ g.Wired p entry ∧ g.Uncached ∧
      g.order.settled = {} ∧ g.tree = base.tree ∧ g.instAccess = base.instAccess ∧
      ∀ a, g.outline? a = base.outline? a := by
  have h := created.toShaped
  have blocks : base.flow.blocks = p.layout.blocks := by rw [h.flow, FlowGraph.blocks_ofProcedure]
  obtain ⟨g, ran, linked⟩ := linkAll_linkedIn created (blocks ▸ h.orderly.blocks)
  have linking : Linking _ _ _ g := linked
  have frame := linking.frame
  have tree : g.tree = base.tree := by rw [frame]
  have flow : g.flow = base.flow := by rw [frame]
  have lists : g.lists = base.lists := by rw [frame]
  have defLists : g.defLists = base.defLists := by rw [frame]
  have instAccess : g.instAccess = base.instAccess := by rw [frame]
  have blockPhi : g.blockPhi = base.blockPhi := by rw [frame]
  have shaped := h.transfer tree flow lists defLists instAccess blockPhi linking.outline
  have holdsAfter := holdsAfter_congr tree defLists linking.outline
  have order : g.order = base.order := by rw [frame]
  refine ⟨g, ran, shaped, ⟨shaped.toArranged, ?_, ?_, ?_, linking.once⟩, linking.uncached,
    order ▸ created.settled, tree, instAccess, linking.outline⟩
  · intro n found
    have outline := outline?_eq found
    rw [shaped.entryNode] at outline
    have notPhi : n.isPhi = false := by rw [← Node.isPhi_outline, ← Option.some.inj outline]; rfl
    have link :=
      linking.unlinked _ n (fun ⟨b, _, member⟩ => (h.mem_accesses.mp member).1 rfl) found notPhi
    simp [Node.defining?, link]
  · intro b before a after n place found notPhi
    rw [linking.accesses_eq] at place
    have member : a ∈ base.accesses b := place ▸ List.mem_append_right _ List.mem_cons_self
    have placed : b ∈ base.flow.blocks := by
      rw [h.program b, List.mem_append, List.mem_filterMap] at member
      rcases member with isPhi | ⟨inst, inBlock, _⟩
      · obtain ⟨_, outline, isPhi, _⟩ := (h.phi b a).mp (Option.mem_toList.mp isPhi)
        rw [← linking.outline, outline?_eq found] at outline
        rw [← Option.some.inj outline, Node.isPhi_outline, notPhi] at isPhi
        cases isPhi
      · exact blocks ▸ h.orderly.mem_blocks inBlock
    have link := linking.linked b before a after n place ⟨b, .inr placed, member⟩ found notPhi
    rw [holdsAfter]
    simp [Node.defining?, link]
  · intro phi n pred value found isPhi
    rw [linking.incoming phi n pred value found isPhi, flow, holdsAfter, linking.accesses_eq]
    exact and_congr_left fun _ => and_iff_right_of_imp fun edge =>
      .inr (FlowGraph.mem_blocks_of_edge edge)

end MemoryFlow.Graph
