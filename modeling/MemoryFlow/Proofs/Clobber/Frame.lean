import MemoryFlow.Proofs.Graph.Build

/-! # What searches leave unchanged

A search for a clobber settles places and keeps answers. So whatever has been searched, and however
uses were refined when it was built, a graph has the accesses and links that it was constructed
with, and the places settled in it are right.
-/

namespace MemoryFlow

namespace Graph

variable {g g' : Graph} {p : Procedure} {o : Oracle} {a c : Access} {α : Type}

/-- Whether a graph has come from another by searches: it agrees with it but for what is settled. -/
structure Searched (g g' : Graph) : Prop extends g.Agrees g' where
  settling : g.Settling g.order g'.order

namespace Searched

theorem refl : g.Searched g := ⟨.refl, .refl⟩

theorem trans {g'' : Graph} (first : g.Searched g') (second : g'.Searched g'') : g.Searched g'' :=
  ⟨first.toAgrees.trans second.toAgrees,
    first.settling.trans (first.toAgrees.settling second.settling)⟩

theorem settled (searched : g.Searched g') (once : g.ListedOnce) (right : g.Places g.order) :
    g'.Places g'.order :=
  searched.toAgrees.places (once.places_of_settling searched.settling right)

end Searched

theorem searched_of_cache (kept : g.cache a c = .ok g') : g.Searched g' := by
  obtain ⟨n, read, rest⟩ := bind_eq_ok.mp kept
  have found := node?_of_node read
  cases isPhi : n.isPhi with
  | false =>
      obtain ⟨g'', kept', agrees, _, order, _⟩ := cache_agrees found isPhi c
      cases kept.symm.trans kept'
      exact ⟨agrees, order ▸ .refl⟩
  | true =>
      obtain ⟨_, _, role, _⟩ := n
      cases role with
      | definition | use => cases isPhi
      | phi =>
          cases rest
          exact .refl

theorem agrees_of_ask {question : Ordered α} {answer : α}
    (answered : g.ask question = .ok (answer, g')) :
    g.Agrees g' := by
  obtain ⟨⟨_, order⟩, _, same⟩ := bind_eq_ok.mp answered
  cases same
  exact g.agrees_configured g.config order

theorem searched_of_ask {question : Ordered α} {answer : α} (settles : g.Settles question)
    (answered : g.ask question = .ok (answer, g')) : g.Searched g' := by
  refine ⟨agrees_of_ask answered, ?_⟩
  obtain ⟨⟨_, order⟩, ran, same⟩ := bind_eq_ok.mp answered
  cases same
  exact settles g.order _ order ran

namespace Settles

variable {q : Query}

theorem lowest (first : Access) (rest : List Access) : g.Settles (g.lowest first rest) :=
  .foldlM (fun best a => (dominates a best).bind fun _ => .pure _) rest first

theorem explore (target : Access) (round fuel : Nat) (pending : List Branch) (x : Exploration) :
    g.Settles (g.explore p o q target round fuel pending x) := by
  induction fuel generalizing pending x with
  | zero => exact .fail _
  | succ fuel ih =>
      rw [Graph.explore]
      split
      · exact .pure _
      · refine (lift _).bind fun stop => ?_
        split
        · refine (dominates _ _).bind fun dominates => ?_
          split
          · exact ih _ _
          · exact .pure _
        · exact ih _ _
        · exact (lift _).bind fun _ => ih _ _

theorem lookThrough (fuel round : Nat) (phi : Access) (x : Exploration) :
    g.Settles (g.lookThrough p o q fuel round phi x) := by
  induction fuel generalizing round phi x with
  | zero => exact .fail _
  | succ fuel ih =>
      refine (lift _).bind fun values => (lift _).bind fun target => ?_
      refine (explore _ _ _ _ _).bind fun ended => ?_
      split
      · exact lift _
      · split
        · split
          · exact .fail _
          · exact lowest _ _
        · refine (lift _).bind fun gathered => ?_
          split
          · exact lowest _ _
          · exact .fail _
          · refine (lift _).bind fun n => ?_
            split
            · exact ih _ _ _
            · exact .fail _

theorem audit (start clobber : Access) : g.Settles (g.audit p o q start clobber) := by
  refine (dominates _ _).bind fun dominates => ?_
  have paths : g.Settles (do
      if start = .liveOnEntry then
        if clobber ≠ .liveOnEntry then throw .liveOnEntryClobbered
      else
        let acted ← g.auditPaths p o q start clobber g.walkBound [start] [] false
        if !(← g.node clobber).isPhi && !acted then throw (.neverClobbers clobber) :
      Ordered Unit) := by
    split
    · split
      · exact .fail _
      · exact .pure _
    · refine (lift _).bind fun acted => (lift _).bind fun n => ?_
      split
      · exact .fail _
      · exact .pure _
  dsimp only
  split
  · exact (fail _).bind fun _ => paths
  · exact paths

theorem findClobber (start : Access) : g.Settles (g.findClobber p o q start) := by
  refine (lift _).bind fun bottom => bind ?_ fun found => ?_
  · refine (lift _).bind fun stop => ?_
    split
    · exact .pure _
    · exact (lookThrough _ _ _ _).bind fun _ => .pure _
    · exact .fail _
  · dsimp only
    split
    · exact (audit _ _).bind fun _ => .pure _
    · exact .pure _

end Settles

theorem searched_of_clobberOf {effort : Effort}
    (answered : g.clobberOf p o a = .ok (c, effort, g')) :
    g.Searched g' := by
  obtain ⟨n, _, answered⟩ := bind_eq_ok.mp answered
  split at answered
  · cases answered
    exact .refl
  · cases answered
    exact .refl
  · obtain ⟨op, _, answered⟩ := bind_eq_ok.mp answered
    split at answered
    · cases answered
      exact .refl
    · obtain ⟨constant, _, answered⟩ := bind_eq_ok.mp answered
      split at answered
      · obtain ⟨kept, cached, same⟩ := bind_eq_ok.mp answered
        cases same
        exact searched_of_cache cached
      · dsimp only at answered
        split at answered
        · obtain ⟨kept, cached, same⟩ := bind_eq_ok.mp answered
          cases same
          exact searched_of_cache cached
        · obtain ⟨query, _, answered⟩ := bind_eq_ok.mp answered
          obtain ⟨⟨_, asked⟩, ran, answered⟩ := bind_eq_ok.mp answered
          obtain ⟨kept, cached, same⟩ := bind_eq_ok.mp answered
          cases same
          exact (searched_of_ask (.findClobber _) ran).trans (searched_of_cache cached)

theorem searched_of_clobberAt {loc : Location} {effort : Effort}
    (answered : g.clobberAt p o a loc = .ok (c, effort, g')) : g.Searched g' := by
  obtain ⟨n, _, answered⟩ := bind_eq_ok.mp answered
  split at answered
  · cases answered
    exact .refl
  · obtain ⟨op, _, answered⟩ := bind_eq_ok.mp answered
    split at answered
    · cases answered
      exact .refl
    · obtain ⟨⟨⟨clobber, effort⟩, asked⟩, ran, same⟩ := bind_eq_ok.mp answered
      cases same
      exact searched_of_ask (.findClobber _) ran

end Graph

namespace Refinement

open MemoryFlow.Graph

variable {g g' : Graph} {p : Procedure} {o : Oracle} {a : Access} {block : Block}
  {r r' : Refinement}

theorem searched_of_scan {q : Query} {count : Nat} {holding : List Access} {height : Option Nat}
    (scanned : scan p o a q count holding g = .ok (height, g')) : g.Searched g' := by
  fun_induction scan p o a q count holding g with
  | case1 | case2 =>
      cases scanned
      exact .refl
  | case3 count candidate older g ih =>
      obtain ⟨n, _, scanned⟩ := bind_eq_ok.mp scanned
      split at scanned
      · obtain ⟨⟨clobber, _, asked⟩, answered, scanned⟩ := bind_eq_ok.mp scanned
        dsimp only at scanned
        split at scanned
        · cases scanned
        · cases scanned
          exact searched_of_clobberOf answered
      · split at scanned
        · cases scanned
        · obtain ⟨ends, _, scanned⟩ := bind_eq_ok.mp scanned
          split at scanned
          · cases scanned
            exact .refl
          · obtain ⟨clobbers, _, scanned⟩ := bind_eq_ok.mp scanned
            split at scanned
            · cases scanned
              exact .refl
            · exact ih scanned

theorem searched_of_refineUse {inst : Inst} {f : Footprint}
    (refined : refineUse p o r block a inst f = .ok r') : r.graph.Searched r'.graph := by
  obtain ⟨k, _, refined⟩ := bind_eq_ok.mp refined
  dsimp only at refined
  split at refined
  · cases refined
  · split at refined
    · cases refined
    · split at refined
      · cases refined
        exact .refl
      · obtain ⟨⟨height, scanned⟩, ran, refined⟩ := bind_eq_ok.mp refined
        dsimp only at refined
        split at refined
        · cases refined
        · obtain ⟨kept, cached, same⟩ := bind_eq_ok.mp refined
          cases same
          exact (searched_of_scan ran).trans (searched_of_cache cached)

theorem searched_of_visit (visited : visit p o block r a = .ok r') : r.graph.Searched r'.graph := by
  obtain ⟨n, _, visited⟩ := bind_eq_ok.mp visited
  split at visited
  · split at visited
    · cases visited
      exact .refl
    · obtain ⟨constant, _, visited⟩ := bind_eq_ok.mp visited
      split at visited
      · obtain ⟨kept, cached, same⟩ := bind_eq_ok.mp visited
        cases same
        exact searched_of_cache cached
      · obtain ⟨op, _, visited⟩ := bind_eq_ok.mp visited
        split at visited
        · cases visited
          exact .refl
        · exact searched_of_refineUse visited
  · cases visited
    exact .refl

theorem searched_of_visitBlock (visited : visitBlock p o r block = .ok r') :
    r.graph.Searched r'.graph := by
  rw [visitBlock] at visited
  split at visited
  · cases visited
    exact .refl
  · obtain ⟨holding, _, visited⟩ := bind_eq_ok.mp visited
    exact foldlM_keeps (fun r' => r.graph.Searched r'.graph) visited .refl
      fun _ _ _ before visited => before.trans (searched_of_visit visited)

end Refinement

namespace Graph

variable {g g' : Graph} {p : Procedure} {o : Oracle} {config : Config}

theorem searched_of_refineUses (refined : g.refineUses p o = .ok g') : g.Searched g' := by
  obtain ⟨r, ran, same⟩ := bind_eq_ok.mp refined
  cases same
  exact foldlM_keeps (fun r => g.Searched r.graph) ran .refl
    fun _ _ _ before visited => before.trans (Refinement.searched_of_visitBlock visited)

/-- A graph is constructed, and then at most searched. -/
theorem build_searched (distinct : p.layout.Distinct) (built : build p o config = .ok g) :
    ∃ (entry : Block) (base : Graph), p.entry = some entry ∧ base.Built p o entry ∧
      base.order.settled = {} ∧ base.Searched g := by
  obtain ⟨_, entry, _, first, _⟩ := build_planted built
  obtain ⟨base, constructed, _, settled, builds⟩ :=
    exists_constructed distinct first (classifies_of_build built)
  have finished := (builds config g).mp built
  refine ⟨entry, { base with config }, first, ?_, settled, ?_⟩
  · exact (base.agrees_configured config base.order).built constructed
  · split at finished
    · exact searched_of_refineUses finished
    · cases finished
      exact .refl

theorem build_built (distinct : p.layout.Distinct) (built : build p o config = .ok g) :
    ∃ entry, p.entry = some entry ∧ g.Built p o entry := by
  obtain ⟨entry, base, first, constructed, _, searched⟩ := build_searched distinct built
  exact ⟨entry, first, searched.toAgrees.built constructed⟩

theorem build_places (distinct : p.layout.Distinct) (built : build p o config = .ok g) :
    g.Places g.order := by
  obtain ⟨entry, base, _, constructed, settled, searched⟩ := build_searched distinct built
  exact searched.settled constructed.toArranged.listedOnce (.of_empty settled)

end Graph

end MemoryFlow
