import MemoryFlow.Proofs.Graph.Retention

/-! # The index through every change and question

However a built graph is edited and asked, its index names exactly the accesses that have an answer,
each under the answer it has. So an answer can be found from its clobber alone, and no other answer
has to be looked for when all of them are to go.
-/

namespace MemoryFlow

namespace Graph

variable {g : Graph} {a c : Access} {p : Procedure} {o : Oracle}

/-- A graph with every answer taken away, whether the index names it or not. -/
def withoutAnswers (g : Graph) : Graph :=
  { g with cachedBy := {}, nodes := g.nodes.map (Option.map Node.forgotten) }

theorem Indexed.forgetAll_eq (indexed : g.Indexed) : g.forgetAll = g.withoutAnswers := by
  have all : g.forgetAll.nodes = g.nodes.map (Option.map Node.forgotten) := by
    refine Array.ext_getElem? fun i => ?_
    refine (getElem?_foldl_forgotten g.named g.nodes i).trans ?_
    rw [Array.getElem?_map]
    split
    · rfl
    · rename_i unnamed
      refine (getElem?_nodes_uncached fun n found => ?_).symm
      rw [← cached?_eq found, Option.eq_none_iff_forall_ne_some]
      intro c cached
      exact unnamed (mem_named.mpr ⟨c, indexed.index.mpr cached⟩)
  rw [withoutAnswers, ← all]
  rfl

/-- However a built graph has been edited and asked, the index is exact: an access is under a
clobber if and only if it is a use or definition of the graph with that clobber for its answer.
Every clobber of the index is in the graph, with a list that is not empty and has no access twice.
And all answers are gone as soon as those that the index names are. -/
theorem cachedBy_exact {first : Graph} {config : Config} {acts : List Act}
    (built : build p o config = .ok first) (reached : acts.foldlM Act.apply first = .ok g) :
    (∀ u c, u ∈ g.dependents c ↔
      ∃ n, g.node? u = some n ∧ (n.isUse = true ∨ n.isDefinition = true) ∧ n.cached? = some c) ∧
    (∀ c list, g.cachedBy[c]? = some list → g.isLive c = true ∧ list ≠ [] ∧ list.Nodup) ∧
    g.forgetAll = g.withoutAnswers := by
  have indexed : g.Indexed :=
    foldlM_keeps Indexed reached (build_indexed built) fun _ _ _ indexed ran => indexed.act ran
  refine ⟨fun u c => ?_, fun c list held => ?_, indexed.forgetAll_eq⟩
  · rw [indexed.index, cached?, Option.bind_eq_some_iff]
    constructor
    · rintro ⟨n, found, cached⟩
      exact ⟨n, found, Node.isUse_or_isDefinition_of_cached? cached, cached⟩
    · rintro ⟨n, found, _, cached⟩
      exact ⟨n, found, cached⟩
  · have filled : list ≠ [] := by
      rintro rfl
      exact indexed.trim.filled c held
    have here : g.dependents c = list := by
      rw [dependents, Std.TreeMap.getD_eq_getD_getElem?, held, Option.getD_some]
    obtain ⟨u, member⟩ := List.exists_mem_of_ne_nil list filled
    refine ⟨indexed.live (indexed.index.mp (here ▸ member)), filled, ?_⟩
    exact here ▸ indexed.trim.distinct c

open Walker in
/-- The load before the loop comes to see memory on entry, and the one in the loop goes. Under the
store before the loop only the load after it is left. -/
theorem cachedBy_exact_twoSlots :
    ∃ first g, build twoSlots .byObject {} = .ok first ∧
      [Act.ask (.clobberOf twoSlots .byObject ⟨3⟩), .change (.setDefining ⟨2⟩ .liveOnEntry),
        .ask (.clobberOf twoSlots .byObject ⟨2⟩), .change (.discard ⟨4⟩)].foldlM Act.apply first =
          .ok g ∧
      first.cachedBy.toList = [(⟨1⟩, [⟨2⟩, ⟨4⟩, ⟨5⟩])] ∧
      g.cachedBy.toList = [(⟨0⟩, [⟨2⟩]), (⟨1⟩, [⟨5⟩]), (⟨6⟩, [⟨3⟩])] ∧
      (∀ u c, u ∈ g.dependents c ↔
        ∃ n, g.node? u = some n ∧ (n.isUse = true ∨ n.isDefinition = true) ∧ n.cached? = some c) ∧
      (∀ c list, g.cachedBy[c]? = some list → g.isLive c = true ∧ list ≠ [] ∧ list.Nodup) ∧
      g.forgetAll = g.withoutAnswers := by
  obtain ⟨first, built, ran⟩ := exists_of_any (x := build twoSlots .byObject {})
    (P := fun first => first.cachedBy.toList == [(⟨1⟩, [⟨2⟩, ⟨4⟩, ⟨5⟩])] &&
      ([Act.ask (.clobberOf twoSlots .byObject ⟨3⟩), .change (.setDefining ⟨2⟩ .liveOnEntry),
        .ask (.clobberOf twoSlots .byObject ⟨2⟩), .change (.discard ⟨4⟩)].foldlM Act.apply
          first).toOption.any fun g =>
          g.cachedBy.toList == [(⟨0⟩, [⟨2⟩]), (⟨1⟩, [⟨5⟩]), (⟨6⟩, [⟨3⟩])]) (by decide +kernel)
  obtain ⟨before, ran⟩ := Bool.and_eq_true_iff.mp ran
  obtain ⟨g, reached, after⟩ := exists_of_any ran
  exact ⟨first, g, built, reached, eq_of_beq before, eq_of_beq after, cachedBy_exact built reached⟩

end Graph

end MemoryFlow
