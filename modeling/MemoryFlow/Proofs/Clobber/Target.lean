import MemoryFlow.Proofs.Clobber.Audit
import MemoryFlow.Proofs.Clobber.Frame
import MemoryFlow.Proofs.Clobber.Walker

/-! # The target cuts what is above a phi

The target of a phi is read off the dominator tree, the routes above it are read off the links. They
agree: the target is on the stack of the phi, and a step up from an access other than the target
keeps the target on the stack (`Wired.under_above`). So a route that has not come to the target is
below it, also if it goes around a loop and comes to the phi again.
-/

namespace MemoryFlow.Graph

variable {g : Graph} {p : Procedure} {o : Oracle} {entry : Block} {a c phi target : Access}
  {n : Node} {route : List Access}

open Walker (storeBeforeLoop byAddress storeBeforeLoop_accepted)

/-- Whether the graph, when asked, finds that `a` dominates `b` and that `b` does not dominate
`a`. -/
structure StrictlyDominates (g : Graph) (a b : Access) : Prop where
  other : a ≠ b
  dominates : ∃ g', g.ask (g.dominates a b) = .ok (true, g')
  not_dominated : ∃ g', g.ask (g.dominates b a) = .ok (false, g')

namespace Wired

variable (h : g.Wired p entry)
include h

theorem strictlyDominates_of_under (right : g.Places g.order) (under : g.Under target a)
    (apart : a ≠ target) : g.StrictlyDominates target a := by
  obtain ⟨l, stack, member⟩ := under
  have precedes := h.over_of_stack stack ((List.mem_cons.mp member).resolve_left (Ne.symm apart))
  obtain ⟨n, found, _⟩ := h.kind_of_stack stack List.mem_cons_self
  obtain ⟨above, below⟩ := h.dominates_over precedes (by simp [found])
  obtain ⟨_, answered, _⟩ := above.ask right
  obtain ⟨_, answered', _⟩ := below.ask right
  exact ⟨Ne.symm apart, ⟨_, answered⟩, ⟨_, answered'⟩⟩

/-- A route from below the target stays below it for as long as it does not come to it. -/
theorem under_of_route (under : g.Under target a) (up : Route g.Above a c route)
    (missed : target ∉ route) : g.Under target c := by
  induction up with
  | here => exact under
  | step first _ ih =>
      simp only [List.mem_cons, not_or] at missed
      exact ih (h.under_above under (Ne.symm missed.1) first) missed.2

theorem strictlyDominates_of_route (right : g.Places g.order) (under : g.Under target a)
    (up : Route g.Above a c route) (missed : target ∉ route) : g.StrictlyDominates target c := by
  refine h.strictlyDominates_of_under right (h.under_of_route under up missed) ?_
  rintro rfl
  exact missed up.finish_mem

theorem phi_under_target (found : g.node? phi = some n) (isPhi : n.isPhi = true) :
    phi ≠ g.reachIn n.block ∧ g.Under (g.reachIn n.block) phi := by
  obtain ⟨l, stack⟩ := h.exists_stack found (n.isUse_of_isPhi isPhi)
  obtain ⟨tail, rfl, _⟩ := h.stack_phi stack found isPhi
  refine ⟨?_, _, stack, List.mem_cons_of_mem _ List.mem_cons_self⟩
  exact (h.over_of_stack stack List.mem_cons_self).ne.symm

end Wired

/-- The target of a phi strictly dominates it and is on every route from it up to memory on entry.
What a route meets before the target is strictly dominated by the target as well, and dominates it
never. There is such a route at least if the procedure is accepted. -/
theorem targetOf_cuts_routes {config : Config} (distinct : p.layout.Distinct)
    (built : build p o config = .ok g) (found : g.node? phi = some n) (isPhi : n.isPhi = true) :
    ∃ target, g.targetOf phi = .ok target ∧ g.StrictlyDominates target phi ∧
      (p.Accepted → ∃ route, Route g.Above phi .liveOnEntry route) ∧
      ∀ route, Route g.Above phi .liveOnEntry route →
        ∃ before after, route = before ++ target :: after ∧
          ∀ a ∈ before, g.StrictlyDominates target a := by
  obtain ⟨entry, first, whole⟩ := build_built distinct built
  have h := whole.toWired
  have right := build_places distinct built
  obtain ⟨apart, under⟩ := h.phi_under_target found isPhi
  refine ⟨g.reachIn n.block, targetOf_eq found,
    h.strictlyDominates_of_under right under apart, ?_, ?_⟩
  · intro accepted
    obtain ⟨l, stack, _⟩ := under
    exact (whole.linked accepted first).exists_route stack
  · intro route up
    obtain ⟨l, stack, member⟩ := under
    obtain ⟨before, after, rfl, first⟩ :=
      List.eq_append_cons_of_mem (h.route_passes up stack member)
    refine ⟨before, after, rfl, fun a inside => ?_⟩
    -- Cut at `a`, the route ends before it comes to the target.
    obtain ⟨front, back, rfl⟩ := List.append_of_mem inside
    rw [List.append_assoc, List.cons_append] at up
    have missed : g.reachIn n.block ∉ front ++ [a] := by
      simp only [List.mem_append, List.mem_cons, List.not_mem_nil, or_false, not_or] at first ⊢
      exact ⟨first.1, first.2.1⟩
    exact h.strictlyDominates_of_route right ⟨l, stack, member⟩ up.split.1 missed

/-- The phi of a loop that stores: a route may go around the loop any number of times, and comes to
the store before the loop in the end. -/
theorem targetOf_cuts_routes_storeBeforeLoop :
    storeBeforeLoop.Accepted ∧ storeBeforeLoop.layout.Distinct ∧
    ∃ g n, build storeBeforeLoop byAddress {} = .ok g ∧
      g.node? ⟨4⟩ = some n ∧ n.isPhi = true ∧ g.targetOf ⟨4⟩ = .ok ⟨1⟩ ∧
      g.StrictlyDominates ⟨1⟩ ⟨4⟩ ∧ (∃ route, Route g.Above ⟨4⟩ .liveOnEntry route) ∧
      ∀ route, Route g.Above ⟨4⟩ .liveOnEntry route →
        ∃ before after, route = before ++ ⟨1⟩ :: after ∧
          ∀ a ∈ before, g.StrictlyDominates ⟨1⟩ a := by
  obtain ⟨g, built, facts⟩ := exists_of_any (x := build storeBeforeLoop byAddress {})
    (P := fun g => (g.node? ⟨4⟩).any (·.isPhi) && g.targetOf ⟨4⟩ = .ok ⟨1⟩) (by decide +kernel)
  simp only [Bool.and_eq_true, Option.any_eq_true, decide_eq_true_eq] at facts
  obtain ⟨⟨n, found, isPhi⟩, isTarget⟩ := facts
  have accepted := storeBeforeLoop_accepted
  obtain ⟨target, isTarget', above, some_route, cuts⟩ :=
    targetOf_cuts_routes accepted.distinct built found isPhi
  obtain rfl := Except.ok.inj (isTarget.symm.trans isTarget')
  exact ⟨accepted, accepted.distinct, g, n, built, found, isPhi, isTarget, above,
    some_route accepted, cuts⟩

end MemoryFlow.Graph
