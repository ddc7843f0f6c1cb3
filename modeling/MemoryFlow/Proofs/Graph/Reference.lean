import MemoryFlow.Graph.Reference
import MemoryFlow.Proofs.Graph.Node

/-! # Reading and rewiring a graph

What an access refers to is changed by operations that also keep the lists of users and forget
cached clobbers. As long as nothing is cached, such an operation changes nothing but the one access,
apart from its number of users: `Node.bare` leaves out what does not matter here.
-/

namespace MemoryFlow

namespace Graph

variable {g g' : Graph} {a b x phi value definition : Access} {n m : Node}

theorem node_eq (found : g.node? a = some n) : g.node a = .ok n := by
  rw [node, found]
  rfl

theorem node?_of_node (read : g.node a = .ok n) : g.node? a = some n := by
  rw [node] at read
  split at read
  · rename_i m found
    cases read
    exact found
  · cases read

theorem lt_of_node? (found : g.node? a = some n) : a.index < g.nodes.size := by
  by_contra outside
  rw [node?, Array.getElem?_eq_none (Nat.le_of_not_lt outside)] at found
  cases found

theorem node?_modifyNode (f : Node → Node) :
    (g.modifyNode a f).node? x = if x = a then (g.node? x).map f else g.node? x := by
  rw [node?, modifyNode, Array.getElem?_modify]
  by_cases same : x = a
  · subst same
    rw [if_pos rfl, if_pos rfl, node?]
    cases g.nodes[x.index]? <;> rfl
  · rw [if_neg fun index => same (Entity.ext index.symm), if_neg same, node?]

theorem node?_addNode (n : Node) :
    (g.addNode n).1.node? x = if x = (g.addNode n).2 then some n else g.node? x := by
  rw [node?, addNode, Array.getElem?_push, node?]
  by_cases same : x = ⟨g.nodes.size⟩
  · subst same
    simp
  · rw [if_neg fun index => same (Entity.ext index), if_neg same]

def bare? (g : Graph) (a : Access) : Option Node :=
  (g.node? a).map Node.bare

theorem bare?_eq (found : g.node? a = some n) : g.bare? a = some n.bare := by
  rw [bare?, found]
  rfl

theorem node?_of_bare? (found : g.bare? a = some m) : ∃ n, g.node? a = some n ∧ n.bare = m :=
  Option.map_eq_some_iff.mp found

structure Uncached (g : Graph) : Prop where
  index : g.cachedBy = {}
  links : ∀ a n, g.node? a = some n → n.cached? = none

theorem mapLink_uncached (plain : n.cached? = none) :
    n.mapLink ({ · with cached := none }) = n := by
  obtain ⟨number, block, role, users⟩ := n
  cases role with
  | definition inst link | use inst link =>
      obtain ⟨defining, cached⟩ := link
      cases plain
      rfl
  | phi => rfl

theorem getElem?_nodes_uncached {i : Nat} (plain : ∀ n, g.node? ⟨i⟩ = some n → n.cached? = none) :
    g.nodes[i]?.map (Option.map (·.mapLink ({ · with cached := none }))) = g.nodes[i]? := by
  cases found : g.nodes[i]? with
  | none => rfl
  | some cell =>
      cases cell with
      | none => rfl
      | some n =>
          have plain := plain n (by rw [node?, found]; rfl)
          simp [mapLink_uncached plain]

theorem forgetAll_eq (uncached : g.Uncached) : g.forgetAll = g := by
  have unnamed : g.named = [] := by
    rw [named, uncached.index]
    rfl
  rw [forgetAll, unnamed, ← uncached.index]
  rfl

theorem forget_eq (uncached : g.Uncached) (found : g.node? a = some n) : g.forget a = .ok g := by
  simp [forget, node_eq found, uncached.links a n found, bind, Except.bind, pure, Except.pure]

/-- Whether a graph differs from another only in the contents of one access. -/
structure Rewired (g g' : Graph) (a : Access) (m : Node) : Prop where
  frame : g' = { g with nodes := g'.nodes }
  uncached : g'.Uncached
  here : g'.bare? a = some m.bare
  elsewhere : ∀ x, x ≠ a → g'.bare? x = g.bare? x

theorem Rewired.of_modify (uncached : g.Uncached) (found : g.node? a = some n) {f : Node → Node}
    (plain : (f n).cached? = none) (frame : g' = { g with nodes := g'.nodes })
    (same : ∀ x, g'.bare? x = (g.modifyNode a f).bare? x) : g.Rewired g' a (f n) := by
  have here : g'.bare? a = some (f n).bare := by
    rw [same, bare?, node?_modifyNode, if_pos rfl, found]
    rfl
  have elsewhere : ∀ x, x ≠ a → g'.bare? x = g.bare? x := by
    intro x other
    rw [same, bare?, node?_modifyNode, if_neg other, bare?]
  refine ⟨frame, ⟨by rw [frame]; exact uncached.index, fun x m read => ?_⟩, here, elsewhere⟩
  have bare := bare?_eq read
  by_cases same : x = a
  · subst same
    have equal : m.bare.cached? = (f n).bare.cached? :=
      congrArg Node.cached? (Option.some.inj (bare.symm.trans here))
    exact equal.trans plain
  · rw [elsewhere x same] at bare
    obtain ⟨m', read', equal⟩ := node?_of_bare? bare
    exact (congrArg Node.cached? equal).symm.trans (uncached.links x m' read')

theorem addUser_bare? (user : Access) (found : g.node? a = some n) :
    ∃ nodes, g.addUser a user = .ok { g with nodes } ∧
      ∀ x, bare? { g with nodes } x = g.bare? x := by
  refine ⟨_, by rw [addUser, node_eq found]; rfl, fun x => ?_⟩
  refine (congrArg (Option.map Node.bare) (node?_modifyNode _)).trans ?_
  rw [bare?]
  split
  · cases g.node? x <;> rfl
  · rfl

theorem exists_node?_modifyNode (found : g.node? b = some n) (f : Node → Node) :
    ∃ m, (g.modifyNode a f).node? b = some m := by
  rw [node?_modifyNode, found]
  split <;> exact ⟨_, rfl⟩

theorem setDefining_rewired (uncached : g.Uncached) (hd : g.node? definition = some m)
    (defines : m.isUse = false) (found : g.node? a = some n) (unlinked : n.link? = some {}) :
    ∃ g', g.setDefining a definition = .ok g' ∧ g.Rewired g' a (n.definedBy definition) := by
  let link := fun n : Node => n.mapLink ({ · with defining := some definition })
  have linked : link n = n.definedBy definition ∧ (link n).cached? = none := by
    obtain ⟨number, block, role, users⟩ := n
    cases role with
    | definition inst link | use inst link =>
        cases unlinked
        exact ⟨rfl, rfl⟩
    | phi => cases unlinked
  obtain ⟨m', hd'⟩ := exists_node?_modifyNode (a := a) hd link
  obtain ⟨nodes, added, same⟩ := addUser_bare? a hd'
  have rewired : g.Rewired { g with nodes } a (link n) :=
    .of_modify uncached found linked.2 rfl same
  obtain ⟨n', found', _⟩ := node?_of_bare? rewired.here
  refine ⟨_, ?_, linked.1 ▸ rewired⟩
  have added' : (g.modifyNode a (·.mapLink ({ · with defining := some definition }))).addUser
      definition a = .ok { g with nodes } := added
  simp only [setDefining, node_eq hd, ok_bind, defines, node_eq found, unlinked, pure_bind, added',
    forget_eq rewired.uncached found', forgetAll_eq rewired.uncached]
  cases n.isUse <;> rfl

theorem addIncoming_rewired (uncached : g.Uncached) (pred : Block) (hv : g.node? value = some m)
    (defines : m.isUse = false) (found : g.node? phi = some n) (isPhi : n.isPhi = true) :
    ∃ g', g.addIncoming phi pred value = .ok g' ∧ g.Rewired g' phi (n.withIncoming pred value) := by
  have plain : (n.withIncoming pred value).cached? = none := by
    obtain ⟨number, block, role, users⟩ := n
    cases role with
    | definition | use => cases isPhi
    | phi => rfl
  obtain ⟨m', hv'⟩ := exists_node?_modifyNode (a := phi) hv (·.withIncoming pred value)
  obtain ⟨nodes, added, same⟩ := addUser_bare? phi hv'
  have rewired : g.Rewired { g with nodes } phi (n.withIncoming pred value) :=
    .of_modify uncached found plain rfl same
  refine ⟨_, ?_, rewired⟩
  have added' : (g.modifyNode phi (·.mapIncoming (· ++ [(pred, value)]))).addUser value phi
      = .ok { g with nodes } := added
  simp only [addIncoming, phiFor, node_eq hv, ok_bind, defines, node_eq found, isPhi, added',
    forgetAll_eq rewired.uncached]
  rfl

end Graph

end MemoryFlow
