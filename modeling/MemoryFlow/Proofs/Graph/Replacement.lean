import MemoryFlow.Proofs.Graph.Exact

/-! # One access in the place of another

Every user of an access is known, so all that refers to it can be made to refer to another one. If
references are exact this never fails, and it renames the operands of every access in the graph.
-/

namespace MemoryFlow

namespace Graph

variable {g g' g'' : Graph} {a d u x phi value old new : Access} {n m : Node}
  {change change' : Access → Node → Node}

def core? (g : Graph) (a : Access) : Option Node :=
  (g.node? a).map Node.core

theorem core?_eq (found : g.node? a = some n) : g.core? a = some n.core := by
  rw [core?, found]
  rfl

/-- Whether a graph has the cores that another had, changed, and the same lists. -/
structure Recast (g : Graph) (change : Access → Node → Node) (g' : Graph) : Prop where
  flow : g'.flow = g.flow
  tree : g'.tree = g.tree
  lists : g'.lists = g.lists
  defLists : g'.defLists = g.defLists
  instAccess : g'.instAccess = g.instAccess
  blockPhi : g'.blockPhi = g.blockPhi
  order : g'.order = g.order
  core : ∀ x, g'.core? x = (g.core? x).map (change x)

namespace Recast

theorem refl : g.Recast (fun _ n => n) g :=
  ⟨rfl, rfl, rfl, rfl, rfl, rfl, rfl, fun x => by simp⟩

theorem trans (first : g.Recast change g') (second : g'.Recast change' g'') :
    g.Recast (fun x n => change' x (change x n)) g'' where
  flow := second.flow.trans first.flow
  tree := second.tree.trans first.tree
  lists := second.lists.trans first.lists
  defLists := second.defLists.trans first.defLists
  instAccess := second.instAccess.trans first.instAccess
  blockPhi := second.blockPhi.trans first.blockPhi
  order := second.order.trans first.order
  core := fun x => by rw [second.core, first.core, Option.map_map]; rfl

theorem congr (recast : g.Recast change g')
    (same : ∀ x n, g.node? x = some n → change x n.core = change' x n.core) :
    g.Recast change' g' := by
  refine { recast with core := fun x => ?_ }
  rw [recast.core, core?]
  cases found : g.node? x with
  | none => rfl
  | some n => exact congrArg some (same x n found)

theorem read (recast : g.Recast change g') (found : g.node? x = some n) :
    ∃ m, g'.node? x = some m ∧ m.core = change x n.core := by
  have here := recast.core x
  rw [core?_eq found] at here
  exact Option.map_eq_some_iff.mp here

theorem read_defines (recast : g.Recast change g') (kind : ∀ x n, (change x n).isUse = n.isUse)
    (found : g.node? x = some n) (notUse : n.isUse = false) :
    ∃ m, g'.node? x = some m ∧ m.isUse = false := by
  obtain ⟨m, found', core⟩ := recast.read found
  refine ⟨m, found', ?_⟩
  rw [← m.alike_core.isUse, core, kind, n.alike_core.isUse, notUse]

end Recast

theorem recast_exchange {f : Node → Node} {old : Option Access}
    (commutes : ∀ n, (f n).core = f n.core) (agrees : (g.exchange a f old new).Agrees g')
    (order : g'.order = g.order) : g.Recast (fun x n => if x = a then f n else n) g' := by
  have core : ∀ x, g'.core? x = (g.core? x).map fun n => if x = a then f n else n := by
    intro x
    have same := congrArg (Option.map Node.bare) (agrees.nodes x)
    simp only [Option.map_map, node?_exchange] at same
    rw [core?, core?, Option.map_map]
    refine same.trans (congrArg (Option.map · (g.node? x)) (funext fun n => ?_))
    change Node.core (Node.mapUsers _ _) = _
    rw [Node.core_mapUsers]
    by_cases here : x = a
    · simp [here, commutes]
    · simp [here]
  obtain ⟨nodes, frame⟩ : ∃ nodes, g.exchange a f old new = { g with nodes } := by
    cases old <;> exact ⟨_, rfl⟩
  rw [frame] at agrees
  exact ⟨agrees.flow, agrees.tree, agrees.lists, agrees.defLists, agrees.instAccess,
    agrees.blockPhi, order, core⟩

theorem setDefining_recast (exact : g.Exact) (found : g.node? a = some n) (notPhi : n.isPhi = false)
    (live : g.node? d = some m) (notUse : m.isUse = false) :
    ∃ g', g.setDefining a d = .ok g' ∧ g'.Exact ∧
      g.Recast (fun x n => if x = a then n.mapLink ({ · with defining := some d }) else n) g' := by
  obtain ⟨link, linked⟩ : ∃ link, n.link? = some link := by
    obtain ⟨_, _, role, _⟩ := n
    cases role with
    | definition _ link | use _ link => exact ⟨link, rfl⟩
    | phi => cases notPhi
  have total : ∃ g', g.setDefining a d = .ok g' := by
    have rest : ∀ g₁ : Graph, (∀ x n, g.node? x = some n → ∃ n', g₁.node? x = some n') →
        ∃ g', (do
          let g ← g₁.addUser d a
          if n.isUse then g.forget a else return g.forgetAll) = .ok g' := by
      intro g₁ kept
      obtain ⟨m₁, live₁⟩ := kept d m live
      obtain ⟨n₁, found₁⟩ := kept a n found
      rw [addUser, node_eq live₁]
      obtain ⟨n₂, found₂⟩ := exists_node?_modifyNode (a := d) found₁
        fun n => { n with users := n.users ++ [a] }
      cases n.isUse with
      | true =>
          obtain ⟨g', forgot, _⟩ := forget_agrees found₂
          exact ⟨g', forgot⟩
      | false => exact ⟨_, rfl⟩
    have kept := fun x n (read : g.node? x = some n) =>
      exists_node?_modifyNode (a := a) read (·.mapLink ({ · with defining := some d }))
    rw [setDefining, node_eq live, ok_bind, notUse, node_eq found]
    simp only [ok_bind, linked]
    cases above : link.defining with
    | none => exact rest _ kept
    | some old =>
        have linkedOld : old ∈ g.operandsOf a := by
          rw [operandsOf_eq found, Node.operands_of_link? linked, above]
          exact List.mem_singleton_self _
        obtain ⟨k, liveOld, _⟩ := exact.operand linkedOld
        obtain ⟨k', liveOld'⟩ := kept old k liveOld
        simp only [removeUser, node_eq liveOld', ok_bind]
        refine rest _ fun x n read => ?_
        obtain ⟨n', read'⟩ := kept x n read
        exact exists_node?_modifyNode read' _
  obtain ⟨g', ran⟩ := total
  obtain ⟨_, _, _, _, _, _, _, _, rfl, forgot⟩ := setDefining_ok ran
  obtain ⟨agrees, order⟩ := agrees_of_forgets forgot
  refine ⟨g', ran, exact.setDefining ran,
    recast_exchange (fun n => ?_) agrees (order.trans order_exchange)⟩
  obtain ⟨_, _, role, _⟩ := n
  cases role <;> rfl

theorem setIncoming_recast (exact : g.Exact) (found : g.node? phi = some n) (isPhi : n.isPhi = true)
    (live : g.node? value = some m) (notUse : m.isUse = false) {edge : Nat} {pred : Block}
    (here : n.incoming[edge]? = some (pred, old)) :
    ∃ g', g.setIncoming phi edge value = .ok g' ∧ g'.Exact ∧
      g.Recast (fun x n => if x = phi then n.mapIncoming (·.set edge (pred, value)) else n) g' := by
  have total : ∃ g', g.setIncoming phi edge value = .ok g' := by
    obtain ⟨k, liveOld, _⟩ := exact.operand (d := old) (u := phi) (by
      rw [operandsOf_eq found, Node.operands_of_isPhi isPhi]
      exact List.mem_map_of_mem (List.mem_of_getElem? here))
    obtain ⟨k', liveOld'⟩ := exists_node?_modifyNode (a := phi) liveOld
      (·.mapIncoming (·.set edge (pred, value)))
    obtain ⟨m', live'⟩ := exists_node?_modifyNode (a := phi) live
      (·.mapIncoming (·.set edge (pred, value)))
    obtain ⟨m'', live''⟩ := exists_node?_modifyNode (a := old) live' fun n =>
      { n with users := n.users.erase phi }
    have read : g.phiFor phi value = .ok n := by
      simp only [phiFor, node_eq live, ok_bind, notUse, node_eq found, isPhi]
      rfl
    rw [setIncoming, read, ok_bind]
    simp only [here, removeUser, node_eq liveOld', ok_bind, addUser, pure_bind, node_eq live'']
    exact ⟨_, rfl⟩
  obtain ⟨g', ran⟩ := total
  obtain ⟨n', _, pred', old', found', _, _, _, here', rfl⟩ := setIncoming_ok ran
  cases found.symm.trans found'
  cases here.symm.trans here'
  refine ⟨_, ran, exact.setIncoming ran, recast_exchange (fun n => ?_) (agrees_forgetAll _) rfl⟩
  obtain ⟨_, _, role, _⟩ := n
  cases role <;> rfl

/-- Incoming values with `value` on some of the edges. -/
def revalue (edges : List Nat) (value : Access) (incoming : List (Block × Access)) :
    List (Block × Access) :=
  incoming.mapIdx fun i (pred, old) => (pred, if i ∈ edges then value else old)

theorem getElem?_revalue {edges : List Nat} {incoming : List (Block × Access)} {i : Nat} :
    (revalue edges value incoming)[i]? =
      incoming[i]?.map fun (pred, old) => (pred, if i ∈ edges then value else old) :=
  List.getElem?_mapIdx

theorem set_revalue {edges : List Nat} {incoming : List (Block × Access)} {edge : Nat}
    {pred : Block} (here : incoming[edge]? = some (pred, old)) :
    (revalue edges value incoming).set edge (pred, value) =
      revalue (edges ++ [edge]) value incoming := by
  refine List.ext_getElem? fun i => ?_
  rw [List.getElem?_set, getElem?_revalue, getElem?_revalue]
  by_cases same : edge = i
  · subst same
    have inside : edge < (revalue edges value incoming).length := by
      rw [revalue, List.length_mapIdx]
      exact (List.getElem?_eq_some_iff.mp here).1
    simp [inside, here]
  · simp [same, Ne.symm same]

theorem mem_edgesWhere {condition : Block × Access → Bool} {edge : Nat} :
    edge ∈ edgesWhere n condition ↔ ∃ e, n.incoming[edge]? = some e ∧ condition e = true := by
  simp only [edgesWhere, List.mem_map, List.mem_filter, Prod.exists, List.mem_zipIdx_iff_getElem?]
  constructor
  · rintro ⟨pred, v, _, ⟨here, holds⟩, rfl⟩
    exact ⟨pred, v, here, holds⟩
  · rintro ⟨pred, v, here, holds⟩
    exact ⟨pred, v, edge, ⟨here, holds⟩, rfl⟩

theorem revalue_edgesWhere : revalue (edgesWhere n (·.2 == old)) new n.incoming =
    n.incoming.map fun (pred, value) => (pred, Access.swap old new value) := by
  refine List.ext_getElem? fun i => ?_
  rw [getElem?_revalue, List.getElem?_map]
  cases here : n.incoming[i]? with
  | none => rfl
  | some e => simp [mem_edgesWhere, here, Access.swap]

theorem setEdges_recast (exact : g.Exact) (found : g.node? phi = some n) (isPhi : n.isPhi = true)
    (live : g.node? value = some m) (notUse : m.isUse = false) (edges : List Nat)
    (inside : ∀ edge ∈ edges, ∃ e, n.incoming[edge]? = some e) :
    ∃ g', edges.foldlM (·.setIncoming phi · value) g = .ok g' ∧ g'.Exact ∧
      g.Recast (fun x n => if x = phi then n.mapIncoming (revalue edges value) else n) g' := by
  refine foldlM_total edges _ g (fun seen g' => g'.Exact ∧
    g.Recast (fun x n => if x = phi then n.mapIncoming (revalue seen value) else n) g')
    ⟨exact, Recast.refl.congr fun x n _ => ?_⟩ ?_
  · have same : revalue [] value = id := by
      funext incoming
      refine List.ext_getElem? fun i => ?_
      simp [getElem?_revalue]
    rw [same, Node.mapIncoming_id, ite_self]
  · rintro seen edge rest g₁ whole ⟨exact₁, recast⟩
    obtain ⟨⟨pred, before⟩, here⟩ := inside edge (by simp [whole])
    obtain ⟨n₁, found₁, core₁⟩ := recast.read found
    obtain ⟨m₁, live₁, notUse₁⟩ := recast.read_defines (fun x n => by split <;> simp) live notUse
    rw [if_pos rfl] at core₁
    have isPhi₁ : n₁.isPhi = true := by
      rw [← n₁.alike_core.isPhi, core₁, Node.isPhi_mapIncoming, n.alike_core.isPhi, isPhi]
    have here₁ : n₁.incoming[edge]? = some (pred, if edge ∈ seen then value else before) := by
      rw [← n₁.alike_core.incoming, core₁,
        Node.incoming_mapIncoming (n.alike_core.isPhi.trans isPhi), n.alike_core.incoming,
        getElem?_revalue, here]
      rfl
    obtain ⟨g₂, ran, exact₂, recast₂⟩ := setIncoming_recast exact₁ found₁ isPhi₁ live₁ notUse₁ here₁
    refine ⟨g₂, ran, exact₂, (recast.trans recast₂).congr fun x k foundK => ?_⟩
    split
    · rename_i same
      subst same
      obtain rfl := Option.some.inj (found.symm.trans foundK)
      rw [Node.mapIncoming_mapIncoming]
      exact Node.mapIncoming_congr (set_revalue (n.alike_core.incoming ▸ here))
    · rfl

theorem revalue_edgesFrom {pred : Block} : revalue (edgesWhere n (·.1 == pred)) new n.incoming =
    n.incoming.map fun edge => (edge.1, if edge.1 = pred then new else edge.2) := by
  refine List.ext_getElem? fun i => ?_
  rw [getElem?_revalue, List.getElem?_map]
  cases here : n.incoming[i]? with
  | none => rfl
  | some e => simp [mem_edgesWhere, here]

theorem setIncomingFrom_recast (exact : g.Exact) (found : g.node? phi = some n)
    (isPhi : n.isPhi = true) (live : g.node? value = some m) (notUse : m.isUse = false)
    {pred : Block} (comes : pred ∈ n.incoming.map Prod.fst) :
    ∃ g', g.setIncomingFrom phi pred value = .ok (true, g') ∧ g'.Exact ∧
      g.Recast (fun x n => if x = phi then n.mapIncoming (·.map fun edge =>
        (edge.1, if edge.1 = pred then value else edge.2)) else n) g' := by
  obtain ⟨g', ran, exact', recast⟩ := setEdges_recast exact found isPhi live notUse
    (edgesWhere n (·.1 == pred)) fun edge listed =>
      have ⟨e, here, _⟩ := mem_edgesWhere.mp listed
      ⟨e, here⟩
  have some' : (edgesWhere n (·.1 == pred)).isEmpty = false := by
    obtain ⟨edge, flows, rfl⟩ := List.mem_map.mp comes
    obtain ⟨i, here⟩ := List.getElem?_of_mem flows
    have listed : i ∈ edgesWhere n (·.1 == edge.1) := mem_edgesWhere.mpr ⟨edge, here, by simp⟩
    exact List.isEmpty_eq_false_iff.mpr (List.ne_nil_of_mem listed)
  refine ⟨g', ?_, exact', recast.congr fun x k foundK => ?_⟩
  · rw [setIncomingFrom, node_eq found, ok_bind]
    simp only [ran, ok_bind, some']
    rfl
  · split
    · rename_i same
      subst same
      obtain rfl := Option.some.inj (found.symm.trans foundK)
      refine Node.mapIncoming_congr ?_
      rw [n.alike_core.incoming]
      exact revalue_edgesFrom
    · rfl

theorem redirect_recast (exact : g.Exact) (found : g.node? u = some n) (refers : old ∈ n.operands)
    (live : g.node? new = some m) (notUse : m.isUse = false) :
    ∃ g', redirect old new g u = .ok g' ∧ g'.Exact ∧
      g.Recast (fun x n => if x = u then n.mapOperands (Access.swap old new) else n) g' := by
  rw [redirect, node_eq found, ok_bind]
  cases isPhi : n.isPhi with
  | true =>
      obtain ⟨g', ran, exact', recast⟩ := setEdges_recast exact found isPhi live notUse
        (edgesWhere n (·.2 == old)) fun edge listed =>
          have ⟨e, here, _⟩ := mem_edgesWhere.mp listed
          ⟨e, here⟩
      refine ⟨g', ran, exact', recast.congr fun x k foundK => ?_⟩
      split
      · rename_i same
        subst same
        obtain rfl := Option.some.inj (found.symm.trans foundK)
        rw [Node.mapOperands_of_isPhi (n.alike_core.isPhi.trans isPhi)]
        refine Node.mapIncoming_congr ?_
        rw [n.alike_core.incoming]
        exact revalue_edgesWhere
      · rfl
  | false =>
      obtain ⟨g', ran, exact', recast⟩ := setDefining_recast exact found isPhi live notUse
      refine ⟨g', ran, exact', recast.congr fun x k foundK => ?_⟩
      split
      · rename_i same
        subst same
        obtain rfl := Option.some.inj (found.symm.trans foundK)
        obtain ⟨_, _, role, _⟩ := n
        cases role with
        | definition _ link | use _ link =>
            have above : link.defining = some old := Option.mem_toList.mp refers
            simp [Node.core, Node.forgotten, Node.bare, Node.mapLink, Node.mapOperands, above,
              Access.swap]
        | phi => cases isPhi
      · rfl

/-- If references are exact, all that refers to an access can be made to refer to another definition
or phi. -/
theorem replaceAll_recast (exact : g.Exact) (found : g.node? old = some n)
    (live : g.node? new = some m) (notUse : m.isUse = false) (other : old ≠ new) :
    ∃ g', g.replaceAll old new = .ok g' ∧ g'.Exact ∧
      g.Recast (fun _ n => n.mapOperands (Access.swap old new)) g' := by
  have users : ∀ u, u ∈ (n.users.mergeSort (·.index ≤ ·.index)).eraseDups ↔ u ∈ g.usersOf old := by
    intro u
    rw [List.mem_eraseDups, List.mem_mergeSort, usersOf_eq found]
  obtain ⟨g', ran, exact', recast⟩ :=
    foldlM_total (n.users.mergeSort (·.index ≤ ·.index)).eraseDups (redirect old new) g
      (fun seen g' => g'.Exact ∧
        g.Recast (fun x n => if x ∈ seen then n.mapOperands (Access.swap old new) else n) g')
      ⟨exact, Recast.refl.congr fun x n _ => by simp⟩ (by
        rintro seen u rest g₁ whole ⟨exact₁, recast⟩
        have fresh : u ∉ seen := by
          have distinct := nodup_eraseDups (n.users.mergeSort (·.index ≤ ·.index))
          rw [whole, List.nodup_append] at distinct
          exact fun twice => distinct.2.2 u twice u (by simp) rfl
        obtain ⟨k, foundK, refers⟩ := exact.user ((users u).mp (by simp [whole]))
        obtain ⟨k₁, foundK₁, coreK⟩ := recast.read foundK
        obtain ⟨m₁, live₁, notUse₁⟩ :=
          recast.read_defines (fun x n => by split <;> simp) live notUse
        have refers₁ : old ∈ k₁.operands := by
          rw [← k₁.operands_core, coreK, if_neg fresh, k.operands_core]
          exact refers
        obtain ⟨g₂, ran, exact₂, recast₂⟩ := redirect_recast exact₁ foundK₁ refers₁ live₁ notUse₁
        refine ⟨g₂, ran, exact₂, (recast.trans recast₂).congr fun x k _ => ?_⟩
        by_cases here : x = u
        · subst here
          simp [fresh]
        · simp [here])
  refine ⟨g', ?_, exact', recast.congr fun x k foundK => ?_⟩
  · rw [replaceAll, node_eq live, ok_bind, notUse]
    simp only [other, node_eq found, ok_bind]
    exact ran
  · split
    · rfl
    · rename_i absent
      rw [Node.mapOperands_swap]
      rw [k.operands_core, ← operandsOf_eq foundK]
      exact fun refers => absent ((users x).mpr (exact.mem_users.mpr refers))

end Graph

end MemoryFlow
