import Mathlib.Data.List.Count
import MemoryFlow.Proofs.Clobber.Frame
import MemoryFlow.Proofs.Graph.Rewiring
import MemoryFlow.Proofs.Graph.Update

/-! # Both ends of a reference

A reference is stored twice: the access that makes it has an operand, and the access it is made to
has a user. Every operation that changes one end changes the other by as much, so the two stay in
step.
-/

namespace MemoryFlow

namespace Graph

variable {g g' : Graph} {a d u x phi value new : Access} {n m : Node} {old : Option Access}
  {f : Node → Node}

/-- The users of an access; one that was removed has none. -/
def usersOf (g : Graph) (a : Access) : List Access :=
  (g.node? a).elim [] Node.users

/-- The accesses that an access refers to; one that was removed refers to none. -/
def operandsOf (g : Graph) (a : Access) : List Access :=
  (g.node? a).elim [] Node.operands

theorem usersOf_eq (found : g.node? a = some n) : g.usersOf a = n.users := by
  rw [usersOf, found]
  rfl

theorem operandsOf_eq (found : g.node? a = some n) : g.operandsOf a = n.operands := by
  rw [operandsOf, found]
  rfl

/-- Whether every reference is known at both ends, as often as it is made, and none is made to a
use. -/
structure Exact (g : Graph) : Prop where
  count : ∀ d u, (g.usersOf d).count u = (g.operandsOf u).count d
  unused : ∀ d n, g.node? d = some n → n.isUse = true → n.users = []

namespace Exact

theorem of_ends (exact : g.Exact)
    (same : ∀ x, (g'.node? x).map Node.ends = (g.node? x).map Node.ends) : g'.Exact := by
  have views : ∀ x, g'.usersOf x = g.usersOf x ∧ g'.operandsOf x = g.operandsOf x := by
    intro x
    have both := congrArg (fun ends => (ends.elim [] (·.1), ends.elim [] (·.2.1))) (same x)
    simpa [usersOf, operandsOf, Option.elim_map, Node.ends, Function.comp_def] using both
  refine ⟨fun d u => ?_, fun d n found isUse => ?_⟩
  · rw [(views d).1, (views u).2]
    exact exact.count d u
  · have here := same d
    rw [found] at here
    obtain ⟨m, found', ends⟩ := Option.map_eq_some_iff.mp here.symm
    have kind : m.isUse = n.isUse := congrArg (·.2.2) ends
    have users : m.users = n.users := congrArg (·.1) ends
    rw [← users]
    exact exact.unused d m found' (kind.trans isUse)

theorem of_agrees (exact : g.Exact) (agrees : g.Agrees g') : g'.Exact := by
  refine exact.of_ends fun x => ?_
  have same := congrArg (Option.map Node.ends) (agrees.nodes x)
  simpa only [Option.map_map, Function.comp_def, Node.ends_forgotten] using same

theorem mem_users (exact : g.Exact) : u ∈ g.usersOf d ↔ d ∈ g.operandsOf u := by
  rw [← List.count_pos_iff, exact.count, List.count_pos_iff]

theorem operand (exact : g.Exact) (refers : d ∈ g.operandsOf u) :
    ∃ m, g.node? d = some m ∧ m.isUse = false ∧ u ∈ m.users := by
  have uses := exact.mem_users.mpr refers
  cases found : g.node? d with
  | none =>
      rw [usersOf, found] at uses
      cases uses
  | some m =>
      rw [usersOf_eq found] at uses
      refine ⟨m, rfl, ?_, uses⟩
      by_contra isUse
      rw [exact.unused d m found (by simpa using isUse)] at uses
      cases uses

theorem user (exact : g.Exact) (uses : u ∈ g.usersOf d) :
    ∃ n, g.node? u = some n ∧ d ∈ n.operands := by
  have refers := exact.mem_users.mp uses
  cases found : g.node? u with
  | none =>
      rw [operandsOf, found] at refers
      cases refers
  | some n =>
      rw [operandsOf_eq found] at refers
      exact ⟨n, rfl, refers⟩

theorem addNode (exact : g.Exact) (users : n.users = []) (operands : n.operands = []) :
    (g.addNode n).1.Exact := by
  have fresh : g.node? (g.addNode n).2 = none := by simp [node?, Graph.addNode]
  have usersOf_addNode : ∀ x, (g.addNode n).1.usersOf x = g.usersOf x := by
    intro x
    rw [usersOf, node?_addNode]
    split
    · rename_i here
      rw [here, usersOf, fresh]
      exact users
    · rfl
  have operandsOf_addNode : ∀ x, (g.addNode n).1.operandsOf x = g.operandsOf x := by
    intro x
    rw [operandsOf, node?_addNode]
    split
    · rename_i here
      rw [here, operandsOf, fresh]
      exact operands
    · rfl
  refine ⟨fun d u => ?_, fun d m found isUse => ?_⟩
  · rw [usersOf_addNode, operandsOf_addNode]
    exact exact.count d u
  · rw [node?_addNode] at found
    split at found
    · cases found
      exact users
    · exact exact.unused d m found isUse

end Exact

theorem count_usersOf_exchange (users : ∀ n, (f n).users = n.users) (live : g.node? new = some m) :
    ((g.exchange a f old new).usersOf x).count u =
      (g.usersOf x).count u - (if old = some x ∧ a = u then 1 else 0) +
        if x = new ∧ a = u then 1 else 0 := by
  rw [usersOf, node?_exchange, usersOf]
  cases found : g.node? x with
  | none =>
      have other : x ≠ new := by
        rintro rfl
        cases found.symm.trans live
      simp [other]
  | some n =>
      have kept : (if x = a then f n else n).users = n.users := by
        split
        · exact users n
        · rfl
      simp only [Option.map_some, Option.elim_some, Node.users_mapUsers, kept, List.count_append]
      congr 1
      · split <;> simp_all [List.count_erase]
      · split <;> simp_all [List.count_singleton]

theorem operandsOf_exchange (found : g.node? a = some n) :
    (g.exchange a f old new).operandsOf x = if x = a then (f n).operands else g.operandsOf x := by
  rw [operandsOf, node?_exchange, operandsOf]
  split
  · rename_i here
    rw [here, found]
    rfl
  · cases g.node? x <;> rfl

/-- If one operand takes the place of another, and both learn of it, references stay exact. -/
theorem Exact.exchange (exact : g.Exact) (rest : List Access) (found : g.node? a = some n)
    (live : g.node? new = some m) (notUse : m.isUse = false) (users : ∀ n, (f n).users = n.users)
    (kind : ∀ n, (f n).isUse = n.isUse) (before : n.operands.Perm (old.toList ++ rest))
    (after : (f n).operands.Perm (new :: rest)) : (g.exchange a f old new).Exact := by
  refine ⟨fun d u => ?_, fun d k read isUse => ?_⟩
  · rw [count_usersOf_exchange users live, operandsOf_exchange found, exact.count]
    by_cases here : u = a
    · subst here
      have known : (g.operandsOf u).count d = (if old = some d then 1 else 0) + rest.count d := by
        rw [operandsOf_eq found, before.count_eq, List.count_append]
        cases old <;> simp [List.count_singleton]
      have changed : (f n).operands.count d = (if d = new then 1 else 0) + rest.count d := by
        rw [after.count_eq, List.count_cons, Nat.add_comm]
        simp only [beq_iff_eq, eq_comm (a := new)]
      rw [if_pos rfl, known, changed]
      simp only [and_true]
      omega
    · rw [if_neg here]
      simp [Ne.symm here]
  · rw [node?_exchange] at read
    obtain ⟨k', read', rfl⟩ := Option.map_eq_some_iff.mp read
    have kept : (if d = a then f k' else k').users = k'.users := by
      split
      · exact users k'
      · rfl
    have isUse' : k'.isUse = true := by
      rw [Node.isUse_mapUsers] at isUse
      split at isUse
      · rwa [kind] at isUse
      · exact isUse
    have other : d ≠ new := by
      rintro rfl
      cases read'.symm.trans live
      rw [notUse] at isUse'
      cases isUse'
    simp [kept, exact.unused d k' read' isUse', other]

namespace Exact

theorem setDefining (exact : g.Exact) (ran : g.setDefining a d = .ok g') : g'.Exact := by
  obtain ⟨n, m, link, changed, found, linked, live, notUse, rfl, forgot⟩ := setDefining_ok ran
  refine (exact.exchange [] found live notUse (fun n => n.users_mapLink _)
    (fun n => n.isUse_mapLink _) ?_ ?_).of_agrees (agrees_of_forgets forgot).1
  · rw [Node.operands_of_link? linked, List.append_nil]
  · rw [Node.operands_mapLink linked]
    exact .refl _

theorem addIncoming (exact : g.Exact) {pred : Block} (ran : g.addIncoming phi pred value = .ok g') :
    g'.Exact := by
  obtain ⟨n, m, found, isPhi, live, notUse, rfl⟩ := addIncoming_ok ran
  refine (exact.exchange n.operands found live notUse (fun n => n.users_mapIncoming _)
    (fun n => n.isUse_mapIncoming _) (.refl _) ?_).of_agrees (agrees_forgetAll _)
  rw [Node.operands_mapIncoming isPhi, Node.operands_of_isPhi isPhi, List.map_append]
  exact List.perm_append_singleton ..

theorem setIncoming (exact : g.Exact) {edge : Nat} (ran : g.setIncoming phi edge value = .ok g') :
    g'.Exact := by
  obtain ⟨n, m, pred, old, found, isPhi, live, notUse, here, rfl⟩ := setIncoming_ok ran
  obtain ⟨inside, at'⟩ := List.getElem?_eq_some_iff.mp here
  refine (exact.exchange ((n.incoming.eraseIdx edge).map (·.2)) found live notUse
    (fun n => n.users_mapIncoming _) (fun n => n.isUse_mapIncoming _) ?_ ?_).of_agrees
    (agrees_forgetAll _)
  · have split := (List.getElem_cons_eraseIdx_perm inside).symm.map (·.2)
    rw [at'] at split
    rw [Node.operands_of_isPhi isPhi]
    exact split
  · rw [Node.operands_mapIncoming isPhi]
    exact (List.set_perm_cons_eraseIdx inside (pred, value)).map (·.2)

theorem keptByRewiring : KeptByRewiring Exact where
  setDefining := fun exact => exact.setDefining
  addIncoming := fun exact => exact.addIncoming
  setIncoming := fun exact => exact.setIncoming

theorem relist (exact : g.Exact) {block : Block} {list defList : List Access} :
    (g.relist n block list defList).Exact := by
  refine exact.of_ends fun x => ?_
  rw [node?_relist]
  split
  · rw [Option.map_map]
    simp only [Function.comp_def, Node.ends_forgotten]
  · rfl

theorem modifyBlock (exact : g.Exact) {block : Block} :
    (g.modifyNode a ({ · with block })).Exact := by
  refine exact.of_ends fun x => ?_
  rw [node?_modifyNode]
  split
  · rw [Option.map_map]
    rfl
  · rfl

theorem insert (exact : g.Exact) {block : Block} {place : Place}
    (ran : g.insert a block place = .ok g') : g'.Exact := by
  obtain ⟨n, moved, list, defList, _, rfl, _, _, rfl⟩ := insert_ok ran
  exact exact.modifyBlock.relist

theorem insertBefore (exact : g.Exact) {block : Block} {before : Option Access}
    (ran : g.insertBefore a block before = .ok g') : g'.Exact := by
  obtain ⟨n, list, defList, _, rfl⟩ := insertBefore_ok ran
  exact exact.modifyBlock.relist

theorem detach (exact : g.Exact) (ran : g.detach a = .ok g') : g'.Exact := by
  obtain ⟨n, kept, _, _, forgot, ran⟩ := detach_ok ran
  obtain ⟨m, _, rfl⟩ := unlist_ok ran
  exact (exact.of_agrees (agrees_of_forget forgot)).of_ends fun _ => rfl

theorem newAccess? (exact : g.Exact) {p : Procedure} {o : Oracle} {inst : Inst} {block : Block}
    (ran : g.newAccess? p o inst block = .ok (some (g', a))) : g'.Exact := by
  obtain ⟨n, next, _, _, linked, users, _, rfl⟩ := newAccess?_ok ran
  exact (exact.addNode users (Node.operands_of_link? linked)).of_ends fun _ => rfl

theorem createPhi (exact : g.Exact) {block : Block} (ran : g.createPhi block = .ok (g', a)) :
    g'.Exact := by
  obtain ⟨added, listed, _, rfl, rfl, inserted, rfl⟩ := createPhi_ok ran
  have added : Exact { (g.addNode ⟨g.nextNumber, block, .phi [], []⟩).1 with
      nextNumber := g.nextNumber + 1 } := (exact.addNode rfl rfl).of_ends fun _ => rfl
  exact (added.insert inserted).of_ends fun _ => rfl

/-- An access without users goes with its references: those it refers to are left by one user for
each. -/
theorem discard (exact : g.Exact) (ran : g.discard a = .ok g') : g'.Exact := by
  obtain ⟨n, nodes, kept, found, _, unused, node?_eq, forgot, rfl⟩ := discard_ok ran
  have read : ∀ x, (({ g with nodes }.unlisted a n.block).clear a n).node? x = if x = a then none
      else (g.node? x).map (·.mapUsers (·.diff (List.replicate (n.operands.count x) a))) :=
    fun x => node?_clear.trans (congrArg (if x = a then none else ·) (node?_eq x))
  refine of_agrees ⟨fun d u => ?_, fun d m found' isUse => ?_⟩ (agrees_of_forget_clear forgot).1
  · have users : (usersOf (({ g with nodes }.unlisted a n.block).clear a n) d).count u =
        if d = a then 0 else (g.usersOf d).count u - if u = a then n.operands.count d else 0 := by
      rw [usersOf, read, usersOf]
      split
      · rfl
      · cases g.node? d with
        | none => simp
        | some m => simp [List.count_diff, List.count_replicate, eq_comm (a := a)]
    have operands : operandsOf (({ g with nodes }.unlisted a n.block).clear a n) u =
        if u = a then [] else g.operandsOf u := by
      rw [operandsOf, read, operandsOf]
      split
      · rfl
      · cases g.node? u <;> rfl
    rw [users, operands, exact.count]
    by_cases gone : d = a
    · subst gone
      have nowhere := exact.count d u
      rw [usersOf_eq found, unused] at nowhere
      rw [if_pos rfl]
      split
      · rfl
      · exact nowhere
    · rw [if_neg gone]
      split
      · rename_i here
        rw [here, operandsOf_eq found]
        simp
      · rfl
  · rw [read] at found'
    split at found'
    · cases found'
    · obtain ⟨k, foundK, rfl⟩ := Option.map_eq_some_iff.mp found'
      simp [exact.unused d k foundK isUse]

theorem keptByEditing : KeptByEditing Exact where
  toKeptByRewiring := keptByRewiring
  newAccess? := fun exact => exact.newAccess?
  createPhi := fun exact => exact.createPhi
  insert := fun exact => exact.insert
  insertBefore := fun exact => exact.insertBefore
  detach := fun exact => exact.detach
  discard := fun exact => exact.discard

end Exact

theorem start_exact (config : Config) (flow : FlowGraph) (tree : Tree) (entry : Block) :
    (start config flow tree entry).Exact := by
  have only : ∀ x n, (start config flow tree entry).node? x = some n → n.users = [] ∧
      n.operands = [] := by
    rintro ⟨_ | index⟩ n found
    · cases found
      exact ⟨rfl, rfl⟩
    · cases found
  refine ⟨fun d u => ?_, fun d n found _ => (only d n found).1⟩
  have users : (start config flow tree entry).usersOf d = [] := by
    cases found : (start config flow tree entry).node? d with
    | none => rw [usersOf, found]; rfl
    | some n => rw [usersOf_eq found, (only d n found).1]
  have operands : (start config flow tree entry).operandsOf u = [] := by
    cases found : (start config flow tree entry).node? u with
    | none => rw [operandsOf, found]; rfl
    | some n => rw [operandsOf_eq found, (only u n found).2]
  rw [users, operands]
  rfl

theorem build_exact {p : Procedure} {o : Oracle} {config : Config}
    (built : build p o config = .ok g) : g.Exact := by
  obtain ⟨tree, entry, base, constructed, finished⟩ := build_ok built
  have exact : Exact { base with config } :=
    (Exact.keptByEditing.construct (fun _ _ exact => exact.of_ends fun _ => rfl)
      (start_exact {} _ tree entry) constructed).of_ends fun _ => rfl
  split at finished
  · exact exact.of_agrees (searched_of_refineUses finished).toAgrees
  · cases finished
    exact exact

end Graph

end MemoryFlow
