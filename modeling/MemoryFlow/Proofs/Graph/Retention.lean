import Mathlib.Logic.Relation
import MemoryFlow.Proofs.Clobber.Agreement
import MemoryFlow.Proofs.Clobber.Answer
import MemoryFlow.Proofs.Graph.Edit

/-! # How long answers are kept

A cached clobber depends on all that can be reached upwards from the defining access of what it is
cached for. A change forgets every answer above which something changes. It need not look for them:
what nothing refers to can be reached from nothing else, and where something that may be referred to
changes, every answer is forgotten.
-/

namespace MemoryFlow

namespace Graph

variable {g g' g'' : Graph} {p : Procedure} {o : Oracle} {a c d u x : Access} {n m : Node}
  {block : Block}

def role? (g : Graph) (a : Access) : Option Role :=
  (g.node? a).map Node.lasting

/-- Whether an access is reached from another by going up: to the defining access of a use or
definition, and to any value that flows into a phi. -/
def Upward (g : Graph) : Access → Access → Prop :=
  Relation.ReflTransGen fun a d => d ∈ g.operandsOf a

/-- The part of a graph that is reached by going up from an access: each access with what it is and
refers to. -/
def upward (g : Graph) (a : Access) : Set (Access × Role) :=
  { e | g.Upward a e.1 ∧ g.role? e.1 = some e.2 }

theorem operandsOf_congr (same : g'.role? x = g.role? x) : g'.operandsOf x = g.operandsOf x := by
  unfold role? at same
  unfold operandsOf
  cases found : g.node? x <;> cases found' : g'.node? x <;> simp [found, found'] at same ⊢
  exact Node.operands_congr same

theorem upward_congr (same : ∀ x, g.Upward u x → g'.role? x = g.role? x) :
    g'.Upward u x ↔ g.Upward u x := by
  constructor
  · intro up
    induction up with
    | refl => exact .refl
    | tail _ refers ih => exact ih.tail (operandsOf_congr (same _ ih) ▸ refers)
  · intro up
    induction up with
    | refl => exact .refl
    | tail up refers ih => exact ih.tail ((operandsOf_congr (same _ up)).symm ▸ refers)

/-- Whether all that is cached in `g'` was cached in `g`, and nothing above it has changed since. -/
def Retains (g g' : Graph) : Prop :=
  ∀ u c, g'.cached? u = some c → g.cached? u = some c ∧ ∀ x, g.Upward u x → g'.role? x = g.role? x

namespace Retains

theorem refl : g.Retains g :=
  fun _ _ cached => ⟨cached, fun _ _ => rfl⟩

theorem trans (first : g.Retains g') (second : g'.Retains g'') : g.Retains g'' := by
  intro u c cached
  obtain ⟨cached, same'⟩ := second u c cached
  obtain ⟨cached, same⟩ := first u c cached
  exact ⟨cached, fun x up => (same' x ((upward_congr same).mpr up)).trans (same x up)⟩

theorem of_forgotten (forgotten : ∀ x, g'.cached? x = none) : g.Retains g' := by
  intro u c cached
  rw [forgotten] at cached
  cases cached

theorem of_roles (kept : ∀ x c, g'.cached? x = some c → g.cached? x = some c)
    (same : ∀ x, g'.role? x = g.role? x) : g.Retains g' :=
  fun u c cached => ⟨kept u c cached, fun x _ => same x⟩

/-- A change to what nothing refers to is above nothing else. -/
theorem of_unreferenced (unreferenced : ∀ u, a ∉ g.operandsOf u) (forgotten : g'.cached? a = none)
    (kept : ∀ x c, g'.cached? x = some c → g.cached? x = some c)
    (same : ∀ x, x ≠ a → g'.role? x = g.role? x) : g.Retains g' := by
  intro u c cached
  have other : u ≠ a := by
    rintro rfl
    simp [forgotten] at cached
  refine ⟨kept u c cached, fun x up => same x ?_⟩
  -- The last step up to `a` would refer to it.
  cases up with
  | refl => exact other
  | tail _ refers =>
      rintro rfl
      exact unreferenced _ refers

end Retains

theorem Agrees.role? (agrees : g.Agrees g') : g'.role? x = g.role? x := by
  have same := congrArg (Option.map Node.lasting) (agrees.nodes x)
  simpa [Graph.role?, Option.map_map, Function.comp_def] using same

theorem Exact.use_unreferenced (exact : g.Exact) (found : g.node? a = some n)
    (isUse : n.isUse = true) : a ∉ g.operandsOf u := by
  intro refers
  obtain ⟨m, found', notUse, _⟩ := exact.operand refers
  cases found.symm.trans found'
  simp [isUse] at notUse

namespace Exact

theorem setDefining_retains (exact : g.Exact) (indexed : g.Indexed)
    (ran : g.setDefining a d = .ok g') : g.Retains g' := by
  obtain ⟨n, m, link, changed, found, _, _, _, same, forgot⟩ := setDefining_ok ran
  -- A definition may be above anything, so all is forgotten; a use is above nothing but itself.
  cases isUse : n.isUse with
  | false =>
      rw [isUse] at forgot
      cases forgot
      have indexed' : changed.Indexed := by
        rw [same]
        exact indexed.exchange fun n => n.cached?_mapLink_defining (some d)
      exact .of_forgotten fun x => indexed'.cached?_forgetAll
  | true =>
      rw [isUse, if_pos rfl] at forgot
      have cached : ∀ x, g'.cached? x = if x = a then none else g.cached? x := by
        intro x
        rw [cached?_of_forget forgot, same,
          cached?_exchange fun n => n.cached?_mapLink_defining (some d)]
      refine .of_unreferenced (fun u => exact.use_unreferenced found isUse) (by simp [cached]) ?_ ?_
      · intro x c held
        rw [cached] at held
        split at held
        · cases held
        · exact held
      · intro x other
        rw [(agrees_of_forget forgot).role?, same, Graph.role?, node?_exchange, Graph.role?]
        cases g.node? x <;> simp [other]

end Exact

theorem forget_retains (forgot : g.forget a = .ok g') : g.Retains g' := by
  refine .of_roles (fun x c held => ?_) fun x => (agrees_of_forget forgot).role?
  rw [cached?_of_forget forgot] at held
  split at held
  · cases held
  · exact held

theorem forgetNaming_retains : g.Retains (g.forgetNaming a) := by
  refine .of_roles (fun x c held => ?_) fun x => (g.agrees_forgetNaming a).role?
  rw [cached?_forgetNaming] at held
  split at held
  · cases held
  · exact held

theorem Indexed.addIncoming_retains (indexed : g.Indexed) {phi value : Access} {pred : Block}
    (ran : g.addIncoming phi pred value = .ok g') : g.Retains g' := by
  obtain ⟨n, m, _, _, _, _, rfl⟩ := addIncoming_ok ran
  exact .of_forgotten fun x =>
    Indexed.cached?_forgetAll (indexed.exchange fun n => n.cached?_mapIncoming _)

theorem Indexed.setIncoming_retains (indexed : g.Indexed) {phi value : Access} {edge : Nat}
    (ran : g.setIncoming phi edge value = .ok g') : g.Retains g' := by
  obtain ⟨n, m, pred, old, _, _, _, _, _, rfl⟩ := setIncoming_ok ran
  exact .of_forgotten fun x =>
    Indexed.cached?_forgetAll (indexed.exchange fun n => n.cached?_mapIncoming _)

theorem modifyBlock_retains : g.Retains (g.modifyNode a ({ · with block })) := by
  refine .of_roles (fun x c held => cached?_modifyBlock.symm.trans held) fun x => ?_
  simp only [role?, node?_modifyNode]
  split
  · simp [Option.map_map, Function.comp_def]
  · rfl

theorem relist_retains {list defList : List Access} :
    g.Retains (g.relist n block list defList) := by
  refine .of_roles (fun x c held => ?_) fun x => ?_
  · rw [cached?, node?_relist] at held
    cases found : g.node? x <;> split at held <;> simp_all [cached?]
  · rw [role?, node?_relist, role?]
    split
    · simp [Option.map_map, Function.comp_def]
    · rfl

theorem insert_retains {place : Place} (ran : g.insert a block place = .ok g') : g.Retains g' := by
  obtain ⟨n, moved, list, defList, _, rfl, _, _, rfl⟩ := insert_ok ran
  exact modifyBlock_retains.trans relist_retains

theorem insertBefore_retains {before : Option Access}
    (ran : g.insertBefore a block before = .ok g') :
    g.Retains g' := by
  obtain ⟨n, list, defList, _, rfl⟩ := insertBefore_ok ran
  exact modifyBlock_retains.trans relist_retains

theorem detach_retains (ran : g.detach a = .ok g') : g.Retains g' := by
  obtain ⟨n, kept, _, _, forgot, ran⟩ := detach_ok ran
  obtain ⟨m, _, rfl⟩ := unlist_ok ran
  exact (forget_retains forgot).trans (.of_roles (fun _ _ held => held) fun _ => rfl)

namespace Exact

theorem addNode_retains (exact : g.Exact) (plain : n.cached? = none) :
    g.Retains (g.addNode n).1 := by
  have fresh : g.node? (g.addNode n).2 = none := by simp [node?, Graph.addNode]
  refine .of_unreferenced (a := (g.addNode n).2) (fun u refers => ?_) ?_ (fun x c held => ?_)
    fun x other => ?_
  · obtain ⟨m, found, _⟩ := exact.operand refers
    simp [fresh] at found
  · simp [cached?, node?_addNode, plain]
  · rw [cached?, node?_addNode] at held
    split at held
    · simp [plain] at held
    · exact held
  · rw [role?, node?_addNode, if_neg other, role?]

theorem newAccess?_retains (exact : g.Exact) {inst : Inst}
    (ran : g.newAccess? p o inst block = .ok (some (g', a))) : g.Retains g' := by
  obtain ⟨n, next, _, _, linked, _, _, rfl⟩ := newAccess?_ok ran
  have plain : n.cached? = none := by simp [Node.cached?, linked]
  exact (exact.addNode_retains plain).trans (.of_roles (fun _ _ held => held) fun _ => rfl)

theorem createPhi_retains (exact : g.Exact) (ran : g.createPhi block = .ok (g', a)) :
    g.Retains g' := by
  obtain ⟨added, listed, _, rfl, rfl, inserted, rfl⟩ := createPhi_ok ran
  have numbered : g.Retains { (g.addNode ⟨g.nextNumber, block, .phi [], []⟩).1 with
      nextNumber := g.nextNumber + 1 } :=
    (exact.addNode_retains rfl).trans (.of_roles (fun _ _ held => held) fun _ => rfl)
  exact (numbered.trans (insert_retains inserted)).trans
    (.of_roles (fun _ _ held => held) fun _ => rfl)

theorem discard_retains (exact : g.Exact) (ran : g.discard a = .ok g') : g.Retains g' := by
  obtain ⟨n, nodes, kept, found, _, unused, node?_eq, forgot, rfl⟩ := discard_ok ran
  have roles : ∀ x, (kept.forgetNaming a).role? x = g.role? x := by
    intro x
    rw [(kept.agrees_forgetNaming a).role?, (agrees_of_forget forgot).role?]
    change (node? { g with nodes } x).map Node.lasting = _
    rw [node?_eq, Option.map_map, role?]
    simp [Function.comp_def]
  refine .of_unreferenced (a := a) (fun u refers => ?_) (by simp) (fun x c held => ?_)
    fun x other => ?_
  · have uses := exact.mem_users.mpr refers
    simp [usersOf_eq found, unused] at uses
  · rw [cached?_clear] at held
    split at held
    · cases held
    · rw [← cached?_of_mapUsers (node?_eq x)]
      exact (forget_retains forgot x c (forgetNaming_retains x c held).1).1
  · rw [role?, node?_clear, if_neg other]
    exact roles x

/-- What survives from a graph with exact references and an exact index, as its changes go on. -/
theorem keptByEditing_retains :
    KeptByEditing fun g' => g'.Exact ∧ g'.Indexed ∧ g.Retains g' where
  setDefining := fun ⟨exact, indexed, held⟩ ran => ⟨exact.setDefining ran, indexed.setDefining ran,
    held.trans (exact.setDefining_retains indexed ran)⟩
  addIncoming := fun ⟨exact, indexed, held⟩ ran => ⟨exact.addIncoming ran, indexed.addIncoming ran,
    held.trans (indexed.addIncoming_retains ran)⟩
  setIncoming := fun ⟨exact, indexed, held⟩ ran => ⟨exact.setIncoming ran, indexed.setIncoming ran,
    held.trans (indexed.setIncoming_retains ran)⟩
  newAccess? := fun ⟨exact, indexed, held⟩ ran => ⟨exact.newAccess? ran, indexed.newAccess? ran,
    held.trans (exact.newAccess?_retains ran)⟩
  createPhi := fun ⟨exact, indexed, held⟩ ran => ⟨exact.createPhi ran, indexed.createPhi ran,
    held.trans (exact.createPhi_retains ran)⟩
  insert := fun ⟨exact, indexed, held⟩ ran => ⟨exact.insert ran, indexed.insert ran,
    held.trans (insert_retains ran)⟩
  insertBefore := fun ⟨exact, indexed, held⟩ ran =>
    ⟨exact.insertBefore ran, indexed.insertBefore ran,
    held.trans (insertBefore_retains ran)⟩
  detach := fun ⟨exact, indexed, held⟩ ran => ⟨exact.detach ran, indexed.detach ran,
    held.trans (detach_retains ran)⟩
  discard := fun ⟨exact, indexed, held⟩ ran => ⟨exact.discard ran, indexed.discard ran,
    held.trans (exact.discard_retains ran)⟩

theorem edit_retains (exact : g.Exact) (indexed : g.Indexed) {edit : Edit}
    (ran : edit.apply g = .ok g') : g.Retains g' :=
  (keptByEditing_retains.edit ⟨exact, indexed, .refl⟩ ran).2.2

end Exact

theorem Indexed.inquiry (indexed : g.Indexed) {inquiry : Inquiry} (ran : inquiry.apply g = .ok g') :
    g'.Indexed := by
  cases inquiry with
  | clobberOf p o a =>
      obtain ⟨⟨c, effort, asked⟩, answered, same⟩ := bind_eq_ok.mp ran
      cases same
      exact indexed.clobberOf answered
  | clobberAt p o a loc =>
      obtain ⟨⟨c, effort, asked⟩, answered, same⟩ := bind_eq_ok.mp ran
      cases same
      exact indexed.clobberAt answered
  | forget a => exact indexed.forget ran
  | locallyDominates a b | dominates a b | dominatesUse a b | check p =>
      obtain ⟨⟨answer, asked⟩, answered, same⟩ := bind_eq_ok.mp ran
      cases same
      exact indexed.ask answered

theorem Indexed.act (indexed : g.Indexed) {act : Act} (ran : act.apply g = .ok g') :
    g'.Indexed := by
  cases act with
  | change edit => exact Indexed.keptByEditing.edit indexed ran
  | ask inquiry => exact indexed.inquiry ran

/-- However a built graph has been edited and asked, what is cached after one more change, or after
an answer is forgotten, was cached before, is in the graph, and has above it all that it had above
it. -/
theorem cached_clobber_never_outlives_its_chains {first : Graph} {config : Config} {acts : List Act}
    {edit : Edit} (built : build p o config = .ok first)
    (reached : acts.foldlM Act.apply first = .ok g)
    (changed : edit.apply g = .ok g' ∨ g.forget a = .ok g') (found : g'.node? u = some m)
    (cached : m.cached? = some c) :
    ∃ n, g.node? u = some n ∧ n.cached? = some c ∧ g'.isLive c = true ∧ m.defining? = n.defining? ∧
      ∀ d, n.defining? = some d → g'.upward d = g.upward d := by
  have exact : g.Exact :=
    foldlM_keeps Exact reached (build_exact built) fun _ _ _ exact ran => exact.act ran
  have indexed : g.Indexed :=
    foldlM_keeps Indexed reached (build_indexed built) fun _ _ _ indexed ran => indexed.act ran
  have names : g'.cached? u = some c := by rw [cached?_eq found, cached]
  obtain ⟨held, same⟩ := changed.elim (exact.edit_retains indexed) forget_retains u c names
  have indexed' : g'.Indexed := changed.elim (Indexed.keptByEditing.edit indexed) indexed.forget
  obtain ⟨n, found', held⟩ := Option.bind_eq_some_iff.mp held
  have here := same u .refl
  rw [role?, role?, found, found'] at here
  have defining := Node.defining?_congr (Option.some.inj here)
  refine ⟨n, found', held, indexed'.live names, defining, ?_⟩
  intro d link
  have refers : d ∈ g.operandsOf u := by
    rw [operandsOf_eq found']
    exact Node.mem_operands_of_defining? link
  have above : ∀ x, g.Upward d x → g'.role? x = g.role? x := fun x up => same x (.head refers up)
  ext ⟨x, role⟩
  simp only [upward, Set.mem_ofPred_eq, upward_congr above]
  exact and_congr_right fun up => by rw [above x up]

open Walker in
/-- A load in the loop goes, and the one before it sees memory on entry. What is cached for the load
after the loop stays: it was found through the phi of the loop. -/
theorem cached_clobber_never_outlives_its_chains_twoSlots :
    ∃ first g g', build twoSlots .byObject {} = .ok first ∧
      [Act.change (.discard ⟨4⟩), .ask (.clobberOf twoSlots .byObject ⟨3⟩)].foldlM Act.apply first =
        .ok g ∧ (Edit.setDefining ⟨2⟩ .liveOnEntry).apply g = .ok g' ∧
      g'.node? ⟨5⟩ = some ⟨0, ⟨3⟩, .use ⟨9⟩ ⟨some ⟨6⟩, some ⟨1⟩⟩, []⟩ ∧
      ∃ n, g.node? ⟨5⟩ = some n ∧ n.cached? = some ⟨1⟩ ∧ g'.isLive ⟨1⟩ = true ∧
        some ⟨6⟩ = n.defining? ∧ ∀ d, n.defining? = some d → g'.upward d = g.upward d := by
  obtain ⟨first, built, ran⟩ := exists_of_any (x := build twoSlots .byObject {})
    (P := fun first =>
      ([Act.change (.discard ⟨4⟩), .ask (.clobberOf twoSlots .byObject ⟨3⟩)].foldlM Act.apply
        first).toOption.any fun g =>
        ((Edit.setDefining ⟨2⟩ .liveOnEntry).apply g).toOption.any fun g' =>
          g'.node? ⟨5⟩ == some ⟨0, ⟨3⟩, .use ⟨9⟩ ⟨some ⟨6⟩, some ⟨1⟩⟩, []⟩) (by decide +kernel)
  obtain ⟨g, reached, ran⟩ := exists_of_any ran
  obtain ⟨g', changed, found⟩ := exists_of_any ran
  exact ⟨first, g, g', built, reached, changed, eq_of_beq found,
    cached_clobber_never_outlives_its_chains (a := ⟨2⟩) built reached (.inl changed)
    (eq_of_beq found) rfl⟩

end Graph

end MemoryFlow
