import MemoryFlow.Proofs.Graph.Check
import MemoryFlow.Proofs.Graph.Edit
import MemoryFlow.Proofs.Graph.Replacement

/-! # What a passed check says

A graph that has been edited may pass the check without following all the rules. Of the edges of a
phi only their number is compared with that of the predecessors, and each is looked up among them:
what this leaves open is that one predecessor has two edges and another one none
(`passed_phi_complete_iff`).
-/

namespace MemoryFlow

/-- Whether exactly one edge comes into a phi from each predecessor of its block. -/
def Node.CompleteIn (flow : FlowGraph) (n : Node) : Prop :=
  ∀ pred ∈ flow.preds n.block, (n.incoming.map Prod.fst).count pred = 1

/-- As many members as there are places, all of them places: none has two just if none is left
out. -/
theorem count_eq_one_iff_nodup {α : Type} [DecidableEq α] {l places : List α}
    (distinct : places.Nodup) (same : l.length = places.length) (within : ∀ x ∈ l, x ∈ places) :
    (∀ x ∈ places, l.count x = 1) ↔ l.Nodup := by
  constructor
  · exact fun once => List.nodup_iff_count_eq_one.mpr fun x member => once x (within x member)
  · intro nodup x place
    have perm : l.Perm places := (List.subperm_of_subset nodup within).perm_of_length_le same.ge
    rw [perm.count_eq]
    exact List.count_eq_one_of_mem distinct place

namespace Graph

variable {g g' : Graph} {p : Procedure} {o : Oracle} {a phi x new : Access} {n : Node}
  {f : Node → Node} {old : Option Access}

theorem flow_relist {block : Block} {list defList : List Access} :
    (g.relist n block list defList).flow = g.flow ∧
    (g.relist n block list defList).tree = g.tree := by
  rw [relist]
  split <;> exact ⟨rfl, rfl⟩

theorem keptByEditing_flow (flow : FlowGraph) (tree : Tree) :
    KeptByEditing fun g => g.flow = flow ∧ g.tree = tree where
  setDefining := by
    intro g g' a d held ran
    obtain ⟨n, m, link, changed, _, _, _, _, rfl, forgot⟩ := setDefining_ok ran
    obtain ⟨agrees, _⟩ := agrees_of_forgets forgot
    rw [agrees.flow, agrees.tree]
    cases link.defining <;> exact held
  addIncoming := by
    intro g g' phi value pred held ran
    obtain ⟨n, m, _, _, _, _, rfl⟩ := addIncoming_ok ran
    exact held
  setIncoming := by
    intro g g' phi value edge held ran
    obtain ⟨n, m, pred, old, _, _, _, _, _, rfl⟩ := setIncoming_ok ran
    exact held
  newAccess? := by
    intro g g' p o inst block a held ran
    obtain ⟨n, next, _, _, _, _, _, rfl⟩ := newAccess?_ok ran
    exact held
  createPhi := by
    intro g g' block a held ran
    obtain ⟨added, listed, _, rfl, rfl, inserted, rfl⟩ := createPhi_ok ran
    obtain ⟨n, moved, list, defList, _, rfl, _, _, rfl⟩ := insert_ok inserted
    exact ⟨flow_relist.1.trans held.1, flow_relist.2.trans held.2⟩
  insert := by
    intro g g' a block place held ran
    obtain ⟨n, moved, list, defList, _, rfl, _, _, rfl⟩ := insert_ok ran
    exact ⟨flow_relist.1.trans held.1, flow_relist.2.trans held.2⟩
  insertBefore := by
    intro g g' a block before held ran
    obtain ⟨n, list, defList, _, rfl⟩ := insertBefore_ok ran
    exact ⟨flow_relist.1.trans held.1, flow_relist.2.trans held.2⟩
  detach := by
    intro g g' a held ran
    obtain ⟨n, kept, _, _, forgot, ran⟩ := detach_ok ran
    obtain ⟨m, _, rfl⟩ := unlist_ok ran
    have agrees := agrees_of_forget forgot
    exact ⟨agrees.flow.trans held.1, agrees.tree.trans held.2⟩
  discard := by
    intro g g' a held ran
    obtain ⟨n, nodes, kept, _, _, _, _, forgot, rfl⟩ := discard_ok ran
    have agrees := (agrees_of_forget forgot).trans (kept.agrees_forgetNaming a)
    rw [clear_eq]
    exact ⟨agrees.flow.trans held.1, agrees.tree.trans held.2⟩

theorem build_frame {config : Config} (built : build p o config = .ok g) :
    ∃ entry, p.entry = some entry ∧ g.flow = .ofProcedure p ∧
      g.tree.Sound (.ofProcedure p) entry := by
  obtain ⟨tree, entry, planted, first, base, constructed, finished⟩ := build_planted built
  have constructed : base.flow = .ofProcedure p ∧ base.tree = tree :=
    (keptByEditing_flow _ tree).construct (fun _ _ => id) ⟨rfl, rfl⟩ constructed
  have frame : g.flow = .ofProcedure p ∧ g.tree = tree := by
    split at finished
    · have agrees := (searched_of_refineUses finished).toAgrees
      exact ⟨agrees.flow.trans constructed.1, agrees.tree.trans constructed.2⟩
    · cases finished
      exact constructed
  obtain ⟨t, planted', sound⟩ := Tree.ofFlow_sound _ ((FlowGraph.entry_ofProcedure p).trans first)
  obtain rfl := Except.ok.inj (planted.symm.trans planted')
  exact ⟨entry, first, frame.1, frame.2 ▸ sound⟩

theorem frame_of_act {act : Act} (ran : act.apply g = .ok g') :
    g'.flow = g.flow ∧ g'.tree = g.tree := by
  cases act with
  | change e => exact (keptByEditing_flow g.flow g.tree).edit ⟨rfl, rfl⟩ ran
  | ask i => exact ⟨(agrees_of_inquiry ran).flow, (agrees_of_inquiry ran).tree⟩

/-- Whatever is done to a built graph, its flow graph and dominator tree are those of the
procedure. -/
theorem frame_of_acts {config : Config} {acts : List Act} (built : build p o config = .ok g)
    (ran : acts.foldlM Act.apply g = .ok g') :
    ∃ entry, p.entry = some entry ∧ g'.flow = .ofProcedure p ∧
      g'.tree.Sound (.ofProcedure p) entry := by
  obtain ⟨entry, first, frame⟩ := build_frame built
  refine ⟨entry, first, foldlM_keeps
    (fun g => g.flow = .ofProcedure p ∧ g.tree.Sound (.ofProcedure p) entry) ran frame ?_⟩
  intro g act g' frame ran
  rw [(frame_of_act ran).1, (frame_of_act ran).2]
  exact frame

theorem sound_of_acts {config : Config} {acts : List Act} (built : build p o config = .ok g)
    (ran : acts.foldlM Act.apply g = .ok g') : ∃ entry, g'.tree.Sound g'.flow entry := by
  obtain ⟨entry, _, flow, sound⟩ := frame_of_acts built ran
  exact ⟨entry, flow ▸ sound⟩

theorem flow_of_acts {config : Config} {acts : List Act} (built : build p o config = .ok g)
    (ran : acts.foldlM Act.apply g = .ok g') : g'.flow = .ofProcedure p := by
  obtain ⟨_, _, flow, _⟩ := frame_of_acts built ran
  exact flow

theorem checkReferences_of_passed (passed : g.ask (g.check? p) = .ok (none, g')) :
    g.checkReferences? = none := by
  obtain ⟨⟨answer, order⟩, ran, same⟩ := bind_eq_ok.mp passed
  cases same
  obtain ⟨⟨lists, order'⟩, _, ran⟩ := bind_eq_ok.mp ran
  cases lists with
  | some violation => cases ran
  | none =>
      cases references : g.checkReferences? with
      | none => rfl
      | some violation =>
          simp only [references] at ran
          cases ran

/-- What is looked for in the edges of a phi. -/
theorem referenceViolation?_eq_none_iff {incoming : List (Block × Access)}
    (isPhi : n.role = .phi incoming) :
    g.referenceViolation? a n = none ↔ incoming.length = (g.flow.preds n.block).length ∧
      ∀ edge ∈ incoming, edge.1 ∈ g.flow.preds n.block ∧ g.operandViolation? edge.2 a = none := by
  rw [referenceViolation?, isPhi]
  dsimp only
  split_ifs with differ
  · simp [differ]
  · rw [List.findSome?_eq_none_iff, and_iff_right (not_not.mp differ)]
    refine forall₂_congr fun edge _ => ?_
    by_cases known : edge.1 ∈ g.flow.preds n.block <;> simp [known]

def sourcesOf (g : Graph) (a : Access) : List Block :=
  (g.node? a).elim [] fun n => n.incoming.map Prod.fst

theorem sourcesOf_eq (found : g.node? a = some n) : g.sourcesOf a = n.incoming.map Prod.fst := by
  rw [sourcesOf, found]
  rfl

theorem sourcesOf_exchange (found : g.node? a = some n) : (g.exchange a f old new).sourcesOf x =
    if x = a then (f n).incoming.map Prod.fst else g.sourcesOf x := by
  rw [sourcesOf, node?_exchange, sourcesOf]
  split
  · rename_i here
    rw [here, found]
    rfl
  · cases g.node? x <;> rfl

/-- Whether no two edges of a phi come from the same block. -/
def EdgesApart (g : Graph) : Prop :=
  ∀ a, (g.sourcesOf a).Nodup

namespace EdgesApart

theorem of_sources (apart : g.EdgesApart)
    (same : ∀ x, g'.sourcesOf x = [] ∨ g'.sourcesOf x = g.sourcesOf x) :
    g'.EdgesApart := by
  intro x
  rcases same x with none | same
  · rw [none]
    exact List.nodup_nil
  · rw [same]
    exact apart x

theorem of_agrees (apart : g.EdgesApart) (agrees : g.Agrees g') : g'.EdgesApart := by
  refine apart.of_sources fun x => .inr ?_
  have same := congrArg (Option.elim · [] fun n => n.incoming.map Prod.fst) (agrees.nodes x)
  simpa [sourcesOf, Option.elim_map, Function.comp_def] using same

theorem exchange (apart : g.EdgesApart) (found : g.node? a = some n)
    (distinct : ((f n).incoming.map Prod.fst).Nodup) : (g.exchange a f old new).EdgesApart := by
  intro x
  rw [sourcesOf_exchange found]
  split
  · exact distinct
  · exact apart x

theorem addIncoming (apart : g.EdgesApart) {pred : Block} {value : Access}
    (fresh : pred ∉ g.sourcesOf phi) (ran : g.addIncoming phi pred value = .ok g') :
    g'.EdgesApart := by
  obtain ⟨n, m, found, isPhi, _, _, rfl⟩ := addIncoming_ok ran
  refine (apart.exchange found ?_).of_agrees (agrees_forgetAll _)
  rw [Node.incoming_mapIncoming isPhi, List.map_append, ← sourcesOf_eq found]
  simpa using (apart phi).concat fresh

theorem addNode (apart : g.EdgesApart) (none : n.incoming = []) : (g.addNode n).1.EdgesApart := by
  refine apart.of_sources fun x => ?_
  rw [sourcesOf, node?_addNode]
  split
  · exact .inl (by simp [none])
  · exact .inr rfl

theorem relist (apart : g.EdgesApart) {block : Block} {list defList : List Access} :
    ((g.modifyNode a ({ · with block })).relist n block list defList).EdgesApart := by
  refine apart.of_sources fun x => .inr ?_
  have moved : (g.modifyNode a ({ · with block })).sourcesOf x = g.sourcesOf x := by
    rw [sourcesOf, node?_modifyNode, sourcesOf]
    split
    · cases g.node? x <;> rfl
    · rfl
  rw [← moved, sourcesOf, node?_relist, sourcesOf]
  split
  · simp [Option.elim_map, Function.comp_def]
  · rfl

theorem besidesAdding : KeptBesidesAdding EdgesApart where
  setDefining := by
    intro g g' a d apart ran
    obtain ⟨n, m, link, changed, found, _, _, _, rfl, forgot⟩ := setDefining_ok ran
    refine (apart.exchange found ?_).of_agrees (agrees_of_forgets forgot).1
    rw [Node.incoming_mapLink, ← sourcesOf_eq found]
    exact apart a
  setIncoming := by
    intro g g' phi value edge apart ran
    obtain ⟨n, m, pred, old, found, isPhi, _, _, here, rfl⟩ := setIncoming_ok ran
    refine (apart.exchange found ?_).of_agrees (agrees_forgetAll _)
    obtain ⟨bound, at'⟩ := List.getElem?_eq_some_iff.mp here
    have inside : edge < (n.incoming.map Prod.fst).length := by simpa using bound
    have source : pred = (n.incoming.map Prod.fst)[edge] := by simp [at']
    rw [Node.incoming_mapIncoming isPhi, List.map_set, source, List.set_getElem_self,
      ← sourcesOf_eq found]
    exact apart phi
  newAccess? := by
    intro g g' p o inst block a apart ran
    obtain ⟨n, next, isInst, _, _, _, _, rfl⟩ := newAccess?_ok ran
    have none : n.incoming = [] := n.incoming_of_not_isPhi (n.isPhi_of_inst? isInst)
    exact (apart.addNode none).of_sources fun _ => .inr rfl
  createPhi := by
    intro g g' block a apart ran
    obtain ⟨added, listed, _, rfl, rfl, inserted, rfl⟩ := createPhi_ok ran
    obtain ⟨n, moved, list, defList, _, rfl, _, _, rfl⟩ := insert_ok inserted
    have added : EdgesApart { (g.addNode ⟨g.nextNumber, block, .phi [], []⟩).1 with
        nextNumber := g.nextNumber + 1 } := (apart.addNode rfl).of_sources fun _ => .inr rfl
    exact added.relist.of_sources fun _ => .inr rfl
  insert := by
    intro g g' a block place apart ran
    obtain ⟨n, moved, list, defList, _, rfl, _, _, rfl⟩ := insert_ok ran
    exact apart.relist
  insertBefore := by
    intro g g' a block before apart ran
    obtain ⟨n, list, defList, _, rfl⟩ := insertBefore_ok ran
    exact apart.relist
  detach := by
    intro g g' a apart ran
    obtain ⟨n, kept, _, _, forgot, ran⟩ := detach_ok ran
    obtain ⟨m, _, rfl⟩ := unlist_ok ran
    exact (apart.of_agrees (agrees_of_forget forgot)).of_sources fun _ => .inr rfl
  discard := by
    intro g g' a apart ran
    obtain ⟨n, nodes, kept, _, _, _, node?_eq, forgot, rfl⟩ := discard_ok ran
    refine (apart.of_sources fun x => ?_).of_agrees (agrees_of_forget_clear forgot).1
    rw [sourcesOf, node?_clear]
    split
    · exact .inl rfl
    · refine .inr ((congrArg (Option.elim · _ _) (node?_eq x)).trans ?_)
      rw [sourcesOf]
      cases g.node? x <;> rfl

end EdgesApart

end Graph

/-- Whether an act adds no edge to a phi from a block that one comes from already. -/
def Act.AddsApart (g : Graph) : Act → Prop
  | .change (.addIncoming phi pred _) => pred ∉ g.sourcesOf phi
  | _ => True

namespace Graph

variable {g g' : Graph} {p : Procedure} {o : Oracle} {phi : Access} {n : Node}

def ApartStep (g g' : Graph) : Prop :=
  ∃ act : Act, act.AddsApart g ∧ act.apply g = .ok g'

theorem EdgesApart.step (apart : g.EdgesApart) (step : g.ApartStep g') : g'.EdgesApart := by
  obtain ⟨act, adds, ran⟩ := step
  cases act with
  | change edit =>
      refine besidesAdding.edit apart (fun phi pred value same ran => ?_) ran
      subst same
      exact apart.addIncoming adds ran
  | ask inquiry => exact apart.of_agrees (agrees_of_inquiry ran)

theorem EdgesApart.run (apart : g.EdgesApart) (steps : Relation.ReflTransGen ApartStep g g') :
    g'.EdgesApart := by
  induction steps with
  | refl => exact apart
  | tail _ step ih => exact ih.step step

theorem exists_acts_of_steps {step : Graph → Graph → Prop}
    (isAct : ∀ g g', step g g' → ∃ act : Act, act.apply g = .ok g')
    (steps : Relation.ReflTransGen step g g') :
    ∃ acts : List Act, acts.foldlM Act.apply g = .ok g' := by
  induction steps with
  | refl => exact ⟨[], rfl⟩
  | tail _ step ih =>
      obtain ⟨acts, ran⟩ := ih
      obtain ⟨act, ran'⟩ := isAct _ _ step
      refine ⟨acts ++ [act], ?_⟩
      rw [List.foldlM_append, ran, ok_bind, List.foldlM_cons, ran']
      rfl

theorem exists_acts (steps : Relation.ReflTransGen ApartStep g g') :
    ∃ acts : List Act, acts.foldlM Act.apply g = .ok g' :=
  exists_acts_of_steps (fun _ _ ⟨act, _, ran⟩ => ⟨act, ran⟩) steps

theorem edges_of_passed (flow : g.flow = .ofProcedure p) {checked : Procedure}
    (passed : g.ask (g.check? checked) = .ok (none, g')) (found : g.node? phi = some n)
    (isPhi : n.isPhi = true) :
    n.incoming.length = ((FlowGraph.ofProcedure p).preds n.block).length ∧
      ∀ edge ∈ n.incoming, edge.1 ∈ (FlowGraph.ofProcedure p).preds n.block := by
  have role : n.role = .phi n.incoming := by
    obtain ⟨_, _, role, _⟩ := n
    cases role with
    | definition | use => cases isPhi
    | phi => rfl
  have rule :=
    List.findSome?_eq_none_iff.mp (checkReferences_of_passed passed) phi (mem_live.mpr ⟨n, found⟩)
  rw [found] at rule
  obtain ⟨length, edges⟩ := (referenceViolation?_eq_none_iff role).mp rule
  rw [flow] at length edges
  exact ⟨length, fun edge member => (edges edge member).1⟩

theorem complete_iff_of_passed (distinct : p.layout.blocks.Nodup) (flow : g.flow = .ofProcedure p)
    {checked : Procedure} (passed : g.ask (g.check? checked) = .ok (none, g'))
    (found : g.node? phi = some n) (isPhi : n.isPhi = true) :
    n.CompleteIn (.ofProcedure p) ↔ (n.incoming.map Prod.fst).Nodup := by
  obtain ⟨length, edges⟩ := edges_of_passed flow passed found isPhi
  rw [← FlowGraph.blocks_ofProcedure] at distinct
  exact count_eq_one_iff_nodup (FlowGraph.nodup_preds distinct _) (by simpa using length)
    (List.forall_mem_map.mpr edges)

/-- However a built graph has been edited, if it passes the check, a phi has as many edges as its
block has predecessors, and all from predecessors. There is exactly one from each of them just if no
two are from the same, and that is so if no edit adds a second one. -/
theorem passed_phi_complete_iff {config : Config} (distinct : p.layout.Distinct)
    (built : build p o config = .ok g) :
    (∀ (acts : List Act) g' checked g'', acts.foldlM Act.apply g = .ok g' →
      g'.ask (g'.check? checked) = .ok (none, g'') → ∀ phi n, g'.node? phi = some n →
      n.isPhi = true → n.incoming.length = ((FlowGraph.ofProcedure p).preds n.block).length ∧
        (∀ edge ∈ n.incoming, edge.1 ∈ (FlowGraph.ofProcedure p).preds n.block) ∧
        (n.CompleteIn (.ofProcedure p) ↔ (n.incoming.map Prod.fst).Nodup)) ∧
    ∀ g' checked g'', Relation.ReflTransGen ApartStep g g' →
      g'.ask (g'.check? checked) = .ok (none, g'') → ∀ phi n, g'.node? phi = some n →
      n.isPhi = true → n.CompleteIn (.ofProcedure p) := by
  obtain ⟨entry, _, h⟩ := build_built distinct built
  refine ⟨fun acts g' checked g'' ran passed phi n found isPhi => ?_,
    fun g' checked g'' steps passed phi n found isPhi => ?_⟩
  · have flow := flow_of_acts built ran
    obtain ⟨length, edges⟩ := edges_of_passed flow passed found isPhi
    exact ⟨length, edges, complete_iff_of_passed distinct.blocks flow passed found isPhi⟩
  · obtain ⟨acts, ran⟩ := exists_acts steps
    -- In a built graph no phi has two edges from one block.
    have apart : g'.EdgesApart := EdgesApart.run (fun a => ?_) steps
    · rw [complete_iff_of_passed distinct.blocks (flow_of_acts built ran) passed found isPhi,
        ← sourcesOf_eq found]
      exact apart phi
    · cases found : g.node? a with
      | none => simp [sourcesOf, found]
      | some n =>
          rw [sourcesOf_eq found]
          exact h.once a n found

/-- Two ways from the entry that meet again; nothing touches memory. -/
def bareDiamond : Procedure where
  name := "diamond"
  params := [⟨0⟩]
  blockNames := #[none, none, none, none]
  insts := #[⟨.branch ⟨0⟩ ⟨1⟩ ⟨2⟩, none⟩, ⟨.jump ⟨3⟩, none⟩, ⟨.jump ⟨3⟩, none⟩, ⟨.ret none, none⟩]
  values := #[.parameter 0]
  layout := .ofRows [⟨⟨0⟩, [⟨0⟩]⟩, ⟨⟨1⟩, [⟨1⟩]⟩, ⟨⟨2⟩, [⟨2⟩]⟩, ⟨⟨3⟩, [⟨3⟩]⟩]

theorem bareDiamond_accepted : bareDiamond.Accepted :=
  ⟨⟨bareDiamond, some ⟨3⟩⟩,
    .append (.ret none)
    (.select ⟨3⟩ (.append (.jump ⟨3⟩) (.select ⟨2⟩ (.append (.jump ⟨3⟩) (.select ⟨1⟩
      (.append (.branch ⟨0⟩ ⟨1⟩ ⟨2⟩) (.select ⟨0⟩ (.addBlock none (.addBlock none (.addBlock none
        (.addBlock none (.addParam (.start "diamond")) rfl) rfl) rfl) rfl)) rfl)) rfl)) rfl)) rfl,
        rfl⟩

/-- A phi where the ways meet, with an edge from each of them, passes the check. -/
theorem passed_phi_complete_iff_bareDiamond :
    bareDiamond.layout.Distinct ∧ ∃ g g' g'' n, build bareDiamond .byObject {} = .ok g ∧
      Relation.ReflTransGen ApartStep g g' ∧ g'.ask (g'.check? bareDiamond) = .ok (none, g'') ∧
      g'.node? ⟨1⟩ = some n ∧ n.isPhi = true ∧ n.CompleteIn (.ofProcedure bareDiamond) := by
  obtain ⟨g, built, runs⟩ := exists_of_any (x := build bareDiamond .byObject {})
    (P := fun g => (Edit.apply g (.createPhi ⟨3⟩)).toOption.any fun g₁ => g₁.sourcesOf ⟨1⟩ == [] &&
      (Edit.apply g₁ (.addIncoming ⟨1⟩ ⟨1⟩ .liveOnEntry)).toOption.any fun g₂ =>
        g₂.sourcesOf ⟨1⟩ == [⟨1⟩] &&
          (Edit.apply g₂ (.addIncoming ⟨1⟩ ⟨2⟩ .liveOnEntry)).toOption.any fun g' =>
          g'.node? ⟨1⟩ == some ⟨1, ⟨3⟩, .phi [(⟨1⟩, .liveOnEntry), (⟨2⟩, .liveOnEntry)], []⟩ &&
            (g'.ask (g'.check? bareDiamond)).toOption.any (·.1.isNone)) (by decide +kernel)
  obtain ⟨g₁, created, runs⟩ := exists_of_any runs
  obtain ⟨none, runs⟩ := Bool.and_eq_true_iff.mp runs
  obtain ⟨g₂, first, runs⟩ := exists_of_any runs
  obtain ⟨one, runs⟩ := Bool.and_eq_true_iff.mp runs
  obtain ⟨g', second, runs⟩ := exists_of_any runs
  obtain ⟨phi, passes⟩ := Bool.and_eq_true_iff.mp runs
  obtain ⟨⟨_ | _, g''⟩, passed, clean⟩ := exists_of_any passes
  · have step₁ : g.ApartStep g₁ := ⟨.change (.createPhi ⟨3⟩), trivial, created⟩
    have step₂ : g₁.ApartStep g₂ := ⟨.change (.addIncoming ⟨1⟩ ⟨1⟩ .liveOnEntry),
      by simp [Act.AddsApart, eq_of_beq none], first⟩
    have step₃ : g₂.ApartStep g' := ⟨.change (.addIncoming ⟨1⟩ ⟨2⟩ .liveOnEntry),
      by simp [Act.AddsApart, eq_of_beq one], second⟩
    have steps : Relation.ReflTransGen ApartStep g g' :=
      ((Relation.ReflTransGen.single step₁).tail step₂).tail step₃
    exact ⟨bareDiamond_accepted.distinct, g, g', g'', _, built, steps, passed, eq_of_beq phi, rfl,
      (passed_phi_complete_iff bareDiamond_accepted.distinct built).2 g' bareDiamond g'' steps
        passed ⟨1⟩ _ (eq_of_beq phi) rfl⟩
  · cases clean

/-- Two edges from one of the ways, and none from the other, pass the check as well. -/
theorem passed_phi_lacks_predecessor :
    bareDiamond.Accepted ∧ ∃ g g' g'' n, build bareDiamond .byObject {} = .ok g ∧
      [.change (.createPhi ⟨3⟩), .change (.addIncoming ⟨1⟩ ⟨1⟩ .liveOnEntry),
        .change (.addIncoming ⟨1⟩ ⟨1⟩ .liveOnEntry)].foldlM Act.apply g = .ok g' ∧
      g'.ask (g'.check? bareDiamond) = .ok (none, g'') ∧ g'.node? ⟨1⟩ = some n ∧ n.isPhi = true ∧
      ⟨2⟩ ∈ (FlowGraph.ofProcedure bareDiamond).preds n.block ∧
      (n.incoming.map Prod.fst).count ⟨2⟩ = 0 := by
  obtain ⟨g, built, runs⟩ := exists_of_any (x := build bareDiamond .byObject {})
    (P := fun g => ([.change (.createPhi ⟨3⟩), .change (.addIncoming ⟨1⟩ ⟨1⟩ .liveOnEntry),
      .change (.addIncoming ⟨1⟩ ⟨1⟩ .liveOnEntry)].foldlM Act.apply g).toOption.any fun g' =>
        g'.node? ⟨1⟩ == some ⟨1, ⟨3⟩, .phi [(⟨1⟩, .liveOnEntry), (⟨1⟩, .liveOnEntry)], []⟩ &&
          (g'.ask (g'.check? bareDiamond)).toOption.any (·.1.isNone)) (by decide +kernel)
  obtain ⟨g', ran, runs⟩ := exists_of_any runs
  obtain ⟨phi, passes⟩ := Bool.and_eq_true_iff.mp runs
  obtain ⟨⟨_ | _, g''⟩, passed, clean⟩ := exists_of_any passes
  · exact ⟨bareDiamond_accepted, g, g', g'', _, built, ran, passed, eq_of_beq phi, rfl, by decide,
      by decide⟩
  · cases clean

end Graph

end MemoryFlow
