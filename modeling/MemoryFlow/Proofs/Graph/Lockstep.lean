import Mathlib.Logic.Relation
import MemoryFlow.Proofs.Graph.Listing

/-! # Lists in lock-step

The blocks of a procedure are listed one by one when its graph is built. From then on, as long as
nothing is put into a list twice or before a phi, the lists and the phi of every block stay in step.
-/

namespace MemoryFlow.Graph

variable {g g' : Graph} {p : Procedure} {o : Oracle} {a x : Access} {b block : Block}
  {l : List Access}

namespace Lockstep

theorem start (config : Config) (flow : FlowGraph) (tree : Tree) (entry : Block) :
    (start config flow tree entry).Lockstep := by
  have none : ∀ b, (Graph.start config flow tree entry).accesses b = [] := by
    simp [accesses, Graph.start]
  have only : ∀ x n, (Graph.start config flow tree entry).outline? x = some n →
      n.isPhi = false := by
    rintro ⟨_ | index⟩ n found
    · cases found
      rfl
    · cases found
  refine ⟨fun b => ⟨⟨[], rfl, by simp⟩, rfl, by simp [none], by simp [none]⟩, fun b x => ?_, ?_, ?_⟩
  · constructor
    · intro held
      simp [phi?, Graph.start] at held
    · rintro ⟨n, found, isPhi, _⟩
      simp [only x n found] at isPhi
  · simp [Graph.start]
  · simp [Graph.start]

end Lockstep

namespace ListedOnce

/-- The accesses created for the instructions of a block so far: they are in no list yet. -/
structure Row (base : Graph) (block : Block) (state : Graph × List Access) : Prop where
  once : state.1.ListedOnce
  lists : state.1.lists = base.lists
  distinct : state.2.Nodup
  loose : ∀ x ∈ state.2, state.1.Loose x
  created : ∀ x ∈ state.2, ∃ n, state.1.outline? x = some n ∧ n.block = block

theorem Row.addInst {base : Graph} {state state' : Graph × List Access} {inst : Inst}
    (row : Row base block state) (ran : addInst p o block state inst = .ok state') :
    Row base block state' := by
  obtain ⟨created, made, same⟩ := bind_eq_ok.mp ran
  split at same
  · cases same
    exact row
  · cases same
    rename_i g' a
    obtain ⟨n, next, _, here, _, _, rfl, rfl⟩ := newAccess?_ok made
    have fresh : state.1.outline? (state.1.addNode n).2 = none := outline?_fresh
    have loose : ∀ x, state.1.Loose x → Loose { (state.1.addNode n).1 with
        nextNumber := next, instAccess :=
          state.1.instAccess.insert inst (state.1.addNode n).2 } x :=
      fun _ loose => loose
    refine ⟨row.once.newAccess? made, row.lists, ?_, fun x member => loose x ?_, fun x member => ?_⟩
    · rw [List.nodup_append]
      refine ⟨row.distinct, by simp, fun x member y single => ?_⟩
      rw [List.mem_singleton.mp single]
      rintro rfl
      obtain ⟨m, found, _⟩ := row.created _ member
      simp [fresh] at found
    · rcases List.mem_append.mp member with early | late
      · exact row.loose x early
      · rw [List.mem_singleton.mp late]
        exact row.once.loose_of_fresh fresh
    · change ∃ m, (state.1.addNode n).1.outline? x = some m ∧ m.block = block
      rw [outline?_addNode]
      split
      · exact ⟨n.outline, rfl, here⟩
      · rename_i other
        exact row.created x ((List.mem_append.mp member).resolve_right fun late =>
          other (List.mem_singleton.mp late))

theorem row (h : g.ListedOnce) {insts : List Inst} {state : Graph × List Access}
    (added : insts.foldlM (addInst p o block) (g, []) = .ok state) : Row g block state :=
  foldlM_keeps (Row g block) added ⟨h, rfl, List.nodup_nil, by simp, by simp⟩ fun _ _ _ row ran =>
    row.addInst ran

end ListedOnce

namespace Lockstep

theorem filled_unless_empty {lists : Std.TreeMap Block (List Access)}
    (filled : ∀ b : Block, lists[b]? ≠ some []) (b : Block) :
    (if l.isEmpty then lists else lists.insert block l)[b]? ≠ some [] := by
  split
  · exact filled b
  · rename_i some'
    exact filled_insert filled (by simpa using some') b

theorem withLists (h : g.Lockstep) (empty : g.accesses block = []) (distinct : l.Nodup)
    (loose : ∀ x ∈ l, g.Loose x) (created : ∀ x ∈ l, ∃ n, g.outline? x = some n ∧ n.block = block) :
    (g.withLists block l (l.filter fun x => (g.node? x).any (·.isDefinition))).Lockstep := by
  have plain : ∀ x ∈ l, g.isPhi x = false := by
    intro x member
    obtain ⟨n, found, _⟩ := created x member
    simpa [Graph.isPhi, found] using h.isPhi_of_loose (loose x member) found
  have defines : l.filter (fun x => (g.node? x).any (·.isDefinition)) = g.defining l := by
    refine List.filter_congr fun x member => ?_
    obtain ⟨n, found, _⟩ := created x member
    obtain ⟨m, found', rfl⟩ := node?_of_outline? found
    have notPhi := isPhi_eq found' ▸ plain x member
    rw [found', found]
    obtain ⟨_, _, role, _⟩ := m
    cases role with
    | definition | use => rfl
    | phi => cases notPhi
  have free : g.phi? block = none := by
    cases held : g.phi? block with
    | none => rfl
    | some phi => simpa [empty] using h.phi_listed held
  have accesses := accesses_withLists empty l (g.defining l)
  have definitions :=
    definitions_withLists (by rw [(h.lists block).definitions, empty]; rfl) l (g.defining l)
  rw [defines]
  refine ⟨fun b => ?_, h.phi, filled_unless_empty h.filled, filled_unless_empty h.filledDefs⟩
  by_cases same : b = block
  · subst same
    have listed : (g.withLists b l (g.defining l)).accesses b = l := by rw [accesses, if_pos rfl]
    refine ⟨⟨l, ?_, plain⟩, ?_, fun x member => created x (by rwa [listed] at member), ?_⟩
    · change _ = (g.phi? b).toList ++ l
      simp [listed, free]
    · rw [definitions, if_pos rfl, listed]
      rfl
    · rwa [listed]
  · refine (h.lists b).congr ?_ ?_ rfl fun _ _ => rfl
    · rw [accesses, if_neg same]
    · rw [definitions, if_neg same]

theorem addRow (h : g.Lockstep) {row : Layout.Row} (empty : g.accesses row.block = [])
    (ran : addRow p o g row = .ok g') :
    g'.Lockstep ∧ ∀ b, b ≠ row.block → g'.accesses b = g.accesses b := by
  rw [addRow_eq] at ran
  obtain ⟨state, added, same⟩ := bind_eq_ok.mp ran
  cases same
  have row' := h.listedOnce.row added
  have lockstep : state.1.Lockstep := by
    refine foldlM_keeps (·.1.Lockstep) added h fun _ _ _ h ran => ?_
    obtain ⟨created, made, same⟩ := bind_eq_ok.mp ran
    split at same
    · cases same
      exact h
    · cases same
      exact h.newAccess? made
  have same : ∀ b, state.1.accesses b = g.accesses b := fun b => by rw [accesses, row'.lists]; rfl
  have empty' : state.1.accesses row.block = [] := (same _).trans empty
  refine ⟨lockstep.withLists empty' row'.distinct row'.loose row'.created, fun b other => ?_⟩
  rw [accesses_withLists empty', if_neg other, same]

theorem addRows (h : g.Lockstep) {rows : List Layout.Row} (distinct : (rows.map (·.block)).Nodup)
    (empty : ∀ row ∈ rows, g.accesses row.block = [])
    (ran : rows.foldlM (Graph.addRow p o) g = .ok g') :
    g'.Lockstep := by
  induction rows generalizing g with
  | nil =>
      cases ran
      exact h
  | cons row rows ih =>
      rw [List.foldlM_cons] at ran
      obtain ⟨mid, added, ran⟩ := bind_eq_ok.mp ran
      obtain ⟨here, later⟩ := List.forall_mem_cons.mp empty
      obtain ⟨fresh, distinct⟩ := List.nodup_cons.mp distinct
      obtain ⟨h', same⟩ := h.addRow here added
      refine ih h' distinct (fun other member => ?_) ran
      rw [same other.block, later other member]
      intro equal
      exact fresh (List.mem_map.mpr ⟨other, member, equal⟩)

end Lockstep

theorem build_lockstep {config : Config} (distinct : p.layout.blocks.Nodup)
    (built : build p o config = .ok g) : g.Lockstep := by
  obtain ⟨tree, entry, base, constructed, finished⟩ := build_ok built
  obtain ⟨filled, rows, ran⟩ := bind_eq_ok.mp constructed
  obtain ⟨merged, phis, ran⟩ := bind_eq_ok.mp ran
  have filled' : filled.Lockstep :=
    (Lockstep.start {} (.ofProcedure p) tree entry).addRows
      (p.layout.map_block_rows.symm ▸ distinct) (fun row _ => by simp [accesses, start]) rows
  have merged' : merged.Lockstep := by
    refine foldlM_keeps Lockstep phis filled' fun g block g' h ran => ?_
    obtain ⟨⟨created, a⟩, made, same⟩ := bind_eq_ok.mp ran
    cases same
    exact h.createPhi made
  have linked : Lockstep { base with config } :=
    (Lockstep.keptByRewiring.linkAll Lockstep.discard merged' ran).of_agrees
      (base.agrees_configured config base.order)
  split at finished
  · exact linked.of_agrees (searched_of_refineUses finished).toAgrees
  · cases finished
    exact linked

/-- Only the lists there are need to be looked at. -/
theorem loose_iff : g.Loose a ↔ ∀ entry ∈ g.lists.toList, a ∉ entry.2 := by
  constructor
  · rintro loose ⟨b, list⟩ member
    have held := Std.TreeMap.mem_toList_iff_getElem?_eq_some.mp member
    have absent := loose b
    rwa [accesses, Std.TreeMap.getD_eq_getD_getElem?, held] at absent
  · intro absent b member
    rw [accesses, Std.TreeMap.getD_eq_getD_getElem?] at member
    cases held : g.lists[b]? with
    | none => simp [held] at member
    | some list =>
        rw [held] at member
        exact absent (b, list) (Std.TreeMap.mem_toList_iff_getElem?_eq_some.mpr held) member

instance (g : Graph) (a : Access) : Decidable (g.Loose a) :=
  decidable_of_iff _ loose_iff.symm

end MemoryFlow.Graph

namespace MemoryFlow

/-- Whether a change puts into lists only what is in none, and nothing directly before a phi. -/
def Edit.Careful (g : Graph) : Edit → Prop
  | .insert a _ _ => g.Loose a
  | .insertBefore a _ before => g.Loose a ∧ before.any g.isPhi = false
  | .moveBefore _ _ before => before.any g.isPhi = false
  | _ => True

instance (g : Graph) (edit : Edit) : Decidable (edit.Careful g) :=
  match edit with
  | .insert a _ _ => inferInstanceAs (Decidable (g.Loose a))
  | .insertBefore a _ before => inferInstanceAs (Decidable (g.Loose a ∧ before.any g.isPhi = false))
  | .moveBefore _ _ before => inferInstanceAs (Decidable (before.any g.isPhi = false))
  | .createPhi _ | .createAccess .. | .move .. | .setDefining .. | .addIncoming .. | .setIncoming ..
  | .replaceAll .. | .discard _ | .remove _ | .renameFrom .. => .isTrue trivial

def Act.Careful (g : Graph) : Act → Prop
  | .change edit => edit.Careful g
  | .ask _ => True

instance (g : Graph) (act : Act) : Decidable (act.Careful g) :=
  match act with
  | .change edit => inferInstanceAs (Decidable (edit.Careful g))
  | .ask _ => .isTrue trivial

namespace Graph

variable {g g' : Graph} {p : Procedure} {o : Oracle}

/-- Whether a graph comes from another by one careful change or a question. -/
def CarefulStep (g g' : Graph) : Prop :=
  ∃ act : Act, act.Careful g ∧ act.apply g = .ok g'

/-- Whether all of some acts are allowed and succeed one after the other, and lead to a graph that
passes a test. -/
def runsWhere (allowed : Graph → Act → Prop) [∀ g act, Decidable (allowed g act)]
    (passes : Graph → Bool) : List Act → Graph → Bool
  | [], g => passes g
  | act :: acts, g =>
      decide (allowed g act) && (act.apply g).toOption.any (runsWhere allowed passes acts)

theorem exists_of_runsWhere {allowed : Graph → Act → Prop} [∀ g act, Decidable (allowed g act)]
    {passes : Graph → Bool} {acts : List Act} (runs : runsWhere allowed passes acts g = true) :
    ∃ g', Relation.ReflTransGen
    (fun g g' => ∃ act : Act, allowed g act ∧ act.apply g = .ok g') g g' ∧
      passes g' = true := by
  induction acts generalizing g with
  | nil => exact ⟨g, .refl, runs⟩
  | cons act acts ih =>
      rw [runsWhere, Bool.and_eq_true, decide_eq_true_eq] at runs
      obtain ⟨mid, ran, rest⟩ := exists_of_any runs.2
      obtain ⟨g', steps, passed⟩ := ih rest
      exact ⟨g', .head ⟨act, runs.1, ran⟩ steps, passed⟩

def runsCarefully (passes : Graph → Bool) : List Act → Graph → Bool :=
  runsWhere (fun g act => act.Careful g) passes

theorem exists_of_runsCarefully {passes : Graph → Bool} {acts : List Act}
    (runs : runsCarefully passes acts g = true) :
    ∃ g', Relation.ReflTransGen CarefulStep g g' ∧ passes g' = true :=
  exists_of_runsWhere runs

namespace Lockstep

theorem keptBesidesListing : KeptBesidesListing Lockstep where
  toKeptByRelinking := keptByRewiring.relinking
  newAccess? := fun h => h.newAccess?
  createPhi := fun h => h.createPhi
  discard := fun h => h.discard

theorem edit (h : g.Lockstep) {edit : Edit} (careful : edit.Careful g)
    (ran : edit.apply g = .ok g') : g'.Lockstep := by
  refine keptBesidesListing.edit h (fun _ _ _ _ ran => keptByRewiring.addIncoming h ran)
    ?_ ?_ ?_ ?_ ran
  · rintro a block place rfl ran
    exact h.insert careful ran
  · rintro a block before rfl ran
    exact h.insertBefore careful.1 careful.2 ran
  · rintro detached a block place rfl ran' ran
    obtain ⟨h', loose, _⟩ := h.detach ran'
    exact h'.insert loose ran
  · rintro detached a block before rfl ran' ran
    obtain ⟨h', loose, kinds⟩ := h.detach ran'
    exact h'.insertBefore loose (kinds ▸ careful) ran

theorem step (h : g.Lockstep) (step : g.CarefulStep g') : g'.Lockstep := by
  obtain ⟨act, careful, ran⟩ := step
  cases act with
  | change edit => exact h.edit careful ran
  | ask inquiry => exact h.of_agrees (agrees_of_inquiry ran)

theorem run (h : g.Lockstep) (steps : Relation.ReflTransGen CarefulStep g g') : g'.Lockstep := by
  induction steps with
  | refl => exact h
  | tail _ step ih => exact ih.step step

end Lockstep

/-- However a built graph is edited, as long as nothing is put into a list twice or directly before
a phi: the definitions of a block are those among its accesses, no list is empty, whatever is listed
is in the graph, in that block and nowhere else, and the phi of a block is the one phi in its list,
at the head. -/
theorem lists_stay_in_lockstep {config : Config} (distinct : p.layout.blocks.Nodup)
    (built : build p o config = .ok g) (steps : Relation.ReflTransGen CarefulStep g g') :
    (∀ b, g'.definitions b = (g'.accesses b).filter fun a => (g'.node? a).any (!·.isUse)) ∧
      (∀ b : Block, g'.lists[b]? ≠ some [] ∧ g'.defLists[b]? ≠ some []) ∧
      (∀ b, ∀ a ∈ g'.accesses b, (∃ n, g'.node? a = some n ∧ n.block = b) ∧
        (g'.accesses b).count a = 1 ∧
        ∀ c, a ∈ g'.accesses c → c = b) ∧
      (∀ b, ∀ a ∈ (g'.accesses b).tail, ∀ n, g'.node? a = some n → n.isPhi = false) ∧
      ∀ b a, g'.phi? b = some a ↔
        (g'.accesses b).head? = some a ∧ ∃ n, g'.node? a = some n ∧ n.isPhi = true := by
  have h := (build_lockstep distinct built).run steps
  refine ⟨fun b => ?_, fun b => ⟨h.filled b, h.filledDefs b⟩, fun b a member => ⟨?_, ?_, ?_⟩,
    fun b a member n found => ?_, fun b a => ?_⟩
  · rw [(h.lists b).definitions, defining]
    exact List.filter_congr fun x _ => by simp [outline?, Option.any_map]
  · obtain ⟨n, found, block⟩ := (h.lists b).placed a member
    obtain ⟨m, found', rfl⟩ := node?_of_outline? found
    exact ⟨m, found', block⟩
  · exact List.count_eq_one_of_mem (h.lists b).distinct member
  · exact fun c member' => h.block_unique member' member
  · rw [← isPhi_eq found]
    exact (h.lists b).isPhi_of_tail member
  · constructor
    · intro held
      obtain ⟨rest, program, _⟩ := (h.lists b).program
      obtain ⟨n, found, isPhi, _⟩ := (h.phi b a).mp held
      obtain ⟨m, found', rfl⟩ := node?_of_outline? found
      exact ⟨by simp [program, held], m, found', by simpa using isPhi⟩
    · rintro ⟨head, n, found, isPhi⟩
      exact (h.lists b).phi?_of_head head (by rw [isPhi_eq found, isPhi])

open Walker in
/-- The store before the loop is made again in its body, and the store of the body moves to its head
behind the phi. Then the new one moves before the old one, and the body has no definition left. -/
def storesMoved : List Act :=
  [.change (.createAccess storeBeforeLoop byAddress ⟨0⟩ ⟨1⟩),
    .change (.insertBefore ⟨5⟩ ⟨2⟩ (some ⟨2⟩)), .change (.move ⟨2⟩ ⟨1⟩ .beginning),
    .change (.createPhi ⟨3⟩), .ask (.dominates ⟨4⟩ ⟨2⟩),
    .change (.moveBefore ⟨5⟩ ⟨0⟩ (some ⟨1⟩))]

open Walker in
theorem lists_stay_in_lockstep_storesMoved :
    storeBeforeLoop.layout.blocks.Nodup ∧ ∃ g g', build storeBeforeLoop byAddress {} = .ok g ∧
      Relation.ReflTransGen CarefulStep g g' ∧
      (g'.accesses ⟨0⟩ = [⟨5⟩, ⟨1⟩] ∧ g'.accesses ⟨1⟩ = [⟨4⟩, ⟨2⟩] ∧ g'.accesses ⟨2⟩ = [] ∧
        g'.accesses ⟨3⟩ = [⟨6⟩, ⟨3⟩]) ∧
      (∀ b, g'.definitions b = (g'.accesses b).filter fun a => (g'.node? a).any (!·.isUse)) ∧
      (∀ b : Block, g'.lists[b]? ≠ some [] ∧ g'.defLists[b]? ≠ some []) ∧
      (∀ b, ∀ a ∈ g'.accesses b, (∃ n, g'.node? a = some n ∧ n.block = b) ∧
        (g'.accesses b).count a = 1 ∧
        ∀ c, a ∈ g'.accesses c → c = b) ∧
      (∀ b, ∀ a ∈ (g'.accesses b).tail, ∀ n, g'.node? a = some n → n.isPhi = false) ∧
      ∀ b a, g'.phi? b = some a ↔
        (g'.accesses b).head? = some a ∧ ∃ n, g'.node? a = some n ∧ n.isPhi = true := by
  obtain ⟨g, built, runs⟩ := exists_of_any (x := build storeBeforeLoop byAddress {})
    (P := runsCarefully (fun g' => g'.accesses ⟨0⟩ = [⟨5⟩, ⟨1⟩] ∧ g'.accesses ⟨1⟩ = [⟨4⟩, ⟨2⟩] ∧
      g'.accesses ⟨2⟩ = [] ∧ g'.accesses ⟨3⟩ = [⟨6⟩, ⟨3⟩]) storesMoved) (by decide +kernel)
  obtain ⟨g', steps, lists⟩ := exists_of_runsCarefully runs
  exact ⟨by decide, g, g', built, steps, of_decide_eq_true lists,
    lists_stay_in_lockstep (by decide) built steps⟩

end Graph

end MemoryFlow
