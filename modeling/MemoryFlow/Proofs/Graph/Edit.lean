import MemoryFlow.Proofs.Clobber.Walker
import MemoryFlow.Proofs.Graph.Check

/-! # Editing a graph

Whoever transforms a procedure keeps its memory graph in step by edits, and asks it questions in
between. Whatever is edited and asked, in whatever order, every reference stays known at both ends.
-/

namespace MemoryFlow

/-- A change to a graph. An access is created for an instruction of the procedure as it is at the
time. -/
inductive Edit where
  | createPhi (block : Block)
  | createAccess (p : Procedure) (o : Oracle) (inst : Inst) (definition : Access)
  | insert (a : Access) (block : Block) (place : Place)
  | insertBefore (a : Access) (block : Block) (before : Option Access)
  | move (a : Access) (block : Block) (place : Place)
  | moveBefore (a : Access) (block : Block) (before : Option Access)
  | setDefining (a definition : Access)
  | addIncoming (phi : Access) (pred : Block) (value : Access)
  | setIncoming (phi : Access) (edge : Nat) (value : Access)
  | replaceAll (old new : Access)
  | discard (a : Access)
  | remove (a : Access)
  | renameFrom (root : Block) (holding : Access) (visited : List Block)

def Edit.apply (g : Graph) : Edit → Except Fault Graph
  | .createPhi block => do return (← g.createPhi block).1
  | .createAccess p o inst definition => do return (← g.createAccess p o inst definition).1
  | .insert a block place => g.insert a block place
  | .insertBefore a block before => g.insertBefore a block before
  | .move a block place => g.move a block place
  | .moveBefore a block before => g.moveBefore a block before
  | .setDefining a definition => g.setDefining a definition
  | .addIncoming phi pred value => g.addIncoming phi pred value
  | .setIncoming phi edge value => g.setIncoming phi edge value
  | .replaceAll old new => g.replaceAll old new
  | .discard a => g.discard a
  | .remove a => g.remove a
  | .renameFrom root holding visited =>
      do return (← g.renameFrom root holding (.ofList visited)).graph

/-- A question to a graph that may leave something cached or settled in it. -/
inductive Inquiry where
  | clobberOf (p : Procedure) (o : Oracle) (a : Access)
  | clobberAt (p : Procedure) (o : Oracle) (a : Access) (loc : Location)
  | forget (a : Access)
  | locallyDominates (a b : Access)
  | dominates (a b : Access)
  | dominatesUse (a user : Access)
  | check (p : Procedure)

def Inquiry.apply (g : Graph) : Inquiry → Except Fault Graph
  | .clobberOf p o a => do return (← g.clobberOf p o a).2.2
  | .clobberAt p o a loc => do return (← g.clobberAt p o a loc).2.2
  | .forget a => g.forget a
  | .locallyDominates a b => do return (← g.ask (g.locallyDominates a b)).2
  | .dominates a b => do return (← g.ask (g.dominates a b)).2
  | .dominatesUse a user => do return (← g.ask (g.dominatesUse a user)).2
  | .check p => do return (← g.ask (g.check? p)).2

inductive Act where
  | change (e : Edit)
  | ask (i : Inquiry)

def Act.apply (g : Graph) : Act → Except Fault Graph
  | .change e => e.apply g
  | .ask i => i.apply g

namespace Graph

variable {g g' : Graph} {p : Procedure} {o : Oracle}

/-- No question changes anything but what is cached, and what is settled only by settling more. -/
theorem searched_of_inquiry {inquiry : Inquiry} (ran : inquiry.apply g = .ok g') :
    g.Searched g' := by
  have asked : ∀ {α : Type} {question : Ordered α}, g.Settles question →
      (do return (← g.ask question).2) = .ok g' → g.Searched g' := by
    intro α question settles ran
    obtain ⟨⟨answer, asked⟩, answered, same⟩ := bind_eq_ok.mp ran
    cases same
    exact searched_of_ask settles answered
  cases inquiry with
  | clobberOf p o a =>
      obtain ⟨⟨c, effort, asked⟩, answered, same⟩ := bind_eq_ok.mp ran
      cases same
      exact searched_of_clobberOf answered
  | clobberAt p o a loc =>
      obtain ⟨⟨c, effort, asked⟩, answered, same⟩ := bind_eq_ok.mp ran
      cases same
      exact searched_of_clobberAt answered
  | forget a => exact ⟨agrees_of_forget ran, order_of_forget ran ▸ .refl⟩
  | locallyDominates a b => exact asked (.locallyDominates a b) ran
  | dominates a b => exact asked (.dominates a b) ran
  | dominatesUse a user => exact asked (.dominatesUse a user) ran
  | check p => exact asked (.check? p) ran

theorem agrees_of_inquiry {inquiry : Inquiry} (ran : inquiry.apply g = .ok g') : g.Agrees g' :=
  (searched_of_inquiry ran).toAgrees

/-- What survives all steps but new edges and putting into lists survives a change, as long as it
survives the step of that kind that the change is to make. -/
theorem KeptBesidesListing.edit {P : Graph → Prop} (kept : KeptBesidesListing P) (holds : P g)
    {edit : Edit} (added : ∀ phi pred value, edit = .addIncoming phi pred value →
      g.addIncoming phi pred value = .ok g' → P g')
    (put : ∀ a block place, edit = .insert a block place → g.insert a block place = .ok g' → P g')
    (putBefore : ∀ a block before, edit = .insertBefore a block before →
      g.insertBefore a block before = .ok g' → P g')
    (moved : ∀ detached a block place, edit = .move a block place → g.detach a = .ok detached →
      detached.insert a block place = .ok g' → P g')
    (movedBefore : ∀ detached a block before, edit = .moveBefore a block before →
      g.detach a = .ok detached →
      detached.insertBefore a block before = .ok g' → P g')
    (ran : edit.apply g = .ok g') : P g' := by
  cases edit with
  | createPhi block =>
      obtain ⟨⟨created, a⟩, made, same⟩ := bind_eq_ok.mp ran
      cases same
      exact kept.createPhi holds made
  | createAccess p o inst definition =>
      obtain ⟨⟨created, a⟩, made, same⟩ := bind_eq_ok.mp ran
      cases same
      exact kept.createAccess holds made
  | insert a block place => exact put a block place rfl ran
  | insertBefore a block before => exact putBefore a block before rfl ran
  | move a block place =>
      obtain ⟨detached, ran', ran⟩ := bind_eq_ok.mp ran
      exact moved detached a block place rfl ran' ran
  | moveBefore a block before =>
      obtain ⟨detached, ran', ran⟩ := bind_eq_ok.mp ran
      exact movedBefore detached a block before rfl ran' ran
  | setDefining a definition => exact kept.setDefining holds ran
  | addIncoming phi pred value => exact added phi pred value rfl ran
  | setIncoming phi edge value => exact kept.setIncoming holds ran
  | replaceAll old new => exact kept.replaceAll holds ran
  | discard a => exact kept.discard holds ran
  | remove a => exact kept.remove holds ran
  | renameFrom root holding visited =>
      obtain ⟨r, renamed, same⟩ := bind_eq_ok.mp ran
      cases same
      refine kept.run (r := ⟨g, _⟩) (fun first => ?_) holds renamed
      cases first

/-- What survives all steps but new edges and moves survives a change, as long as it survives the
edge or the move if the change is to make one. -/
theorem KeptInPlace.edit {P : Graph → Prop} (kept : KeptInPlace P) (holds : P g) {edit : Edit}
    (added : ∀ phi pred value, edit = .addIncoming phi pred value →
      g.addIncoming phi pred value = .ok g' → P g')
    (moved : ∀ detached a, g.detach a = .ok detached →
      (∃ block place, detached.insert a block place = .ok g') ∨
      (∃ block before, detached.insertBefore a block before = .ok g') → P g')
    (ran : edit.apply g = .ok g') : P g' := by
  refine kept.toKeptBesidesListing.edit holds added (fun _ _ _ _ => kept.insert holds)
    (fun _ _ _ _ => kept.insertBefore holds) ?_ ?_ ran
  · exact fun detached a block place _ ran' ran => moved detached a ran' (.inl ⟨block, place, ran⟩)
  · exact fun detached a block before _ ran' ran =>
      moved detached a ran' (.inr ⟨block, before, ran⟩)

/-- What survives all steps but new edges survives a change, as long as it survives the edge if the
change is to make one. -/
theorem KeptBesidesAdding.edit {P : Graph → Prop} (kept : KeptBesidesAdding P) (holds : P g)
    {edit : Edit} (added : ∀ phi pred value, edit = .addIncoming phi pred value →
      g.addIncoming phi pred value = .ok g' → P g') (ran : edit.apply g = .ok g') : P g' := by
  refine kept.toKeptInPlace.edit holds added (fun detached a ran' put => ?_) ran
  rcases put with ⟨block, place, ran⟩ | ⟨block, before, ran⟩
  · exact kept.insert (kept.detach holds ran') ran
  · exact kept.insertBefore (kept.detach holds ran') ran

theorem KeptByEditing.edit {P : Graph → Prop} (kept : KeptByEditing P) (holds : P g) {edit : Edit}
    (ran : edit.apply g = .ok g') : P g' :=
  kept.besidesAdding.edit holds (fun _ _ _ _ => kept.addIncoming holds) ran

theorem Exact.act (exact : g.Exact) {act : Act} (ran : act.apply g = .ok g') : g'.Exact := by
  cases act with
  | change e => exact Exact.keptByEditing.edit exact ran
  | ask i => exact exact.of_agrees (agrees_of_inquiry ran)

/-- After any edits and questions to a built graph, an access stands among the users of another as
often as it refers to it, whatever is referred to or uses something is in the graph, and nothing
refers to a use. -/
theorem edits_keep_references_exact {config : Config} {acts : List Act}
    (built : build p o config = .ok g) (ran : acts.foldlM Act.apply g = .ok g') :
    (∀ d u n m, g'.node? d = some n → g'.node? u = some m → n.users.count u = m.operands.count d) ∧
      ∀ a n, g'.node? a = some n →
        (∀ d ∈ n.operands, ∃ m, g'.node? d = some m ∧ m.isUse = false) ∧
        ∀ u ∈ n.users, ∃ m, g'.node? u = some m := by
  have exact : g'.Exact :=
    foldlM_keeps Exact ran (build_exact built) fun _ _ _ exact ran => exact.act ran
  refine ⟨fun d u n m foundD foundU => ?_, fun a n found => ⟨fun d refers => ?_, fun u uses => ?_⟩⟩
  · rw [← usersOf_eq foundD, ← operandsOf_eq foundU]
    exact exact.count d u
  · obtain ⟨m, foundD, notUse, _⟩ := exact.operand (u := a) (by rwa [operandsOf_eq found])
    exact ⟨m, foundD, notUse⟩
  · obtain ⟨m, foundU, _⟩ := exact.user (d := a) (by rwa [usersOf_eq found])
    exact ⟨m, foundU⟩

open Walker in
/-- A phi at the head of the loop's body takes the place of its store, and the store before the loop
goes. -/
def emptyLoop : List Act :=
  [.ask (.clobberOf storeBeforeLoop byAddress ⟨3⟩), .change (.createPhi ⟨2⟩),
    .change (.addIncoming ⟨5⟩ ⟨1⟩ ⟨4⟩), .change (.renameFrom ⟨1⟩ ⟨1⟩ []), .change (.remove ⟨2⟩),
    .change (.replaceAll ⟨1⟩ .liveOnEntry), .change (.discard ⟨1⟩)]

open Walker in
theorem edits_keep_references_exact_emptyLoop :
    ∃ g g', build storeBeforeLoop byAddress {} = .ok g ∧ emptyLoop.foldlM Act.apply g = .ok g' ∧
      g'.node? ⟨4⟩ = some ⟨3, ⟨1⟩, .phi [(⟨0⟩, .liveOnEntry), (⟨2⟩, ⟨5⟩)], [⟨5⟩, ⟨3⟩]⟩ ∧
      (∀ d u n m, g'.node? d = some n → g'.node? u = some m →
        n.users.count u = m.operands.count d) ∧
        ∀ a n, g'.node? a = some n →
          (∀ d ∈ n.operands, ∃ m, g'.node? d = some m ∧ m.isUse = false) ∧
          ∀ u ∈ n.users, ∃ m, g'.node? u = some m := by
  obtain ⟨g, built, edited⟩ := exists_of_any (x := build storeBeforeLoop byAddress {})
    (P := fun g => (emptyLoop.foldlM Act.apply g).toOption.any fun g' => g'.node? ⟨4⟩ ==
      some ⟨3, ⟨1⟩, .phi [(⟨0⟩, .liveOnEntry), (⟨2⟩, ⟨5⟩)], [⟨5⟩, ⟨3⟩]⟩) (by decide +kernel)
  obtain ⟨g', ran, phi⟩ := exists_of_any edited
  exact ⟨g, g', built, ran, eq_of_beq phi, edits_keep_references_exact built ran⟩

end Graph

end MemoryFlow
