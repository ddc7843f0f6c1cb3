import MemoryFlow.Proofs.Graph.Build
import MemoryFlow.Proofs.Graph.Update

/-! # Changing a graph step by step

Replacing an access, renaming part of a graph and linking a whole one come down to changing one
reference after the other, and every change comes down to a few more kinds of step. What survives
each single step survives all of them.
-/

namespace MemoryFlow

namespace Graph

/-- Whether a property of graphs survives every change of the other end of a reference. -/
structure KeptByRelinking (P : Graph → Prop) : Prop where
  setDefining : ∀ {g g' : Graph} {a definition : Access},
    P g → g.setDefining a definition = .ok g' → P g'
  setIncoming : ∀ {g g' : Graph} {phi value : Access} {edge : Nat},
    P g → g.setIncoming phi edge value = .ok g' → P g'

def KeptByAdding (P : Graph → Prop) : Prop :=
  ∀ g g' phi pred value, P g → g.addIncoming phi pred value = .ok g' → P g'

structure KeptByRewiring (P : Graph → Prop) : Prop where
  setDefining : ∀ {g g' : Graph} {a definition : Access},
    P g → g.setDefining a definition = .ok g' → P g'
  addIncoming : ∀ {g g' : Graph} {phi value : Access} {pred : Block},
    P g → g.addIncoming phi pred value = .ok g' → P g'
  setIncoming : ∀ {g g' : Graph} {phi value : Access} {edge : Nat},
    P g → g.setIncoming phi edge value = .ok g' → P g'

variable {P : Graph → Prop} {g g' : Graph}

namespace KeptByRelinking

theorem setIncomingFrom (kept : KeptByRelinking P) {phi value : Access} {pred : Block}
    {replaced : Bool} (holds : P g) (ran : g.setIncomingFrom phi pred value = .ok (replaced, g')) :
    P g' := by
  obtain ⟨n, _, ran⟩ := bind_eq_ok.mp ran
  obtain ⟨set, ran, same⟩ := bind_eq_ok.mp ran
  cases same
  exact foldlM_keeps P ran holds fun _ _ _ => kept.setIncoming

theorem redirect (kept : KeptByRelinking P) {old new user : Access} (holds : P g)
    (ran : redirect old new g user = .ok g') : P g' := by
  obtain ⟨n, _, ran⟩ := bind_eq_ok.mp ran
  split at ran
  · exact foldlM_keeps P ran holds fun _ _ _ => kept.setIncoming
  · exact kept.setDefining holds ran

theorem replaceAll (kept : KeptByRelinking P) {old new : Access} (holds : P g)
    (ran : g.replaceAll old new = .ok g') : P g' := by
  obtain ⟨n, _, ran⟩ := bind_eq_ok.mp ran
  by_cases isUse : n.isUse
  · rw [if_pos isUse] at ran
    cases ran
  · rw [if_neg isUse] at ran
    split at ran
    · cases ran
      exact holds
    · obtain ⟨m, _, ran⟩ := bind_eq_ok.mp ran
      exact foldlM_keeps P ran holds fun _ _ _ => kept.redirect

theorem renameAccess (kept : KeptByRelinking P) {pass : Pass} {state state' : Graph × Access}
    {a : Access} (holds : P state.1) (ran : renameAccess pass state a = .ok state') :
    P state'.1 := by
  obtain ⟨n, _, ran⟩ := bind_eq_ok.mp ran
  by_cases isPhi : n.isPhi
  · rw [if_pos isPhi] at ran
    cases ran
    exact holds
  · rw [if_neg isPhi] at ran
    dsimp only at ran
    split at ran
    · obtain ⟨linked, ran', same⟩ := bind_eq_ok.mp ran
      cases same
      exact kept.setDefining holds ran'
    · cases ran
      exact holds

/-- Only the first pass makes new edges. -/
theorem renameEdge (kept : KeptByRelinking P) {pass : Pass} {block succ : Block} {holding : Access}
    (added : pass = .first → KeptByAdding P) (holds : P g)
    (ran : renameEdge pass block holding g succ = .ok g') : P g' := by
  rw [Graph.renameEdge] at ran
  split at ran
  · cases ran
    exact holds
  · cases pass with
    | first => exact added rfl _ _ _ _ _ holds ran
    | again =>
        obtain ⟨⟨replaced, set⟩, ran', same⟩ := bind_eq_ok.mp ran
        dsimp only at same
        split at same
        · cases same
          exact kept.setIncomingFrom holds ran'
        · cases same

theorem enter (kept : KeptByRelinking P) {pass : Pass} {block : Block} {holding : Access}
    {r : Renaming} {out : Renaming × Access} (added : pass = .first → KeptByAdding P)
    (holds : P r.graph) (ran : r.enter pass block holding = .ok out) : P out.1.graph := by
  have leave : ∀ {g : Graph} {holding : Access}, P g → (do
      let g ← (g.flow.succs block).foldlM (Graph.renameEdge pass block holding) g
      return ((⟨g, r.visited.insert block⟩ : Renaming), holding)) = .ok out → P out.1.graph := by
    intro g holding holds ran
    obtain ⟨left, ran', same⟩ := bind_eq_ok.mp ran
    cases same
    exact foldlM_keeps P ran' holds fun _ _ _ => kept.renameEdge added
  rw [Renaming.enter] at ran
  dsimp only at ran
  split at ran
  · exact leave holds ran
  · obtain ⟨⟨g, holding⟩, ran', ran⟩ := bind_eq_ok.mp ran
    exact leave (foldlM_keeps (fun state => P state.1) ran' holds fun _ _ _ => kept.renameAccess)
      ran

theorem descend (kept : KeptByRelinking P) {pass : Pass} {t : Tree} {fuel : Nat} {r r' : Renaming}
    {stack : List Renaming.Frame} (added : pass = .first → KeptByAdding P) (holds : P r.graph)
    (ran : Renaming.descend pass t fuel stack r = .ok r') : P r'.graph := by
  induction fuel generalizing r stack with
  | zero =>
      cases ran
      exact holds
  | succ fuel ih =>
      cases stack with
      | nil =>
          cases ran
          exact holds
      | cons top stack =>
          rw [Renaming.descend] at ran
          dsimp only at ran
          split at ran
          · exact ih holds ran
          · split at ran
            · exact ih holds ran
            · obtain ⟨⟨r'', holding⟩, entered, ran⟩ := bind_eq_ok.mp ran
              exact ih (kept.enter added holds entered) ran

theorem run (kept : KeptByRelinking P) {pass : Pass} {root : Block} {holding : Access}
    {r r' : Renaming} (added : pass = .first → KeptByAdding P) (holds : P r.graph)
    (ran : r.run pass root holding = .ok r') : P r'.graph := by
  rw [Renaming.run] at ran
  split at ran
  · cases ran
    exact holds
  · split at ran
    · cases ran
      exact holds
    · obtain ⟨⟨r'', holding⟩, entered, ran⟩ := bind_eq_ok.mp ran
      exact kept.descend added (kept.enter added holds entered) ran

end KeptByRelinking

namespace KeptByRewiring

theorem relinking (kept : KeptByRewiring P) : KeptByRelinking P :=
  ⟨kept.setDefining, kept.setIncoming⟩

theorem replaceAll (kept : KeptByRewiring P) {old new : Access} (holds : P g)
    (ran : g.replaceAll old new = .ok g') : P g' :=
  kept.relinking.replaceAll holds ran

theorem run (kept : KeptByRewiring P) {pass : Pass} {root : Block} {holding : Access}
    {r r' : Renaming} (holds : P r.graph) (ran : r.run pass root holding = .ok r') : P r'.graph :=
  kept.relinking.run (fun _ _ _ _ _ _ => kept.addIncoming) holds ran

theorem linkAll (kept : KeptByRewiring P)
    (discard : ∀ {g g' : Graph} {a : Access}, P g → g.discard a = .ok g' → P g') (holds : P g)
    (ran : g.linkAll = .ok g') : P g' := by
  have addEntryEdge : ∀ {block} (g succ g'), P g → Graph.addEntryEdge block g succ = .ok g' →
      P g' := by
    intro block g succ g' holds ran
    rw [Graph.addEntryEdge] at ran
    split at ran
    · cases ran
      exact holds
    · split at ran
      · cases ran
        exact holds
      · obtain ⟨n, _, ran⟩ := bind_eq_ok.mp ran
        split at ran
        · cases ran
          exact holds
        · exact kept.addIncoming holds ran
  have linkToEntry : ∀ g a g', P g → Graph.linkToEntry g a = .ok g' → P g' := by
    intro g a g' holds ran
    obtain ⟨n, _, ran⟩ := bind_eq_ok.mp ran
    split at ran
    · obtain ⟨replaced, ran', ran⟩ := bind_eq_ok.mp ran
      exact discard (kept.replaceAll holds ran') ran
    · exact kept.setDefining holds ran
  have linkUnreachable : ∀ g block g', P g → Graph.linkUnreachable g block = .ok g' → P g' := by
    intro g block g' holds ran
    rw [Graph.linkUnreachable] at ran
    split at ran
    · cases ran
    · obtain ⟨joined, ran', ran⟩ := bind_eq_ok.mp ran
      exact foldlM_keeps P ran (foldlM_keeps P ran' holds addEntryEdge) linkToEntry
  rw [Graph.linkAll] at ran
  split at ran
  · exact foldlM_keeps P ran holds linkUnreachable
  · obtain ⟨renamed, ran', ran⟩ := bind_eq_ok.mp ran
    exact foldlM_keeps P ran (kept.run holds ran') linkUnreachable

/-- What also survives the creation and removal of accesses, and does not depend on the lists,
survives construction. -/
theorem construct (kept : KeptByRewiring P) {p : Procedure} {o : Oracle} {flow : FlowGraph}
    {tree : Tree} {entry : Block}
    (discard : ∀ {g g' : Graph} {a : Access}, P g → g.discard a = .ok g' → P g')
    (newAccess? : ∀ {g g' : Graph} {inst : Inst} {block : Block} {a : Access},
      P g → g.newAccess? p o inst block = .ok (some (g', a)) → P g')
    (createPhi : ∀ {g g' : Graph} {block : Block} {a : Access}, P g →
      g.createPhi block = .ok (g', a) → P g')
    (listed : ∀ {g : Graph} lists defLists, P g → P { g with lists, defLists })
    (first : P (start {} flow tree entry))
    (ran : Graph.construct p o flow tree entry = .ok g) : P g := by
  have addRow : ∀ g row g', P g → Graph.addRow p o g row = .ok g' → P g' := by
    intro g row g' holds ran
    rw [addRow_eq] at ran
    obtain ⟨state, added, same⟩ := bind_eq_ok.mp ran
    cases same
    apply listed
    refine foldlM_keeps (fun state => P state.1) added holds fun state inst state' holds ran => ?_
    obtain ⟨created, made, same⟩ := bind_eq_ok.mp ran
    split at same
    · cases same
      exact holds
    · cases same
      exact newAccess? holds made
  obtain ⟨filled, rows, ran⟩ := bind_eq_ok.mp ran
  obtain ⟨merged, phis, ran⟩ := bind_eq_ok.mp ran
  refine kept.linkAll discard (foldlM_keeps P phis (foldlM_keeps P rows first addRow) ?_) ran
  intro g block g' holds ran
  obtain ⟨⟨created, a⟩, made, same⟩ := bind_eq_ok.mp ran
  cases same
  exact createPhi holds made

end KeptByRewiring

/-- Whether a property of graphs survives every step that changes are made of, but for new edges and
for putting an access into a list. -/
structure KeptBesidesListing (P : Graph → Prop) : Prop extends KeptByRelinking P where
  newAccess? : ∀ {g g' : Graph} {p : Procedure} {o : Oracle} {inst : Inst} {block : Block}
    {a : Access}, P g → g.newAccess? p o inst block = .ok (some (g', a)) → P g'
  createPhi : ∀ {g g' : Graph} {block : Block} {a : Access}, P g →
    g.createPhi block = .ok (g', a) → P g'
  discard : ∀ {g g' : Graph} {a : Access}, P g → g.discard a = .ok g' → P g'

namespace KeptBesidesListing

theorem createAccess (kept : KeptBesidesListing P) {p : Procedure} {o : Oracle} {inst : Inst}
    {a d : Access} (holds : P g) (ran : g.createAccess p o inst d = .ok (g', a)) : P g' := by
  obtain ⟨block, created, _, made, ran⟩ := createAccess_ok ran
  exact kept.setDefining (kept.newAccess? holds made) ran

theorem remove (kept : KeptBesidesListing P) {a : Access} (holds : P g)
    (ran : g.remove a = .ok g') : P g' := by
  obtain ran | ⟨replacement, replaced, ran', ran⟩ := remove_ok ran
  · exact kept.discard holds ran
  · exact kept.discard (kept.replaceAll holds ran') ran

end KeptBesidesListing

/-- Whether a property of graphs survives every step that changes are made of, but for new edges and
for taking an access out of its lists to put it elsewhere. -/
structure KeptInPlace (P : Graph → Prop) : Prop extends KeptBesidesListing P where
  insert : ∀ {g g' : Graph} {a : Access} {block : Block} {place : Place},
    P g → g.insert a block place = .ok g' → P g'
  insertBefore : ∀ {g g' : Graph} {a : Access} {block : Block} {before : Option Access},
    P g → g.insertBefore a block before = .ok g' → P g'

/-- Whether a property of graphs survives every step that changes are made of, but for new edges. -/
structure KeptBesidesAdding (P : Graph → Prop) : Prop extends KeptInPlace P where
  detach : ∀ {g g' : Graph} {a : Access}, P g → g.detach a = .ok g' → P g'

structure KeptByEditing (P : Graph → Prop) : Prop extends KeptByRewiring P where
  newAccess? :
    ∀ {g g' : Graph} {p : Procedure} {o : Oracle} {inst : Inst} {block : Block} {a : Access},
    P g → g.newAccess? p o inst block = .ok (some (g', a)) → P g'
  createPhi : ∀ {g g' : Graph} {block : Block} {a : Access}, P g →
    g.createPhi block = .ok (g', a) → P g'
  insert : ∀ {g g' : Graph} {a : Access} {block : Block} {place : Place},
    P g → g.insert a block place = .ok g' → P g'
  insertBefore : ∀ {g g' : Graph} {a : Access} {block : Block} {before : Option Access},
    P g → g.insertBefore a block before = .ok g' → P g'
  detach : ∀ {g g' : Graph} {a : Access}, P g → g.detach a = .ok g' → P g'
  discard : ∀ {g g' : Graph} {a : Access}, P g → g.discard a = .ok g' → P g'

namespace KeptByEditing

theorem besidesAdding (kept : KeptByEditing P) : KeptBesidesAdding P where
  toKeptByRelinking := kept.relinking
  newAccess? := kept.newAccess?
  createPhi := kept.createPhi
  insert := kept.insert
  insertBefore := kept.insertBefore
  detach := kept.detach
  discard := kept.discard

theorem remove (kept : KeptByEditing P) {a : Access} (holds : P g)
    (ran : g.remove a = .ok g') : P g' :=
  kept.besidesAdding.remove holds ran

/-- What does not depend on the lists either survives construction. -/
theorem construct (kept : KeptByEditing P) {p : Procedure} {o : Oracle} {flow : FlowGraph}
    {tree : Tree} {entry : Block}
    (listed : ∀ {g : Graph} lists defLists, P g → P { g with lists, defLists })
    (first : P (start {} flow tree entry))
    (ran : Graph.construct p o flow tree entry = .ok g) : P g :=
  kept.toKeptByRewiring.construct kept.discard kept.newAccess? kept.createPhi listed first ran

end KeptByEditing

end Graph

end MemoryFlow
