import MemoryFlow.Proofs.Dominance.Frontier
import MemoryFlow.Proofs.Graph.Reference
import MemoryFlow.Proofs.Procedure.Accepted

/-! # The shape of a memory graph

The shape of a graph is what stays when its accesses are linked: which accesses there are, of which
kind each is, in which block and for which instruction, and how the blocks list them.
`Graph.Arranged` says that the lists follow the procedure, and `Graph.Shaped` also where the phis of
a graph built for it are.
-/

namespace MemoryFlow

namespace Graph

variable {g g' : Graph} {p : Procedure} {entry b : Block} {a : Access} {n : Node}

def outline? (g : Graph) (a : Access) : Option Node :=
  (g.node? a).map Node.outline

theorem outline?_eq (found : g.node? a = some n) : g.outline? a = some n.outline := by
  rw [outline?, found]
  rfl

theorem node?_of_outline? (found : g.outline? a = some n) :
    ∃ m, g.node? a = some m ∧ m.outline = n :=
  Option.map_eq_some_iff.mp found

theorem not_phi_of_definition {m : Node} (found : g.node? a = some n)
    (isDefinition : n.isDefinition = true) (found' : g.node? a = some m) (isPhi : m.isPhi = true) :
    False := by
  obtain rfl := Option.some.inj (found.symm.trans found')
  rw [n.isPhi_of_isDefinition isDefinition] at isPhi
  cases isPhi

theorem ne_next (found : g.outline? a = some n) : a ≠ ⟨g.nodes.size⟩ := by
  rintro rfl
  obtain ⟨m, known, _⟩ := node?_of_outline? found
  exact absurd (lt_of_node? known) (Nat.lt_irrefl _)

def DefinesIn (g : Graph) (b : Block) : Prop :=
  ∃ a n inst, g.outline? a = some n ∧ n.isDefinition = true ∧ n.inst? = some inst ∧ n.block = b

/-- Whether the accesses of a graph follow a procedure. -/
structure Arranged (p : Procedure) (entry : Block) (g : Graph) : Prop where
  orderly : p.Orderly
  flow : g.flow = .ofProcedure p
  tree : g.tree.Sound g.flow entry
  entryNode : g.outline? .liveOnEntry =
    some { number := 0, block := entry, role := .definition none {} }
  /-- The list of a block is its phi and the accesses of its instructions. -/
  program : ∀ b, g.accesses b = (g.phi? b).toList ++ (p.layout.insts b).filterMap g.access?
  definitions : ∀ b, g.definitions b = (g.accesses b).filter fun a => (g.outline? a).any (!·.isUse)
  access : ∀ inst a, g.access? inst = some a ↔ ∃ n, g.outline? a = some n ∧ n.inst? = some inst
  phi : ∀ b a, g.phi? b = some a ↔ ∃ n, g.outline? a = some n ∧ n.isPhi = true ∧ n.block = b
  placed : ∀ a n inst, g.outline? a = some n → n.inst? = some inst → inst ∈ p.layout.insts n.block
  only : ∀ a n, g.outline? a = some n → n.inst? = none → n.isPhi = true ∨ a = .liveOnEntry
  /-- A block with a phi is entered from a block that can be reached. -/
  joins : ∀ b, (g.phi? b).isSome = true → ∃ pred, Reaches g.flow.Edge entry pred ∧
    g.flow.Edge pred b

structure Shaped (p : Procedure) (entry : Block) (g : Graph) : Prop extends g.Arranged p entry where
  /-- There is a phi where definitions may flow together, unless the block itself defines memory. -/
  merges : ∀ b, (g.phi? b).isSome = true ↔
    g.flow.IteratedFrontier entry g.DefinesIn b ∧ ¬g.DefinesIn b

/-- The definitions and phis among some accesses. -/
def defining (g : Graph) (accesses : List Access) : List Access :=
  accesses.filter fun a => (g.outline? a).any (!·.isUse)

namespace Arranged

variable (h : g.Arranged p entry)
include h

/-- The shape is all that is left when links, caches and users change. -/
theorem transfer (tree : g'.tree = g.tree) (flow : g'.flow = g.flow) (lists : g'.lists = g.lists)
    (defLists : g'.defLists = g.defLists) (instAccess : g'.instAccess = g.instAccess)
    (blockPhi : g'.blockPhi = g.blockPhi) (outline : ∀ x, g'.outline? x = g.outline? x) :
    g'.Arranged p entry := by
  have accesses : ∀ b, g'.accesses b = g.accesses b := fun b => by rw [accesses, lists]; rfl
  have definitions : ∀ b, g'.definitions b = g.definitions b := fun b => by
    rw [Graph.definitions, defLists]; rfl
  have access? : ∀ inst, g'.access? inst = g.access? inst := fun inst => by
    rw [Graph.access?, instAccess]; rfl
  have phi? : ∀ b, g'.phi? b = g.phi? b := fun b => by rw [Graph.phi?, blockPhi]; rfl
  exact {
    orderly := h.orderly
    flow := flow.trans h.flow
    tree := by rw [tree, flow]; exact h.tree
    entryNode := by rw [outline]; exact h.entryNode
    program := by simpa only [accesses, phi?, funext access?] using h.program
    definitions := by simpa only [definitions, accesses, outline] using h.definitions
    access := by simpa only [access?, outline] using h.access
    phi := by simpa only [phi?, outline] using h.phi
    placed := by simpa only [outline] using h.placed
    only := by simpa only [outline] using h.only
    joins := by simpa only [phi?, flow] using h.joins }

theorem definitions_eq (b : Block) : g.definitions b = g.defining (g.accesses b) :=
  h.definitions b

theorem ne_liveOnEntry (found : g.outline? a = some n) (other : n.isPhi = true ∨ n.inst? ≠ none) :
    a ≠ .liveOnEntry := by
  rintro rfl
  obtain rfl := Option.some.inj (h.entryNode.symm.trans found)
  rcases other with isPhi | hasInst
  · cases isPhi
  · exact hasInst rfl

theorem phi?_eq_some :
    g.phi? b = some a ↔ ∃ n, g.node? a = some n ∧ n.isPhi = true ∧ n.block = b := by
  rw [h.phi]
  constructor
  · rintro ⟨n, outline, isPhi, rfl⟩
    obtain ⟨m, found, rfl⟩ := node?_of_outline? outline
    exact ⟨m, found, by simpa using isPhi, rfl⟩
  · rintro ⟨n, found, isPhi, rfl⟩
    exact ⟨_, outline?_eq found, by simpa using isPhi, rfl⟩

theorem mem_accesses :
    a ∈ g.accesses b ↔ a ≠ .liveOnEntry ∧ ∃ n, g.node? a = some n ∧ n.block = b := by
  rw [h.program b, List.mem_append, Option.mem_toList, List.mem_filterMap]
  constructor
  · rintro (isPhi | ⟨inst, member, access⟩)
    · obtain ⟨n, outline, phi, rfl⟩ := (h.phi b a).mp isPhi
      obtain ⟨m, found, rfl⟩ := node?_of_outline? outline
      exact ⟨h.ne_liveOnEntry outline (.inl phi), m, found, rfl⟩
    · obtain ⟨n, outline, hasInst⟩ := (h.access inst a).mp access
      obtain ⟨m, found, rfl⟩ := node?_of_outline? outline
      refine ⟨h.ne_liveOnEntry outline (.inr (by simp [hasInst])), m, found, ?_⟩
      exact h.orderly.block_eq (h.placed a m.outline inst outline hasInst) member
  · rintro ⟨other, n, found, rfl⟩
    have outline := outline?_eq found
    cases hasInst : n.inst? with
    | none =>
        have isPhi := (h.only a _ outline (by simpa using hasInst)).resolve_right other
        exact .inl ((h.phi _ a).mpr ⟨_, outline, isPhi, rfl⟩)
    | some inst =>
        have hasInst' : n.outline.inst? = some inst := by simpa using hasInst
        exact .inr ⟨inst, h.placed a n.outline inst outline hasInst',
          (h.access inst a).mpr ⟨_, outline, hasInst'⟩⟩

theorem nodup_accesses (b : Block) : (g.accesses b).Nodup := by
  have insts : ((p.layout.insts b).filterMap g.access?).Nodup := by
    refine (h.orderly.nodup_insts b).filterMap fun inst other a first second => ?_
    obtain ⟨n, found, hasInst⟩ := (h.access inst a).mp first
    obtain ⟨m, found', hasOther⟩ := (h.access other a).mp second
    rw [Option.some.inj (found.symm.trans found')] at hasInst
    exact Option.some.inj (hasInst.symm.trans hasOther)
  rw [h.program b]
  cases head : g.phi? b with
  | none => simpa using insts
  | some phi =>
      refine List.nodup_cons.mpr ⟨fun member => ?_, insts⟩
      obtain ⟨n, outline, isPhi, _⟩ := (h.phi b phi).mp head
      obtain ⟨inst, _, access⟩ := List.mem_filterMap.mp member
      obtain ⟨m, outline', hasInst⟩ := (h.access inst phi).mp access
      obtain rfl := Option.some.inj (outline.symm.trans outline')
      exact absurd (hasInst.symm.trans (Node.inst?_of_isPhi isPhi)) (by simp)

theorem mem_definitions : a ∈ g.definitions b ↔
    a ≠ .liveOnEntry ∧ ∃ n, g.node? a = some n ∧ n.block = b ∧ n.isUse = false := by
  rw [h.definitions_eq, defining, List.mem_filter, h.mem_accesses]
  constructor
  · rintro ⟨⟨other, n, found, block⟩, notUse⟩
    rw [outline?_eq found] at notUse
    exact ⟨other, n, found, block, by simpa using notUse⟩
  · rintro ⟨other, n, found, block, notUse⟩
    refine ⟨⟨other, n, found, block⟩, ?_⟩
    rw [outline?_eq found]
    simpa using notUse

end Arranged

theorem Shaped.transfer (h : g.Shaped p entry) (tree : g'.tree = g.tree) (flow : g'.flow = g.flow)
    (lists : g'.lists = g.lists) (defLists : g'.defLists = g.defLists)
    (instAccess : g'.instAccess = g.instAccess) (blockPhi : g'.blockPhi = g.blockPhi)
    (outline : ∀ x, g'.outline? x = g.outline? x) : g'.Shaped p entry := by
  have phi? : ∀ b, g'.phi? b = g.phi? b := fun b => by rw [Graph.phi?, blockPhi]; rfl
  have definesIn : g'.DefinesIn = g.DefinesIn := by
    funext b
    simp only [DefinesIn, outline]
  refine ⟨h.toArranged.transfer tree flow lists defLists instAccess blockPhi outline, ?_⟩
  simpa only [phi?, flow, definesIn] using h.merges

end Graph

end MemoryFlow
