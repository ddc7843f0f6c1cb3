import MemoryFlow.Graph.Build
import MemoryFlow.Proofs.Graph.Shape

/-! # Creating the accesses of a procedure

The accesses of the instructions are created block by block, and phis after them. The invariants
here say which accesses exist after part of the blocks, and after part of the instructions of one
more.
-/

namespace MemoryFlow

/-- What kind of access an instruction makes, if any. -/
def Oracle.roleOf (o : Oracle) (p : Procedure) (inst : Inst) : Except Fault (Option Role) := do
  let op ← p.op inst
  if op.intrinsic? = some .assume then return none
  let e ← o.effect p inst
  if e.writes || op.isOrderedAccess then return some (.definition (some inst) {})
  else if e.reads then return some (.use inst {})
  else return none

/-- Whether the oracle tells of every placed instruction what it does to memory. -/
def Oracle.Classifies (o : Oracle) (p : Procedure) : Prop :=
  ∀ inst ∈ p.layout.allInsts, ∃ role, o.roleOf p inst = .ok role

instance (o : Oracle) (p : Procedure) : Decidable (o.Classifies p) :=
  inferInstanceAs (Decidable (∀ _ ∈ _, _))

theorem Oracle.roleOf_cases {o : Oracle} {p : Procedure} {inst : Inst} {role : Role}
    (known : o.roleOf p inst = .ok (some role)) :
    role = .definition (some inst) {} ∨ role = .use inst {} := by
  obtain ⟨op, _, known⟩ := bind_eq_ok.mp known
  split at known
  · cases known
  · obtain ⟨e, _, known⟩ := bind_eq_ok.mp known
    split at known
    · exact .inl (Option.some.inj (Except.ok.inj known)).symm
    · split at known
      · exact .inr (Option.some.inj (Except.ok.inj known)).symm
      · cases known

namespace Graph

variable {g g' : Graph} {p : Procedure} {o : Oracle} {entry block b : Block} {inst i : Inst}
  {a x : Access} {n : Node} {role : Role} {done : List (Block × Inst)}

theorem newAccess?_none (known : o.roleOf p inst = .ok none) :
    g.newAccess? p o inst block = .ok none := by
  obtain ⟨op, hop, known⟩ := bind_eq_ok.mp known
  rw [newAccess?, hop, ok_bind]
  split at known
  · rename_i assumes
    rw [if_pos assumes]
    rfl
  · rename_i other
    obtain ⟨e, he, known⟩ := bind_eq_ok.mp known
    rw [if_neg other, he, ok_bind]
    split at known
    · cases known
    · rename_i silent
      rw [if_neg silent]
      split at known
      · cases known
      · rename_i quiet
        rw [if_neg quiet]
        rfl

theorem newAccess?_some (g : Graph) (block : Block) (known : o.roleOf p inst = .ok (some role)) :
    ∃ number next, g.newAccess? p o inst block = .ok (some
      ({ g with nodes := g.nodes.push (some ⟨number, block, role, []⟩), nextNumber := next,
                instAccess := g.instAccess.insert inst ⟨g.nodes.size⟩ }, ⟨g.nodes.size⟩)) := by
  obtain ⟨op, hop, known⟩ := bind_eq_ok.mp known
  rw [newAccess?, hop, ok_bind]
  split at known
  · cases known
  · rename_i other
    obtain ⟨e, he, known⟩ := bind_eq_ok.mp known
    rw [if_neg other, he, ok_bind]
    split at known
    · rename_i writes
      rw [if_pos writes]
      cases known
      exact ⟨_, _, rfl⟩
    · rename_i silent
      rw [if_neg silent]
      split at known
      · rename_i reads
        rw [if_pos reads]
        cases known
        exact ⟨_, _, rfl⟩
      · cases known

theorem roleOf_of_newAccess? {result : Option (Graph × Access)}
    (created : g.newAccess? p o inst block = .ok result) : ∃ role, o.roleOf p inst = .ok role := by
  rw [newAccess?] at created
  obtain ⟨op, hop, created⟩ := bind_eq_ok.mp created
  rw [Oracle.roleOf, hop, ok_bind]
  split at created
  · rename_i assumes
    exact ⟨none, if_pos assumes⟩
  · rename_i other
    obtain ⟨e, he, _⟩ := bind_eq_ok.mp created
    rw [if_neg other, he, ok_bind]
    split
    · exact ⟨_, rfl⟩
    · split <;> exact ⟨_, rfl⟩

/-- Whether the accesses of instructions are of the kinds that the oracle tells. -/
def Classified (o : Oracle) (p : Procedure) (g : Graph) : Prop :=
  ∀ a n inst, g.outline? a = some n → n.inst? = some inst → o.roleOf p inst = .ok (some n.role)

/-- Whether every placed instruction that accesses memory has an access. -/
def Recorded (o : Oracle) (p : Procedure) (g : Graph) : Prop :=
  ∀ inst ∈ p.layout.allInsts, ∀ role, o.roleOf p inst = .ok (some role) →
    ∃ a, g.access? inst = some a

/-- A graph in which some instructions have their accesses. -/
structure Filled (o : Oracle) (p : Procedure) (entry : Block) (done : List (Block × Inst))
    (g : Graph) : Prop where
  blockPhi : g.blockPhi = {}
  cachedBy : g.cachedBy = {}
  order : g.order.settled = {}
  plain : ∀ a, g.bare? a = g.outline? a
  entryNode : g.outline? .liveOnEntry =
    some { number := 0, block := entry, role := .definition none {} }
  access : ∀ inst a, g.access? inst = some a ↔ ∃ n, g.outline? a = some n ∧ n.inst? = some inst
  placed : ∀ a n inst, g.outline? a = some n → n.inst? = some inst → (n.block, inst) ∈ done
  only : ∀ a n, g.outline? a = some n → n.inst? = none → a = .liveOnEntry
  kind : g.Classified o p
  recorded : ∀ b i role, (b, i) ∈ done → o.roleOf p i = .ok (some role) → ∃ a, g.access? i = some a

theorem Filled.start (config : Config) (flow : FlowGraph) (tree : Tree) (entry : Block) :
    Filled o p entry [] (start config flow tree entry) := by
  have cells : ∀ a n, (Graph.start config flow tree entry).outline? a = some n →
      a = .liveOnEntry ∧ n = { number := 0, block := entry, role := .definition none {} } := by
    intro a n found
    obtain ⟨m, known, rfl⟩ := node?_of_outline? found
    have inside := lt_of_node? known
    obtain rfl : a = .liveOnEntry := Entity.ext (Nat.lt_one_iff.mp inside)
    cases known
    exact ⟨rfl, rfl⟩
  have noInst : ∀ a n inst, (Graph.start config flow tree entry).outline? a = some n →
      n.inst? ≠ some inst := by
    intro a n inst found hasInst
    rw [(cells a n found).2] at hasInst
    cases hasInst
  refine ⟨rfl, rfl, rfl, ?_, rfl, ?_, ?_, ?_, ?_, by simp⟩
  · intro a
    rw [bare?, outline?]
    cases known : (Graph.start config flow tree entry).node? a with
    | none => rfl
    | some n =>
        obtain ⟨rfl, _⟩ := cells a _ (outline?_eq known)
        cases known
        rfl
  · intro inst a
    constructor
    · intro known
      simp [access?, Graph.start] at known
    · rintro ⟨n, found, hasInst⟩
      exact absurd hasInst (noInst a n inst found)
  · exact fun a n inst found hasInst => absurd hasInst (noInst a n inst found)
  · exact fun a n found _ => (cells a n found).1
  · exact fun a n inst found hasInst => absurd hasInst (noInst a n inst found)

theorem Filled.access?_fresh (filled : g.Filled o p entry done) (fresh : ∀ b, (b, inst) ∉ done) :
    g.access? inst = none := by
  cases known : g.access? inst with
  | none => rfl
  | some a =>
      obtain ⟨n, outline, hasInst⟩ := (filled.access inst a).mp known
      exact absurd (filled.placed a n inst outline hasInst) (fresh n.block)

structure Grown (g g' : Graph) (inst : Inst) : Prop where
  config : g'.config = g.config
  flow : g'.flow = g.flow
  tree : g'.tree = g.tree
  lists : g'.lists = g.lists
  defLists : g'.defLists = g.defLists
  outline : ∀ x n, g.outline? x = some n → g'.outline? x = some n
  access : ∀ i, i ≠ inst → g'.access? i = g.access? i

theorem Filled.skip (filled : g.Filled o p entry done) (known : o.roleOf p inst = .ok none) :
    g.Filled o p entry (done ++ [(block, inst)]) := by
  refine { filled with
    placed := fun a n i found hasInst => ?_, recorded := fun b i role member known' => ?_ }
  · exact List.mem_append_left _ (filled.placed a n i found hasInst)
  · rcases List.mem_append.mp member with before | single
    · exact filled.recorded b i role before known'
    · obtain ⟨rfl, rfl⟩ := Prod.mk.inj (List.mem_singleton.mp single)
      exact absurd (known.symm.trans known') (by simp)

theorem Filled.add (filled : g.Filled o p entry done) (block : Block) (number next : Nat)
    (fresh : ∀ b, (b, inst) ∉ done) (known : o.roleOf p inst = .ok (some role)) :
    let g' : Graph := { g with
      nodes := g.nodes.push (some ⟨number, block, role, []⟩), nextNumber := next,
      instAccess := g.instAccess.insert inst ⟨g.nodes.size⟩ }
    g'.Filled o p entry (done ++ [(block, inst)]) ∧ g.Grown g' inst ∧
      g'.access? inst = some ⟨g.nodes.size⟩ := by
  intro g'
  let new : Node := ⟨number, block, role, []⟩
  have kind := Oracle.roleOf_cases known
  have newInst : new.outline.inst? = some inst := by rcases kind with rfl | rfl <;> rfl
  have newRole : new.outline.role = role := by rcases kind with rfl | rfl <;> rfl
  have node : ∀ x, g'.node? x = if x = ⟨g.nodes.size⟩ then some new else g.node? x :=
    fun x => node?_addNode (g := g) (x := x) new
  have outline : ∀ x, g'.outline? x =
      if x = ⟨g.nodes.size⟩ then some new.outline else g.outline? x := by
    intro x
    rw [outline?, node]
    split <;> rfl
  have access : ∀ i, g'.access? i = if i = inst then some ⟨g.nodes.size⟩ else g.access? i :=
    fun i => getElem?_insert g.instAccess inst i ⟨g.nodes.size⟩
  refine ⟨⟨filled.blockPhi, filled.cachedBy, filled.order, ?_, ?_, ?_, ?_, ?_, ?_, ?_⟩,
    ⟨rfl, rfl, rfl, rfl, rfl, ?_, ?_⟩, (access inst).trans (if_pos rfl)⟩
  · intro x
    rw [outline, bare?, node]
    split
    · rcases kind with rfl | rfl <;> rfl
    · exact filled.plain x
  · rw [outline, if_neg (ne_next filled.entryNode), filled.entryNode]
  · intro i x
    rw [access, outline]
    by_cases same : i = inst
    · subst same
      rw [if_pos rfl]
      by_cases here : x = ⟨g.nodes.size⟩
      · subst here
        simp [newInst]
      · refine ⟨fun known => absurd (Option.some.inj known).symm here, ?_⟩
        rintro ⟨n, found, hasInst⟩
        rw [if_neg here] at found
        exact absurd (filled.placed x n i found hasInst) (fresh n.block)
    · rw [if_neg same, filled.access]
      by_cases here : x = ⟨g.nodes.size⟩
      · subst here
        simp only [if_pos, Option.some.injEq, exists_eq_left', newInst]
        refine ⟨?_, fun equal => absurd equal.symm same⟩
        rintro ⟨n, found, _⟩
        exact absurd rfl (ne_next found)
      · rw [if_neg here]
  · intro x n i found hasInst
    rw [outline] at found
    split at found
    · obtain rfl := Option.some.inj found
      rw [Option.some.inj (hasInst.symm.trans newInst)]
      exact List.mem_append_right _ (List.mem_singleton.mpr rfl)
    · exact List.mem_append_left _ (filled.placed x n i found hasInst)
  · intro x n found noInst
    rw [outline] at found
    split at found
    · obtain rfl := Option.some.inj found
      exact absurd (noInst.symm.trans newInst) (by simp)
    · exact filled.only x n found noInst
  · intro x n i found hasInst
    rw [outline] at found
    split at found
    · obtain rfl := Option.some.inj found
      rw [← Option.some.inj (newInst.symm.trans hasInst), newRole, known]
    · exact filled.kind x n i found hasInst
  · intro b i role' member known'
    rw [access]
    split
    · exact ⟨_, rfl⟩
    · rename_i other
      refine filled.recorded b i role'
        ((List.mem_append.mp member).resolve_right fun single => ?_) known'
      exact other (congrArg Prod.snd (List.mem_singleton.mp single))
  · intro x n found
    rw [outline, if_neg (ne_next found), found]
  · intro i other
    rw [access, if_neg other]

theorem Filled.newAccess? (filled : g.Filled o p entry done) (block : Block)
    (fresh : ∀ b, (b, inst) ∉ done) (known : o.roleOf p inst = .ok (some role)) :
    ∃ g' a, g.newAccess? p o inst block = .ok (some (g', a)) ∧
      g'.Filled o p entry (done ++ [(block, inst)]) ∧ g.Grown g' inst ∧
      g'.access? inst = some a := by
  obtain ⟨number, next, created⟩ := newAccess?_some g block known
  exact ⟨_, _, created, filled.add block number next fresh known⟩

/-- In the middle of a block, after some of its instructions. -/
structure RowState (o : Oracle) (p : Procedure) (entry : Block) (done : List (Block × Inst))
    (base : Graph) (block : Block) (seen : List Inst) (state : Graph × List Access) : Prop where
  filled : state.1.Filled o p entry (done ++ seen.map (block, ·))
  list : state.2 = seen.filterMap state.1.access?
  config : state.1.config = base.config
  flow : state.1.flow = base.flow
  tree : state.1.tree = base.tree
  lists : state.1.lists = base.lists
  defLists : state.1.defLists = base.defLists
  outline : ∀ x n, base.outline? x = some n → state.1.outline? x = some n
  access : ∀ b i, (b, i) ∈ done → state.1.access? i = base.access? i

def addInst (p : Procedure) (o : Oracle) (block : Block) (state : Graph × List Access)
    (inst : Inst) : Except Fault (Graph × List Access) := do
  match ← state.1.newAccess? p o inst block with
  | none => return state
  | some (g, a) => return (g, state.2 ++ [a])

theorem RowState.addInst {base : Graph} {seen : List Inst} {state : Graph × List Access}
    (row : RowState o p entry done base block seen state) (before : ∀ b, (b, inst) ∉ done)
    (new : inst ∉ seen) {result : Option Role} (known : o.roleOf p inst = .ok result) :
    ∃ state', addInst p o block state inst = .ok state' ∧
      RowState o p entry done base block (seen ++ [inst]) state' := by
  have fresh : ∀ b, (b, inst) ∉ done ++ seen.map (block, ·) := by
    intro b member
    rcases List.mem_append.mp member with member | member
    · exact before b member
    · obtain ⟨i, listed, same⟩ := List.mem_map.mp member
      obtain rfl : i = inst := congrArg Prod.snd same
      exact new listed
  have pairs : done ++ (seen ++ [inst]).map (block, ·) =
      done ++ seen.map (block, ·) ++ [(block, inst)] := by
    simp
  cases result with
  | none =>
      refine ⟨state, by rw [Graph.addInst, newAccess?_none known]; rfl, ?_⟩
      have absent := row.filled.access?_fresh fresh
      exact { row with
        filled := pairs ▸ row.filled.skip known
        list := by rw [List.filterMap_append, row.list]; simp [absent] }
  | some role =>
      obtain ⟨g', a, created, filled, grown, here⟩ := row.filled.newAccess? block fresh known
      refine ⟨(g', state.2 ++ [a]), by rw [Graph.addInst, created]; rfl, pairs ▸ filled, ?_,
        grown.config.trans row.config, grown.flow.trans row.flow, grown.tree.trans row.tree,
        grown.lists.trans row.lists, grown.defLists.trans row.defLists,
        fun x n found => grown.outline x n (row.outline x n found), ?_⟩
      · have kept : seen.filterMap g'.access? = seen.filterMap state.1.access? :=
          List.filterMap_congr fun i member => grown.access i fun same => new (same ▸ member)
        simp [row.list, kept, here]
      · intro b i member
        refine (grown.access i ?_).trans (row.access b i member)
        rintro rfl
        exact before b member

structure Listed (o : Oracle) (p : Procedure) (entry : Block) (done : List Layout.Row) (g : Graph) :
    Prop where
  filled : g.Filled o p entry (done.flatMap fun row => row.insts.map (row.block, ·))
  accesses : ∀ row ∈ done, g.accesses row.block = row.insts.filterMap g.access?
  empty : ∀ b, b ∉ done.map (·.block) → g.accesses b = []
  definitions : ∀ b, g.definitions b = g.defining (g.accesses b)

/-- List the accesses of a block. A block without any keeps the lists that it has. -/
def withLists (g : Graph) (block : Block) (list defList : List Access) : Graph :=
  { g with
    lists := if list.isEmpty then g.lists else g.lists.insert block list
    defLists := if defList.isEmpty then g.defLists else g.defLists.insert block defList }

theorem accesses_withLists (absent : g.accesses block = []) (list defList : List Access)
    (b : Block) :
    (g.withLists block list defList).accesses b = if b = block then list else g.accesses b :=
  getD_insert_unless_empty absent list b

theorem definitions_withLists (absent : g.definitions block = []) (list defList : List Access)
    (b : Block) :
    (g.withLists block list defList).definitions b =
      if b = block then defList else g.definitions b :=
  getD_insert_unless_empty absent defList b

theorem addRow_eq (row : Layout.Row) : g.addRow p o row = do
    let (g, list) ← row.insts.foldlM (addInst p o row.block) (g, [])
    return g.withLists row.block list (list.filter fun a => (g.node? a).any (·.isDefinition)) := by
  refine congrArg (row.insts.foldlM (addInst p o row.block) (g, []) >>= ·)
    (funext fun (g, list) => ?_)
  dsimp only [withLists]
  generalize list.isEmpty = noAccess
  generalize (list.filter fun a => (g.node? a).any (·.isDefinition)).isEmpty = noDefinition
  cases noAccess <;> cases noDefinition <;> rfl

theorem Filled.addInsts {pairs : List (Block × Inst)} (filled : g.Filled o p entry pairs)
    (block : Block) {insts : List Inst} (apart : ∀ inst ∈ insts, ∀ b, (b, inst) ∉ pairs)
    (distinct : insts.Nodup) (known : ∀ inst ∈ insts, ∃ role, o.roleOf p inst = .ok role) :
    ∃ state, insts.foldlM (addInst p o block) (g, []) = .ok state ∧
      RowState o p entry pairs g block insts state := by
  refine foldlM_total insts (addInst p o block) (g, []) (RowState o p entry pairs g block)
    ⟨by simpa using filled, rfl, rfl, rfl, rfl, rfl, rfl, fun _ _ found => found, fun _ _ _ => rfl⟩
    ?_
  intro seen inst rest current whole holds
  have member : inst ∈ insts := by simp [whole]
  obtain ⟨role, known⟩ := known inst member
  refine holds.addInst (apart inst member) ?_ known
  intro twice
  rw [whole, List.nodup_append] at distinct
  exact distinct.2.2 inst twice inst (by simp) rfl

theorem RowState.defining_eq {base : Graph} {seen : List Inst} {state : Graph × List Access}
    (row : RowState o p entry done base block seen state) :
    state.2.filter (fun a => (state.1.node? a).any (·.isDefinition)) =
      state.1.defining state.2 := by
  refine List.filter_congr fun a member => ?_
  obtain ⟨inst, _, access⟩ := List.mem_filterMap.mp (row.list ▸ member)
  obtain ⟨n, outline, hasInst⟩ := (row.filled.access inst a).mp access
  obtain ⟨m, found, rfl⟩ := node?_of_outline? outline
  rw [found, outline, Option.any_some, Option.any_some, ← Node.isDefinition_eq hasInst,
    Node.isDefinition_outline]

theorem Listed.exists_outline {done : List Layout.Row} (listed : g.Listed o p entry done)
    (member : a ∈ g.accesses b) : ∃ n, g.outline? a = some n := by
  by_cases outside : b ∉ done.map (·.block)
  · rw [listed.empty b outside] at member
    cases member
  · obtain ⟨row, before, rfl⟩ := List.mem_map.mp (not_not.mp outside)
    rw [listed.accesses row before] at member
    obtain ⟨inst, _, access⟩ := List.mem_filterMap.mp member
    obtain ⟨n, outline, _⟩ := (listed.filled.access inst a).mp access
    exact ⟨n, outline⟩

theorem Listed.addRow {done : List Layout.Row} {row : Layout.Row} (listed : g.Listed o p entry done)
    (block : row.block ∉ done.map (·.block))
    (insts : ∀ inst ∈ row.insts, inst ∉ done.flatMap (·.insts))
    (distinct : row.insts.Nodup) (known : ∀ inst ∈ row.insts, ∃ role, o.roleOf p inst = .ok role) :
    ∃ g', g.addRow p o row = .ok g' ∧ g'.Listed o p entry (done ++ [row]) ∧ g'.config = g.config ∧
      g'.flow = g.flow ∧ g'.tree = g.tree := by
  let pairs := done.flatMap fun row => row.insts.map (row.block, ·)
  have apart : ∀ inst ∈ row.insts, ∀ b, (b, inst) ∉ pairs := by
    intro inst member b paired
    obtain ⟨other, before, paired⟩ := List.mem_flatMap.mp paired
    obtain ⟨i, inside, same⟩ := List.mem_map.mp paired
    obtain rfl : i = inst := congrArg Prod.snd same
    exact insts i member (List.mem_flatMap.mpr ⟨other, before, inside⟩)
  obtain ⟨⟨g₁, list⟩, ran, state⟩ := listed.filled.addInsts row.block apart distinct known
  have oldAccesses : g₁.accesses = g.accesses := by
    funext b
    rw [Graph.accesses, state.lists]
    rfl
  have oldDefinitions : g₁.definitions = g.definitions := by
    funext b
    rw [Graph.definitions, state.defLists]
    rfl
  have noAccess : g₁.accesses row.block = [] := by rw [oldAccesses, listed.empty row.block block]
  have noDefinition : g₁.definitions row.block = [] := by
    rw [oldDefinitions, listed.definitions, listed.empty row.block block]
    rfl
  have result : g.addRow p o row = .ok (g₁.withLists row.block list (g₁.defining list)) := by
    rw [addRow_eq, ran, ok_bind]
    exact congrArg (fun defList => Except.ok (g₁.withLists row.block list defList))
      state.defining_eq
  refine ⟨_, result, ⟨?_, ?_, ?_, ?_⟩, state.config, state.flow, state.tree⟩
  · rw [List.flatMap_append, List.flatMap_singleton]
    exact ⟨state.filled.blockPhi, state.filled.cachedBy, state.filled.order, state.filled.plain,
      state.filled.entryNode, state.filled.access, state.filled.placed, state.filled.only,
      state.filled.kind, state.filled.recorded⟩
  · intro other member
    rw [accesses_withLists noAccess, oldAccesses]
    rcases List.mem_append.mp member with before | single
    · have elsewhere : other.block ≠ row.block := by
        intro same
        exact block (same ▸ List.mem_map_of_mem before)
      rw [if_neg elsewhere, listed.accesses other before]
      refine List.filterMap_congr fun inst inside => (state.access other.block inst ?_).symm
      exact List.mem_flatMap.mpr ⟨other, before, List.mem_map_of_mem inside⟩
    · rw [List.mem_singleton.mp single, if_pos rfl]
      exact state.list
  · intro b outside
    simp only [List.map_append, List.map_cons, List.map_nil, List.mem_append, List.mem_singleton,
      not_or] at outside
    rw [accesses_withLists noAccess, if_neg outside.2, oldAccesses, listed.empty b outside.1]
  · intro b
    rw [definitions_withLists noDefinition, accesses_withLists noAccess, oldAccesses,
      oldDefinitions]
    split
    · rfl
    · rw [listed.definitions b]
      refine List.filter_congr fun a member => ?_
      obtain ⟨n, outline⟩ := listed.exists_outline member
      have kept : (g₁.withLists row.block list (g₁.defining list)).outline? a = some n :=
        state.outline a n outline
      rw [outline, kept]

theorem rows_listed (orderly : p.Orderly) (classifies : o.Classifies p) (config : Config)
    (flow : FlowGraph) (tree : Tree) (entry : Block) :
    ∃ g, p.layout.rows.foldlM (addRow p o) (start config flow tree entry) = .ok g ∧
      g.Listed o p entry p.layout.rows ∧ g.config = config ∧ g.flow = flow ∧ g.tree = tree := by
  refine foldlM_total p.layout.rows (addRow p o) (start config flow tree entry)
    (fun done g => g.Listed o p entry done ∧ g.config = config ∧ g.flow = flow ∧ g.tree = tree)
    ?_ ?_
  · refine ⟨⟨.start config flow tree entry, by simp, fun b _ => ?_, fun b => ?_⟩, rfl, rfl, rfl⟩
    · simp [accesses, Graph.start]
    · simp [definitions, accesses, Graph.start, defining]
  · rintro done row rest g whole ⟨listed, sameConfig, sameFlow, sameTree⟩
    have blocks := orderly.blocks
    have insts := orderly.insts
    simp only [← Layout.map_block_rows, whole, List.map_append, List.map_cons, List.nodup_append,
      List.nodup_cons] at blocks
    simp only [Layout.allInsts, whole, List.flatMap_append, List.flatMap_cons, List.nodup_append,
      List.mem_append] at insts
    have known : ∀ inst ∈ row.insts, ∃ role, o.roleOf p inst = .ok role := by
      intro inst member
      exact classifies inst (List.mem_flatMap.mpr ⟨row, by simp [whole], member⟩)
    obtain ⟨g', added, listed', config', flow', tree'⟩ := listed.addRow
      (fun member => blocks.2.2 _ member _ (by simp) rfl)
      (fun inst member before => insts.2.2 inst before inst (.inl member) rfl) insts.2.1.1 known
    exact ⟨g', added, listed', config'.trans sameConfig, flow'.trans sameFlow, tree'.trans sameTree⟩

structure Merged (g g' : Graph) (block : Block) (phi : Access) (number : Nat) : Prop where
  config : g'.config = g.config
  flow : g'.flow = g.flow
  tree : g'.tree = g.tree
  instAccess : g'.instAccess = g.instAccess
  settled : g'.order.settled = {}
  cachedBy : g'.cachedBy = {}
  node : ∀ x, g'.node? x = if x = phi then some ⟨number, block, .phi [], []⟩ else g.node? x
  accesses : ∀ b, g'.accesses b = if b = block then phi :: g.accesses b else g.accesses b
  definitions : ∀ b, g'.definitions b =
    if b = block then phi :: g.definitions b else g.definitions b
  phi : ∀ b, g'.phi? b = if b = block then some phi else g.phi? b

theorem createPhi_merged (uncached : g.Uncached) (settled : g.order.settled = {})
    (absent : g.phi? block = none) : ∃ g' number, g.createPhi block = .ok (g', ⟨g.nodes.size⟩) ∧
      g.Merged g' block ⟨g.nodes.size⟩ number := by
  let phi : Access := ⟨g.nodes.size⟩
  let new : Node := ⟨g.nextNumber, block, .phi [], []⟩
  let g₁ : Graph := { (g.addNode new).1 with nextNumber := g.nextNumber + 1 }
  let g₂ : Graph := g₁.modifyNode phi ({ · with block })
  let g₃ : Graph := { g₂ with
    lists := g₂.lists.insert block (phi :: g.accesses block)
    defLists := g₂.defLists.insert block (phi :: g.definitions block) }
  have added : ∀ x, g₁.node? x = if x = phi then some new else g.node? x :=
    fun x => node?_addNode (g := g) (x := x) new
  have node : ∀ x, g₃.node? x = if x = phi then some new else g.node? x := by
    intro x
    refine (node?_modifyNode (g := g₁) (a := phi) (x := x) _).trans ?_
    rw [added]
    split <;> rfl
  have uncached₃ : g₃.Uncached := by
    refine ⟨uncached.index, fun x n found => ?_⟩
    rw [node] at found
    split at found
    · cases found
      rfl
    · exact uncached.links x n found
  have fresh : g.blockPhi.contains block = false := by
    rw [Std.TreeMap.contains_eq_isSome_getElem?, show g.blockPhi[block]? = none from absent]
    rfl
  have inserted : g₁.insert phi block .beginning = .ok (g₃.unsettle block) := by
    have found : g₁.node? phi = some new := (added phi).trans (if_pos rfl)
    -- Nothing is cached yet, so there is nothing to forget.
    have plain : g₃.forgetAll = g₃ := forgetAll_eq uncached₃
    simp only [insert, node_eq found, ok_bind]
    exact congrArg (fun g => Except.ok (unsettle g block)) plain
  refine ⟨{ g₃.unsettle block with blockPhi := g.blockPhi.insert block phi }, g.nextNumber, ?_,
    rfl, rfl, rfl, rfl, ?_, uncached.index, node, ?_, ?_, ?_⟩
  · rw [createPhi, fresh]
    exact congrArg (· >>= fun g =>
      Except.ok ({ g with blockPhi := g.blockPhi.insert block phi }, phi)) inserted
  · show g.order.settled.erase block = {}
    rw [settled]
    rfl
  · intro b
    refine (getD_insert g.lists block b (phi :: g.accesses block) []).trans ?_
    split
    · rename_i same
      rw [same]
    · rfl
  · intro b
    refine (getD_insert g.defLists block b (phi :: g.definitions block) []).trans ?_
    split
    · rename_i same
      rw [same]
    · rfl
  · exact fun b => getElem?_insert g.blockPhi block b phi

structure Merging (base : Graph) (seen : List Block) (g : Graph) : Prop where
  config : g.config = base.config
  flow : g.flow = base.flow
  tree : g.tree = base.tree
  instAccess : g.instAccess = base.instAccess
  settled : g.order.settled = {}
  cachedBy : g.cachedBy = {}
  plain : ∀ a, g.bare? a = g.outline? a
  seen : ∀ b, (g.phi? b).isSome = true ↔ b ∈ seen
  phi : ∀ b a, g.phi? b = some a ↔ ∃ n, g.outline? a = some n ∧ n.isPhi = true ∧ n.block = b
  accesses : ∀ b, g.accesses b = (g.phi? b).toList ++ base.accesses b
  definitions : ∀ b, g.definitions b = (g.phi? b).toList ++ base.definitions b
  kept : ∀ a n, base.outline? a = some n → g.outline? a = some n
  new : ∀ a n, g.outline? a = some n → n.isPhi = true ∨ base.outline? a = some n

theorem Uncached.of_plain (index : g.cachedBy = {}) (plain : ∀ a, g.bare? a = g.outline? a) :
    g.Uncached := by
  refine ⟨index, fun a n found => ?_⟩
  have same := plain a
  rw [bare?_eq found, outline?_eq found] at same
  have cached : n.bare.cached? = n.outline.cached? := congrArg Node.cached? (Option.some.inj same)
  refine cached.trans ?_
  obtain ⟨_, _, role, _⟩ := n
  cases role <;> rfl

theorem Merging.createPhi {base : Graph} {seen : List Block} (merging : base.Merging seen g)
    (fresh : block ∉ seen) :
    ∃ g', (do return (← g.createPhi block).1 : Except Fault Graph) = .ok g' ∧
      base.Merging (seen ++ [block]) g' := by
  have absent : g.phi? block = none := by
    cases known : g.phi? block with
    | none => rfl
    | some a => exact absurd ((merging.seen block).mp (by simp [known])) fresh
  obtain ⟨g', number, created, merged⟩ :=
    createPhi_merged (.of_plain merging.cachedBy merging.plain) merging.settled absent
  have outline : ∀ x, g'.outline? x =
      if x = ⟨g.nodes.size⟩ then some ⟨0, block, .phi [], []⟩ else g.outline? x := by
    intro x
    rw [outline?, merged.node]
    split <;> rfl
  refine ⟨g', by rw [created]; rfl, merged.config.trans merging.config,
    merged.flow.trans merging.flow, merged.tree.trans merging.tree,
    merged.instAccess.trans merging.instAccess, merged.settled,
    merged.cachedBy, ?_, ?_, ?_, ?_, ?_, ?_, ?_⟩
  · intro x
    rw [outline, bare?, merged.node]
    split
    · rfl
    · exact merging.plain x
  · intro b
    rw [merged.phi]
    split
    · rename_i same
      simp [same]
    · rename_i other
      simp [merging.seen, other]
  · intro b x
    rw [merged.phi, outline]
    by_cases here : x = ⟨g.nodes.size⟩
    · subst here
      rw [if_pos rfl]
      split
      · rename_i same
        simp [same, Node.isPhi]
      · rename_i other
        constructor
        · intro known
          obtain ⟨n, found, _⟩ := (merging.phi b _).mp known
          exact absurd rfl (ne_next found)
        · rintro ⟨n, found, _, same⟩
          cases found
          exact absurd same.symm other
    · rw [if_neg here]
      split
      · rename_i same
        subst same
        refine ⟨fun known => absurd (Option.some.inj known).symm here, fun known => ?_⟩
        rw [(merging.phi b x).mpr known] at absent
        cases absent
      · exact merging.phi b x
  · intro b
    rw [merged.accesses, merged.phi, merging.accesses]
    split
    · rename_i same
      simp [same, absent]
    · rfl
  · intro b
    rw [merged.definitions, merged.phi, merging.definitions]
    split
    · rename_i same
      simp [same, absent]
    · rfl
  · intro x n found
    have before := merging.kept x n found
    rw [outline, if_neg (ne_next before), before]
  · intro x n found
    rw [outline] at found
    split at found
    · cases found
      exact .inl rfl
    · exact merging.new x n found

/-- A graph in which every access exists and none is linked. -/
structure Created (p : Procedure) (entry : Block) (g : Graph) : Prop extends g.Shaped p entry where
  settled : g.order.settled = {}
  cachedBy : g.cachedBy = {}
  plain : ∀ a, g.bare? a = g.outline? a

theorem Filled.not_phi (filled : g.Filled o p entry done) (found : g.outline? a = some n) :
    n.isPhi = false := by
  by_contra isPhi
  have isPhi : n.isPhi = true := by simpa using isPhi
  obtain rfl := filled.only a n found (Node.inst?_of_isPhi isPhi)
  obtain rfl := Option.some.inj (filled.entryNode.symm.trans found)
  cases isPhi

theorem Listed.merging {rows : List Layout.Row} (listed : g.Listed o p entry rows) :
    g.Merging [] g := by
  have noPhi : ∀ b, g.phi? b = none := by
    intro b
    rw [phi?, listed.filled.blockPhi]
    rfl
  refine ⟨rfl, rfl, rfl, rfl, listed.filled.order, listed.filled.cachedBy, listed.filled.plain, ?_,
    ?_, ?_, ?_, fun _ _ found => found, fun _ _ found => .inr found⟩
  · simp [noPhi]
  · intro b a
    refine ⟨fun known => absurd ((noPhi b).symm.trans known) (by simp), ?_⟩
    rintro ⟨n, found, isPhi, _⟩
    exact absurd (isPhi.symm.trans (listed.filled.not_phi found)) (by simp)
  · simp [noPhi]
  · simp [noPhi]

theorem Listed.placed (listed : g.Listed o p entry p.layout.rows) (found : g.outline? a = some n)
    (hasInst : n.inst? = some inst) : inst ∈ p.layout.insts n.block := by
  obtain ⟨row, member, paired⟩ := List.mem_flatMap.mp (listed.filled.placed a n inst found hasInst)
  obtain ⟨i, inside, same⟩ := List.mem_map.mp paired
  obtain ⟨block, rfl⟩ := Prod.mk.injEq .. ▸ same
  rw [← block, Layout.insts_row member]
  exact inside

theorem Listed.program (listed : g.Listed o p entry p.layout.rows) (orderly : p.Orderly)
    (b : Block) : g.accesses b = (p.layout.insts b).filterMap g.access? := by
  by_cases placed : b ∈ p.layout.blocks
  · exact listed.accesses _ (List.mem_map_of_mem placed)
  · rw [listed.empty b (by rwa [Layout.map_block_rows]), orderly.insts_eq_nil placed]
    rfl

/-- The blocks that define memory are those with definitions before there are phis. -/
theorem Listed.definesIn_iff (listed : g.Listed o p entry p.layout.rows) (orderly : p.Orderly) :
    g.DefinesIn b ↔ g.definitions b ≠ [] := by
  rw [listed.definitions b]
  constructor
  · rintro ⟨a, n, inst, outline, isDefinition, hasInst, rfl⟩
    refine List.ne_nil_of_mem (a := a) (List.mem_filter.mpr ⟨?_, ?_⟩)
    · rw [listed.program orderly]
      exact List.mem_filterMap.mpr ⟨inst, listed.placed outline hasInst,
        (listed.filled.access inst a).mpr ⟨n, outline, hasInst⟩⟩
    · rw [outline, Option.any_some, ← Node.isDefinition_eq hasInst, isDefinition]
  · intro some_definition
    obtain ⟨a, member⟩ := List.exists_mem_of_ne_nil _ some_definition
    obtain ⟨inList, notUse⟩ := List.mem_filter.mp member
    rw [listed.program orderly] at inList
    obtain ⟨inst, inBlock, access⟩ := List.mem_filterMap.mp inList
    obtain ⟨n, outline, hasInst⟩ := (listed.filled.access inst a).mp access
    refine ⟨a, n, inst, outline, ?_, hasInst, ?_⟩
    · rwa [outline, Option.any_some, ← Node.isDefinition_eq hasInst] at notUse
    · exact orderly.block_eq (listed.placed outline hasInst) inBlock

theorem Merging.old {base : Graph} {seen : List Block} (merging : base.Merging seen g)
    (found : g.outline? a = some n) (hasInst : n.inst? = some inst) : base.outline? a = some n := by
  refine (merging.new a n found).resolve_left fun isPhi => ?_
  exact absurd (hasInst.symm.trans (Node.inst?_of_isPhi isPhi)) (by simp)

theorem Merging.classified {base : Graph} {seen : List Block} (merging : base.Merging seen g)
    (kind : base.Classified o p) : g.Classified o p :=
  fun a n inst found hasInst => kind a n inst (merging.old found hasInst) hasInst

theorem Merging.recorded {base : Graph} {seen : List Block} (merging : base.Merging seen g)
    (listed : base.Listed o p entry p.layout.rows) : g.Recorded o p := by
  intro inst member role known
  obtain ⟨row, inLayout, inside⟩ := List.mem_flatMap.mp member
  rw [Graph.access?, merging.instAccess]
  exact listed.filled.recorded row.block inst role
    (List.mem_flatMap.mpr ⟨row, inLayout, List.mem_map_of_mem inside⟩) known

theorem Merging.created {base : Graph} {seen : List Block} (merging : base.Merging seen g)
    (orderly : p.Orderly) (flow : base.flow = .ofProcedure p)
    (tree : base.tree.Sound base.flow entry) (listed : base.Listed o p entry p.layout.rows)
    (merges : ∀ b, b ∈ seen ↔
      base.flow.IteratedFrontier entry base.DefinesIn b ∧ ¬base.DefinesIn b) :
      g.Created p entry := by
  have access? : g.access? = base.access? := by
    funext inst
    rw [Graph.access?, merging.instAccess]
    rfl
  have program : ∀ b, g.accesses b =
      (g.phi? b).toList ++ (p.layout.insts b).filterMap g.access? := by
    intro b
    rw [merging.accesses, listed.program orderly, access?]
  have definesIn : g.DefinesIn = base.DefinesIn := by
    funext b
    refine propext ⟨?_, ?_⟩
    · rintro ⟨a, n, inst, found, rest⟩
      exact ⟨a, n, inst, merging.old found rest.2.1, rest⟩
    · rintro ⟨a, n, inst, found, rest⟩
      exact ⟨a, n, inst, merging.kept a n found, rest⟩
  have merges' : ∀ b, (g.phi? b).isSome = true ↔
      g.flow.IteratedFrontier entry g.DefinesIn b ∧ ¬g.DefinesIn b := by
    intro b
    rw [merging.seen, merges, merging.flow, definesIn]
  refine ⟨⟨⟨orderly, merging.flow.trans flow, ?_, merging.kept _ _ listed.filled.entryNode,
    program, ?_, ?_, merging.phi, ?_, ?_, ?_⟩, merges'⟩, merging.settled, merging.cachedBy,
    merging.plain⟩
  · rw [merging.tree, merging.flow]
    exact tree
  · intro b
    rw [merging.definitions, merging.accesses, List.filter_append, listed.definitions]
    refine congr (congrArg _ ?_) (List.filter_congr fun a member => ?_)
    · cases known : g.phi? b with
      | none => rfl
      | some phi =>
          obtain ⟨n, found, isPhi, _⟩ := (merging.phi b phi).mp known
          simp [found, n.isUse_of_isPhi isPhi]
    · obtain ⟨n, found⟩ := listed.exists_outline member
      rw [found, merging.kept a n found]
  · intro inst a
    rw [access?, listed.filled.access]
    constructor
    · rintro ⟨n, found, hasInst⟩
      exact ⟨n, merging.kept a n found, hasInst⟩
    · rintro ⟨n, found, hasInst⟩
      exact ⟨n, merging.old found hasInst, hasInst⟩
  · intro a n inst found hasInst
    exact listed.placed (merging.old found hasInst) hasInst
  · intro a n found noInst
    rcases merging.new a n found with isPhi | before
    · exact .inl isPhi
    · exact .inr (listed.filled.only a n before noInst)
  · intro b isPhi
    cases ((merges' b).mp isPhi).1 with
    | first _ leaves | next _ leaves =>
        obtain ⟨pred, reached, _, edge, _⟩ := leaves
        exact ⟨pred, reached, edge⟩

theorem addPhis_created {base : Graph} (orderly : p.Orderly) (flow : base.flow = .ofProcedure p)
    (tree : base.tree.Sound base.flow entry) (listed : base.Listed o p entry p.layout.rows) :
    ∃ g, base.addPhis p = .ok g ∧ g.Created p entry ∧ g.Classified o p ∧ g.Recorded o p ∧
      g.flow = base.flow ∧ g.tree = base.tree := by
  let defining := base.flow.blocks.filter fun block => !(base.definitions block).isEmpty
  have defines : ∀ b, b ∈ defining ↔ base.DefinesIn b := by
    intro b
    rw [listed.definesIn_iff orderly, List.mem_filter, flow, FlowGraph.blocks_ofProcedure]
    refine ⟨fun ⟨_, some_definition⟩ => by simpa using some_definition, fun some_definition => ?_⟩
    refine ⟨?_, by simpa using some_definition⟩
    by_contra outside
    exact some_definition ((listed.definitions b).trans (by
      rw [listed.empty b (by rwa [Layout.map_block_rows])]
      rfl))
  obtain ⟨distinct, found⟩ := tree.frontier_spec defining
  let blocks :=
    (base.tree.frontier base.flow defining none).mergeSort (blockRank p · ≤ blockRank p ·)
  have sorted : blocks.Perm (base.tree.frontier base.flow defining none) := List.mergeSort_perm _ _
  obtain ⟨g, ran, merging⟩ := foldlM_total blocks
    (fun g block => do return (← g.createPhi block).1) base (base.Merging ·) listed.merging (by
      intro seen block rest g whole merging
      refine merging.createPhi fun twice => ?_
      have once := sorted.nodup_iff.mpr distinct
      rw [whole, List.nodup_append] at once
      exact once.2.2 block twice block (by simp) rfl)
  refine ⟨g, ran, merging.created orderly flow tree listed fun b => ?_,
    merging.classified listed.filled.kind, merging.recorded listed, merging.flow, merging.tree⟩
  rw [sorted.mem_iff, found, defines]
  exact and_congr_left' ⟨.mono fun b => (defines b).mp, .mono fun b => (defines b).mpr⟩

end Graph

end MemoryFlow
