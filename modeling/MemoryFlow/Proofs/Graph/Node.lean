import MemoryFlow.Graph.Node
import MemoryFlow.Proofs.Basic

/-! # Nodes, seen in part and changed

Most of what is said of a node leaves out part of it: its number and its users (`bare`), all that it
refers to (`outline`), its cached clobber (`forgotten`). Here these parts are put together with the
ways to change a node, and with what each change leaves as it was.
-/

namespace MemoryFlow

/-- `new` in the place of `old`. -/
def Access.swap (old new a : Access) : Access :=
  if a = old then new else a

namespace Node

/-- A node without the number it is written with and without its users. -/
def bare (n : Node) : Node :=
  { n with number := 0, users := [] }

/-- The kind of a node, its block and its instruction. -/
def outline (n : Node) : Node where
  number := 0
  block := n.block
  role := match n.role with
    | .definition inst _ => .definition inst {}
    | .use inst _ => .use inst {}
    | .phi _ => .phi []
  users := []

def forgotten (n : Node) : Node :=
  n.mapLink ({ · with cached := none })

/-- A node without its number, its users and its cached clobber. -/
def core (n : Node) : Node :=
  n.forgotten.bare

/-- What a node is and refers to, without the clobber cached for it. -/
def lasting (n : Node) : Role :=
  n.forgotten.role

/-- What a node knows of the references it makes and of those made to it. -/
def ends (n : Node) : List Access × List Access × Bool :=
  (n.users, n.operands, n.isUse)

def mapUsers (n : Node) (f : List Access → List Access) : Node :=
  { n with users := f n.users }

def mapOperands (f : Access → Access) (n : Node) : Node :=
  { n with role := match n.role with
    | .definition inst link => .definition inst { link with defining := link.defining.map f }
    | .use inst link => .use inst { link with defining := link.defining.map f }
    | .phi incoming => .phi (incoming.map fun (pred, value) => (pred, f value)) }

/-- A use or definition with this defining access and no cached clobber. -/
def definedBy (n : Node) (definition : Access) : Node :=
  n.mapLink fun _ => { defining := some definition }

/-- A phi into which one more value flows. -/
def withIncoming (n : Node) (pred : Block) (value : Access) : Node :=
  n.mapIncoming (· ++ [(pred, value)])

/-! ## The kinds of access -/

section Kinds

variable (n : Node)

theorem isDefinition_eq {n : Node} {inst : Inst} (hasInst : n.inst? = some inst) :
    n.isDefinition = !n.isUse := by
  obtain ⟨_, _, role, _⟩ := n
  cases role with
  | definition | use => rfl
  | phi => cases hasInst

theorem inst?_of_isPhi {n : Node} (isPhi : n.isPhi = true) : n.inst? = none := by
  obtain ⟨_, _, role, _⟩ := n
  cases role with
  | phi => rfl
  | definition | use => cases isPhi

theorem isPhi_of_inst? {inst : Inst} (hasInst : n.inst? = some inst) : n.isPhi = false := by
  obtain ⟨_, _, role, _⟩ := n
  cases role with
  | definition | use => rfl
  | phi => cases hasInst

theorem isDefinition_of (notUse : n.isUse = false) (notPhi : n.isPhi = false) :
    n.isDefinition = true := by
  obtain ⟨_, _, role, _⟩ := n
  cases role with
  | definition => rfl
  | use => cases notUse
  | phi => cases notPhi

theorem isPhi_of_isDefinition (isDefinition : n.isDefinition = true) : n.isPhi = false := by
  obtain ⟨_, _, role, _⟩ := n
  cases role with
  | definition | use => rfl
  | phi => cases isDefinition

theorem isUse_of_isDefinition (isDefinition : n.isDefinition = true) : n.isUse = false := by
  obtain ⟨_, _, role, _⟩ := n
  cases role with
  | definition | phi => rfl
  | use => cases isDefinition

theorem isUse_of_isPhi (isPhi : n.isPhi = true) : n.isUse = false := by
  obtain ⟨_, _, role, _⟩ := n
  cases role with
  | definition | phi => rfl
  | use => cases isPhi

theorem incoming_of_not_isPhi (notPhi : n.isPhi = false) : n.incoming = [] := by
  obtain ⟨_, _, role, _⟩ := n
  cases role with
  | definition | use => rfl
  | phi => cases notPhi

theorem isUse_or_isDefinition_of_cached? {n : Node} {c : Access} (cached : n.cached? = some c) :
    n.isUse = true ∨ n.isDefinition = true := by
  obtain ⟨_, _, role, _⟩ := n
  cases role with
  | definition => exact .inr rfl
  | use => exact .inl rfl
  | phi => cases cached

theorem operands_of_isPhi {n : Node} (isPhi : n.isPhi = true) :
    n.operands = n.incoming.map (·.2) := by
  obtain ⟨_, _, role, _⟩ := n
  cases role with
  | definition | use => cases isPhi
  | phi => rfl

theorem operands_of_link? {n : Node} {link : Link} (linked : n.link? = some link) :
    n.operands = link.defining.toList := by
  obtain ⟨_, _, role, _⟩ := n
  cases role with
  | definition | use =>
      cases linked
      rfl
  | phi => cases linked

theorem mem_operands_of_defining? {n : Node} {d : Access} (link : n.defining? = some d) :
    d ∈ n.operands := by
  obtain ⟨_, _, role, _⟩ := n
  cases role <;> simp_all [defining?, link?, operands]

end Kinds

/-! ## Parts of a node -/

section Parts

variable (n : Node)

@[simp] theorem block_outline : n.outline.block = n.block := rfl

@[simp] theorem inst?_outline : n.outline.inst? = n.inst? := by
  obtain ⟨_, _, role, _⟩ := n
  cases role <;> rfl

@[simp] theorem isUse_outline : n.outline.isUse = n.isUse := by
  obtain ⟨_, _, role, _⟩ := n
  cases role <;> rfl

@[simp] theorem isPhi_outline : n.outline.isPhi = n.isPhi := by
  obtain ⟨_, _, role, _⟩ := n
  cases role <;> rfl

@[simp] theorem isDefinition_outline : n.outline.isDefinition = n.isDefinition := by
  obtain ⟨_, _, role, _⟩ := n
  cases role <;> rfl

@[simp] theorem outline_forgotten : n.forgotten.outline = n.outline := by
  obtain ⟨_, _, role, _⟩ := n
  cases role <;> rfl

@[simp] theorem incoming_forgotten : n.forgotten.incoming = n.incoming := by
  obtain ⟨_, _, role, _⟩ := n
  cases role <;> rfl

@[simp] theorem cached?_forgotten : n.forgotten.cached? = none := by
  obtain ⟨_, _, role, _⟩ := n
  cases role <;> rfl

@[simp] theorem forgotten_forgotten : n.forgotten.forgotten = n.forgotten := by
  obtain ⟨_, _, role, _⟩ := n
  cases role <;> rfl

theorem ends_forgotten : n.forgotten.ends = n.ends := by
  obtain ⟨_, _, role, _⟩ := n
  cases role <;> rfl

variable {n} {m : Node}

@[simp] theorem operands_core : n.core.operands = n.operands := by
  obtain ⟨_, _, role, _⟩ := n
  cases role <;> rfl

theorem outline_core (n : Node) : n.core.outline = n.outline := by
  obtain ⟨_, _, role, _⟩ := n
  cases role <;> rfl

@[simp] theorem lasting_forgotten : n.forgotten.lasting = n.lasting := by
  obtain ⟨_, _, role, _⟩ := n
  cases role <;> rfl

@[simp] theorem lasting_withBlock (block : Block) : { n with block }.lasting = n.lasting := by
  obtain ⟨_, _, role, _⟩ := n
  cases role <;> rfl

theorem operands_congr (same : n.lasting = m.lasting) : n.operands = m.operands := by
  obtain ⟨_, _, role, _⟩ := n
  obtain ⟨_, _, role', _⟩ := m
  cases role <;> cases role' <;> simp_all [lasting, forgotten, mapLink, operands]

theorem defining?_congr (same : n.lasting = m.lasting) : n.defining? = m.defining? := by
  obtain ⟨_, _, role, _⟩ := n
  obtain ⟨_, _, role', _⟩ := m
  cases role <;> cases role' <;> simp_all [lasting, forgotten, mapLink, defining?, link?]

/-- What is known of a node from a part of it. -/
structure Alike (n m : Node) : Prop where
  block : m.block = n.block
  inst? : m.inst? = n.inst?
  isUse : m.isUse = n.isUse
  isPhi : m.isPhi = n.isPhi
  isDefinition : m.isDefinition = n.isDefinition
  defining? : m.defining? = n.defining?
  incoming : m.incoming = n.incoming

theorem Alike.of_common {k : Node} (first : n.Alike k) (second : m.Alike k) : n.Alike m where
  block := second.block.symm.trans first.block
  inst? := second.inst?.symm.trans first.inst?
  isUse := second.isUse.symm.trans first.isUse
  isPhi := second.isPhi.symm.trans first.isPhi
  isDefinition := second.isDefinition.symm.trans first.isDefinition
  defining? := second.defining?.symm.trans first.defining?
  incoming := second.incoming.symm.trans first.incoming

theorem alike_forgotten (n : Node) : n.Alike n.forgotten := by
  obtain ⟨_, _, role, _⟩ := n
  cases role <;> exact ⟨rfl, rfl, rfl, rfl, rfl, rfl, rfl⟩

theorem alike_core (n : Node) : n.Alike n.core := by
  obtain ⟨_, _, role, _⟩ := n
  cases role <;> exact ⟨rfl, rfl, rfl, rfl, rfl, rfl, rfl⟩

theorem Alike.of_forgotten (same : m.forgotten = n.forgotten) : n.Alike m :=
  .of_common n.alike_forgotten (same ▸ m.alike_forgotten)

theorem Alike.of_core (same : m.core = n.core) : n.Alike m :=
  .of_common n.alike_core (same ▸ m.alike_core)

end Parts

/-! ## Changes to a node -/

section Users

variable (n : Node) (f : List Access → List Access)

@[simp] theorem users_mapUsers : (n.mapUsers f).users = f n.users := rfl

@[simp] theorem operands_mapUsers : (n.mapUsers f).operands = n.operands := rfl

@[simp] theorem isUse_mapUsers : (n.mapUsers f).isUse = n.isUse := rfl

@[simp] theorem cached?_mapUsers : (n.mapUsers f).cached? = n.cached? := rfl

@[simp] theorem core_mapUsers : (n.mapUsers f).core = n.core := by
  obtain ⟨_, _, role, _⟩ := n
  cases role <;> rfl

@[simp] theorem lasting_mapUsers : (n.mapUsers f).lasting = n.lasting := by
  obtain ⟨_, _, role, _⟩ := n
  cases role <;> rfl

end Users

section Link

variable (n : Node) (f : Link → Link)

@[simp] theorem users_mapLink : (n.mapLink f).users = n.users := by
  obtain ⟨_, _, role, _⟩ := n
  cases role <;> rfl

@[simp] theorem isUse_mapLink : (n.mapLink f).isUse = n.isUse := by
  obtain ⟨_, _, role, _⟩ := n
  cases role <;> rfl

theorem outline_mapLink : (n.mapLink f).outline = n.outline := by
  obtain ⟨_, _, role, _⟩ := n
  cases role <;> rfl

theorem incoming_mapLink : (n.mapLink f).incoming = n.incoming := by
  obtain ⟨_, _, role, _⟩ := n
  cases role <;> rfl

theorem operands_mapLink {n : Node} {link : Link} (linked : n.link? = some link) (f : Link → Link) :
    (n.mapLink f).operands = (f link).defining.toList := by
  obtain ⟨_, _, role, _⟩ := n
  cases role with
  | definition | use =>
      cases linked
      rfl
  | phi => cases linked

theorem defining?_mapLink {n : Node} (notPhi : n.isPhi = false) (d : Access) :
    (n.mapLink ({ · with defining := some d })).defining? = some d := by
  obtain ⟨_, _, role, _⟩ := n
  cases role with
  | definition | use => rfl
  | phi => cases notPhi

@[simp] theorem cached?_mapLink_defining (d : Option Access) :
    (n.mapLink ({ · with defining := d })).cached? = n.cached? := by
  obtain ⟨_, _, role, _⟩ := n
  cases role <;> rfl

end Link

section Incoming

variable (n : Node) (f : List (Block × Access) → List (Block × Access))

@[simp] theorem users_mapIncoming : (n.mapIncoming f).users = n.users := by
  obtain ⟨_, _, role, _⟩ := n
  cases role <;> rfl

@[simp] theorem isUse_mapIncoming : (n.mapIncoming f).isUse = n.isUse := by
  obtain ⟨_, _, role, _⟩ := n
  cases role <;> rfl

theorem isPhi_mapIncoming : (n.mapIncoming f).isPhi = n.isPhi := by
  obtain ⟨_, _, role, _⟩ := n
  cases role <;> rfl

theorem outline_mapIncoming : (n.mapIncoming f).outline = n.outline := by
  obtain ⟨_, _, role, _⟩ := n
  cases role <;> rfl

theorem defining?_mapIncoming : (n.mapIncoming f).defining? = n.defining? := by
  obtain ⟨_, _, role, _⟩ := n
  cases role <;> rfl

@[simp] theorem cached?_mapIncoming : (n.mapIncoming f).cached? = n.cached? := by
  obtain ⟨_, _, role, _⟩ := n
  cases role <;> rfl

variable {n} {f}

theorem incoming_mapIncoming (isPhi : n.isPhi = true)
    (f : List (Block × Access) → List (Block × Access)) :
    (n.mapIncoming f).incoming = f n.incoming := by
  obtain ⟨_, _, role, _⟩ := n
  cases role with
  | definition | use => cases isPhi
  | phi => rfl

theorem operands_mapIncoming (isPhi : n.isPhi = true)
    (f : List (Block × Access) → List (Block × Access)) :
    (n.mapIncoming f).operands = (f n.incoming).map (·.2) := by
  obtain ⟨_, _, role, _⟩ := n
  cases role with
  | definition | use => cases isPhi
  | phi => rfl

theorem mapIncoming_mapIncoming (f f' : List (Block × Access) → List (Block × Access)) :
    (n.mapIncoming f).mapIncoming f' = n.mapIncoming fun incoming => f' (f incoming) := by
  obtain ⟨_, _, role, _⟩ := n
  cases role <;> rfl

theorem mapIncoming_congr {f' : List (Block × Access) → List (Block × Access)}
    (same : f n.incoming = f' n.incoming) : n.mapIncoming f = n.mapIncoming f' := by
  obtain ⟨_, _, role, _⟩ := n
  cases role with
  | definition | use => rfl
  | phi incoming =>
      have same : f incoming = f' incoming := same
      simp [mapIncoming, same]

theorem mapIncoming_id : n.mapIncoming id = n := by
  obtain ⟨_, _, role, _⟩ := n
  cases role <;> rfl

end Incoming

section Operands

variable {n : Node} {f : Access → Access} {old new : Access}

theorem core_mapOperands : (n.mapOperands f).core = n.core.mapOperands f := by
  obtain ⟨_, _, role, _⟩ := n
  cases role <;> rfl

@[simp] theorem operands_mapOperands : (n.mapOperands f).operands = n.operands.map f := by
  obtain ⟨_, _, role, _⟩ := n
  cases role with
  | definition _ link | use _ link => simp [operands, mapOperands, Option.toList_map]
  | phi incoming => simp [operands, mapOperands, Function.comp_def]

@[simp] theorem outline_mapOperands : (n.mapOperands f).outline = n.outline := by
  obtain ⟨_, _, role, _⟩ := n
  cases role <;> rfl

@[simp] theorem isUse_mapOperands : (n.mapOperands f).isUse = n.isUse := by
  rw [← isUse_outline, outline_mapOperands, isUse_outline]

@[simp] theorem isPhi_mapOperands : (n.mapOperands f).isPhi = n.isPhi := by
  rw [← isPhi_outline, outline_mapOperands, isPhi_outline]

@[simp] theorem inst?_mapOperands : (n.mapOperands f).inst? = n.inst? := by
  rw [← inst?_outline, outline_mapOperands, inst?_outline]

@[simp] theorem defining?_mapOperands : (n.mapOperands f).defining? = n.defining?.map f := by
  obtain ⟨_, _, role, _⟩ := n
  cases role <;> rfl

@[simp] theorem incoming_mapOperands :
    (n.mapOperands f).incoming = n.incoming.map fun (pred, value) => (pred, f value) := by
  obtain ⟨_, _, role, _⟩ := n
  cases role <;> rfl

theorem mapOperands_of_isPhi (isPhi : n.isPhi = true) :
    n.mapOperands f = n.mapIncoming (·.map fun (pred, value) => (pred, f value)) := by
  obtain ⟨_, _, role, _⟩ := n
  cases role with
  | definition | use => cases isPhi
  | phi => rfl

/-- To put another access in the place of one that is not referred to changes nothing. -/
theorem mapOperands_swap (absent : old ∉ n.operands) : n.mapOperands (Access.swap old new) = n := by
  have fixed : ∀ a ∈ n.operands, Access.swap old new a = a := by
    intro a member
    rw [Access.swap, if_neg]
    rintro rfl
    exact absent member
  obtain ⟨_, _, role, _⟩ := n
  cases role with
  | definition _ link | use _ link =>
      obtain ⟨defining, _⟩ := link
      cases defining with
      | none => rfl
      | some a => simp [mapOperands, fixed a (by simp [operands])]
  | phi incoming =>
      have same : incoming.map (fun (pred, value) => (pred, Access.swap old new value)) =
          incoming := by
        refine (List.map_congr_left fun (pred, value) flows => ?_).trans (List.map_id incoming)
        simp [fixed value (List.mem_map_of_mem flows)]
      simp [mapOperands, same]

end Operands

end Node

end MemoryFlow
