import MemoryFlow.Entity

/-! # Nodes of a memory graph

All of memory is one variable. Every instruction that may write it is a definition, every other one
that may read it is a use, and where several definitions flow together a phi merges them. A use or
definition is linked to its defining access, the definition or phi that holds when it is reached.
-/

namespace MemoryFlow

/-- What ties a use or definition to the accesses above it. -/
structure Link where
  /-- The definition or phi that holds just before the access. -/
  defining : Option Access := none
  /-- The clobber found for the access by an earlier search, while it is known to hold. -/
  cached : Option Access := none
  deriving DecidableEq, Repr

inductive Role where
  /-- It may write memory. Only the state on entry stands for no instruction. -/
  | definition (inst : Option Inst) (link : Link)
  /-- It reads memory and does not write it. -/
  | use (inst : Inst) (link : Link)
  /-- It merges the definitions that flow in from the predecessors of a block. -/
  | phi (incoming : List (Block × Access))
  deriving DecidableEq, Repr

/-- An access with all that the graph knows of it. -/
structure Node where
  /-- The number it is written with: one of its own for a definition or phi, zero for a use. -/
  number : Nat
  block : Block
  role : Role
  /-- The accesses that refer to this one, once for each time they do. -/
  users : List Access := []
  deriving DecidableEq, Repr

namespace Node

def isDefinition (n : Node) : Bool :=
  match n.role with
  | .definition .. => true
  | _ => false

def isUse (n : Node) : Bool :=
  match n.role with
  | .use .. => true
  | _ => false

def isPhi (n : Node) : Bool :=
  match n.role with
  | .phi _ => true
  | _ => false

/-- The link of a use or definition. -/
def link? (n : Node) : Option Link :=
  match n.role with
  | .definition _ link | .use _ link => some link
  | .phi _ => none

/-- The instruction the access stands for. -/
def inst? (n : Node) : Option Inst :=
  match n.role with
  | .definition inst _ => inst
  | .use inst _ => some inst
  | .phi _ => none

def defining? (n : Node) : Option Access :=
  n.link?.bind (·.defining)

def cached? (n : Node) : Option Access :=
  n.link?.bind (·.cached)

/-- The values that flow into a phi, each with the block it comes from. -/
def incoming (n : Node) : List (Block × Access) :=
  match n.role with
  | .phi incoming => incoming
  | _ => []

def incomingFrom? (n : Node) (pred : Block) : Option Access :=
  n.incoming.lookup pred

/-- The one value that flows into a phi, if there is just one. -/
def uniqueIncoming? (n : Node) : Option Access :=
  match n.incoming with
  | [] => none
  | (_, first) :: rest => if rest.all (·.2 == first) then some first else none

/-- The accesses that this one refers to. -/
def operands (n : Node) : List Access :=
  match n.role with
  | .definition _ link | .use _ link => link.defining.toList
  | .phi incoming => incoming.map (·.2)

def mapLink (n : Node) (f : Link → Link) : Node :=
  match n.role with
  | .definition inst link => { n with role := .definition inst (f link) }
  | .use inst link => { n with role := .use inst (f link) }
  | .phi _ => n

def mapIncoming (n : Node) (f : List (Block × Access) → List (Block × Access)) : Node :=
  match n.role with
  | .phi incoming => { n with role := .phi (f incoming) }
  | _ => n

end Node

end MemoryFlow
