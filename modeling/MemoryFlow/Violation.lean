import MemoryFlow.Entity

/-! # Violations found by checking a memory graph

Each constructor is one way in which a memory graph can disagree with its procedure or with itself.
-/

namespace MemoryFlow

/-- One broken rule of a memory graph. -/
inductive Violation where
  /-- The access list of a block does not follow the block's instructions. -/
  | ordering (block : Block)
  /-- The definition list of a block is not the definitions of its access list. -/
  | definitions (block : Block)
  /-- A phi has too many or too few incoming values. -/
  | incompletePhi (phi : Access) (block : Block) (incoming predecessors : Nat)
  /-- A phi has an incoming value from a block that is no predecessor. -/
  | unknownPredecessor (phi : Access) (pred : Block)
  /-- A definition does not dominate one of its users. -/
  | domination (definition user : Access)
  /-- An access refers to a definition that does not list it. -/
  | missingUser (definition user : Access)
  /-- An access has no live defining access. -/
  | missingDefining (access : Access)
  /-- An access refers to a use as though it were a definition. -/
  | useAsDefinition (used user : Access)
  deriving DecidableEq, Repr

def Violation.message : Violation → String
  | .ordering block => s!"the accesses of {block} are out of sync with its instructions"
  | .definitions block => s!"the definitions of {block} are out of sync with its access list"
  | .incompletePhi phi block incoming predecessors =>
      s!"{phi} has {incoming} incoming values, but {block} has {predecessors} predecessors"
  | .unknownPredecessor phi pred =>
      s!"{phi} has an incoming value from {pred}, which is not a predecessor of its block"
  | .domination definition user => s!"{definition} does not dominate its user {user}"
  | .missingUser definition user =>
      s!"{user} refers to {definition}, but is missing from its users"
  | .missingDefining access => s!"{access} has no defining access"
  | .useAsDefinition used user =>
      s!"{used} is a memory use, but {user} refers to it as a definition"

end MemoryFlow
