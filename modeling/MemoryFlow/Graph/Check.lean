import MemoryFlow.Graph.Order
import MemoryFlow.Procedure

/-! # Checking a memory graph

`Graph.check?` looks for the first rule that the graph breaks: first whether the lists follow the
instructions, then whether references are in order, then whether definitions dominate their users.
-/

namespace MemoryFlow.Graph

/-- The accesses that a block should list: its phi, then those of its instructions. -/
def expected (g : Graph) (row : Layout.Row) : List Access :=
  (g.phi? row.block).toList ++ row.insts.filterMap g.access?

/-- Whether the lists of a block follow its instructions. -/
def checkRow? (g : Graph) (row : Layout.Row) : Except Fault (Option Violation) := do
  let expected := g.expected row
  if g.accesses row.block ≠ expected then return some (.ordering row.block)
  let defs ← expected.filterM fun a => do return !(← g.node a).isUse
  if g.definitions row.block ≠ defs then return some (.definitions row.block)
  return none

/-- The first answer that is not none. -/
def firstM? {m : Type → Type} [Monad m] {α β : Type} (f : α → m (Option β)) : List α → m (Option β)
  | [] => pure none
  | a :: rest => do
      match ← f a with
      | some b => pure (some b)
      | none => firstM? f rest

def checkLists? (g : Graph) (p : Procedure) : Except Fault (Option Violation) :=
  firstM? g.checkRow? p.layout.rows

/-- What is wrong with `user` referring to `a`. -/
def operandViolation? (g : Graph) (a user : Access) : Option Violation :=
  match g.node? a with
  | none => some (.missingDefining user)
  | some n =>
      if n.isUse then some (.useAsDefinition a user)
      else if !n.users.contains user then some (.missingUser a user)
      else none

/-- What is wrong with the references of an access. -/
def referenceViolation? (g : Graph) (a : Access) (n : Node) : Option Violation :=
  match n.role with
  | .definition _ link | .use _ link =>
      match link.defining with
      | some definition => g.operandViolation? definition a
      | none => if a = .liveOnEntry then none else some (.missingDefining a)
  | .phi incoming =>
      let preds := g.flow.preds n.block
      if incoming.length ≠ preds.length then
        some (.incompletePhi a n.block incoming.length preds.length)
      else
        incoming.findSome? fun (pred, value) =>
          if !preds.contains pred then some (.unknownPredecessor a pred)
          else g.operandViolation? value a

def checkReferences? (g : Graph) : Option Violation :=
  g.live.findSome? fun a => (g.node? a).bind (g.referenceViolation? a)

def checkUsers? (g : Graph) (a : Access) : Ordered (Option Violation) := do
  firstM?
    (fun user => do return if ← g.dominatesUse a user then none else some (.domination a user))
    (← g.node a).users

def checkDominance? (g : Graph) : Ordered (Option Violation) :=
  firstM? g.checkUsers? g.live

/-- The first rule that the graph breaks. -/
def check? (g : Graph) (p : Procedure) : Ordered (Option Violation) := do
  match ← g.checkLists? p with
  | some violation => return some violation
  | none =>
      match g.checkReferences? with
      | some violation => return some violation
      | none => g.checkDominance?

/-- Fault if the graph breaks a rule. -/
def assertValid (g : Graph) (p : Procedure) : Ordered Unit := do
  match ← g.check? p with
  | some violation => throw (.invalidGraph p.name violation)
  | none => return

end MemoryFlow.Graph
