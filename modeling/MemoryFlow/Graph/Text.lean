import MemoryFlow.Graph.Basic
import MemoryFlow.Procedure.Text

/-! # The text of a memory graph

A procedure is written with a note for each phi and each access of an instruction.
-/

namespace MemoryFlow.Graph

/-- How an access is referred to. -/
def operandText (g : Graph) (a : Access) : Except Fault String := do
  if a = .liveOnEntry then return "liveOnEntry"
  else return toString (← g.node a).number

def definingText (g : Graph) (link : Link) : Except Fault String :=
  g.operandText (link.defining.getD .liveOnEntry)

def edgeText (g : Graph) (p : Procedure) (edge : Block × Access) : Except Fault String := do
  return "\x7b" ++ p.blockName edge.1 ++ "," ++ (← g.operandText edge.2) ++ "\x7d"

/-- The text of an access, with blocks named as in the procedure. -/
def accessText (g : Graph) (p : Procedure) (a : Access) : Except Fault String := do
  let n ← g.node a
  match n.role with
  | .definition _ link =>
      return toString n.number ++ " = MemoryDef(" ++ (← g.definingText link) ++ ")"
  | .use _ link => return "MemoryUse(" ++ (← g.definingText link) ++ ")"
  | .phi incoming =>
      let edges ← incoming.mapM (g.edgeText p)
      return toString n.number ++ " = MemoryPhi(" ++ ",".intercalate edges ++ ")"

/-- The note for an access, where there is one. -/
def noteText (g : Graph) (p : Procedure) : Option Access → Except Fault String
  | none => return ""
  | some a => return "    ; " ++ (← g.accessText p a) ++ "\n"

def text (g : Graph) (p : Procedure) : Except Fault String :=
  p.textWith {
    atBlock := fun block => g.noteText p (g.phi? block)
    atInst := fun inst => g.noteText p (g.access? inst) }

end MemoryFlow.Graph
