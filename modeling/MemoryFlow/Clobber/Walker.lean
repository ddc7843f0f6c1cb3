import MemoryFlow.Clobber.Audit
import MemoryFlow.Graph.Cache

/-! # Walkers

A walker answers which access may have written what another one observes. The searching walker keeps
its answers in the graph, the plain one answers with the defining access and does no work.
-/

namespace MemoryFlow

/-- How much work an answer took. -/
inductive Effort where
  /-- No search. -/
  | none
  /-- A search up one chain. -/
  | chain
  /-- A search that came to a phi. -/
  | phis
  deriving DecidableEq, Repr

namespace Graph

/-- Where the search for the clobber of `start` begins: at its defining access if it is a use. -/
def bottomOf (g : Graph) (start : Access) : Except Fault Access := do
  match (← g.node start).role with
  | .use _ link =>
      match link.defining with
      | some above => return above
      | none => throw .useWithoutDefining
  | _ => return start

/-- The clobber of a query, searched up from a definition or phi. -/
def searchUp (g : Graph) (p : Procedure) (o : Oracle) (q : Query) (bottom : Access) :
    Ordered (Access × Effort) := do
  match ← g.walkUp p o q none g.walkBound bottom with
  | .clobber c => return (c, .chain)
  | .phi phi => return (← g.lookThrough p o q g.walkBound 0 phi { paused := [[]] }, .phis)
  | .target => throw .chainEndsEarly

/-- The clobber of a query, searched from `start`, or from its defining access if it is a use. -/
def findClobber (g : Graph) (p : Procedure) (o : Oracle) (q : Query) (start : Access) :
    Ordered (Access × Effort) := do
  let bottom ← g.bottomOf start
  let found ← g.searchUp p o q bottom
  if g.config.auditClobbers then g.audit p o q bottom found.1
  return found

/-- Whether an instruction is a load that nothing in the procedure clobbers. -/
def readsConstant (p : Procedure) (o : Oracle) (inst : Inst) : Except Fault Bool := do
  match ← p.op inst with
  | .load ptr size quals =>
      if quals.isInvariant then return true else o.constant p ⟨ptr, some size⟩ false
  | _ => return false

/-- The clobber of an access, from the cache or else by a search whose answer is cached. Phis,
fences and the state on entry are their own. -/
def clobberOf (g : Graph) (p : Procedure) (o : Oracle) (a : Access) :
    Except Fault (Access × Effort × Graph) := do
  let n ← g.node a
  match n.inst?, n.cached? with
  | none, _ => return (a, .none, g)
  | some _, some clobber => return (clobber, .none, g)
  | some inst, none =>
      if (← p.op inst).isFence then return (a, .none, g)
      else if ← readsConstant p o inst then
        return (.liveOnEntry, .none, ← g.cache a .liveOnEntry)
      else
        let defining := n.defining?.getD .liveOnEntry
        if defining = .liveOnEntry then return (defining, .none, ← g.cache a defining)
        let ((clobber, effort), g) ← g.ask (g.findClobber p o (← Query.ofInst p inst) defining)
        return (clobber, effort, ← g.cache a clobber)

/-- The nearest access at or above `a` that clobbers a location. Nothing is cached. -/
def clobberAt (g : Graph) (p : Procedure) (o : Oracle) (a : Access) (loc : Location) :
    Except Fault (Access × Effort × Graph) := do
  match (← g.node a).inst? with
  | none => return (a, .none, g)
  | some inst =>
      if (← p.op inst).isFence then return (a, .none, g)
      else
        let ((clobber, effort), g) ← g.ask (g.findClobber p o (.location loc) a)
        return (clobber, effort, g)

/-- The defining access of a use or definition; a phi or the state on entry is its own answer. -/
def plainClobberOf (g : Graph) (a : Access) : Except Fault Access := do
  return (← g.node a).defining?.getD a

/-- The defining access of a use, and any other access itself. -/
def plainClobberAt (g : Graph) (a : Access) : Except Fault Access := do
  if (← g.node a).isUse then g.plainClobberOf a else return a

end Graph

/-- The state of a searching walker, apart from the graph. -/
structure Walker where
  /-- Whether working space is given back after every search. -/
  autoRelease : Bool := true
  /-- Whether the walker holds working space: a search has come to a phi since it was given back. -/
  holdsScratch : Bool := false
  deriving DecidableEq, Repr

namespace Walker

/-- Give back the working space. -/
def release (w : Walker) : Walker :=
  { w with holdsScratch := false }

/-- The walker after an answer that took this effort. -/
def after (w : Walker) : Effort → Walker
  | .none => w
  | .chain => if w.autoRelease then w.release else w
  | .phis => { w with holdsScratch := !w.autoRelease }

def clobberOf (w : Walker) (g : Graph) (p : Procedure) (o : Oracle) (a : Access) :
    Except Fault (Access × Walker × Graph) := do
  let (clobber, effort, g) ← g.clobberOf p o a
  return (clobber, w.after effort, g)

def clobberAt (w : Walker) (g : Graph) (p : Procedure) (o : Oracle) (a : Access) (loc : Location) :
    Except Fault (Access × Walker × Graph) := do
  let (clobber, effort, g) ← g.clobberAt p o a loc
  return (clobber, w.after effort, g)

end Walker

end MemoryFlow
