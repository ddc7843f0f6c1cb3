import MemoryFlow.Alias.Oracle
import MemoryFlow.Graph.Basic

/-! # Clobbers

A definition clobbers a query if it may have written what the query observes. The state on entry
clobbers everything.
-/

namespace MemoryFlow

/-- What a search wants to know the clobber of. -/
inductive Query where
  /-- The memory that a call accesses. -/
  | call (inst : Inst)
  /-- The memory that an instruction other than a call accesses, at a location if it has one. -/
  | access (inst : Inst) (loc : Option Location)
  /-- A location, whoever accesses it. -/
  | location (loc : Location)
  deriving DecidableEq, Repr

namespace Query

def ofInst (p : Procedure) (inst : Inst) : Except Fault Query := do
  let op ← p.op inst
  return if op.isCall then .call inst else .access inst (Location.ofOp? op)

/-- The location observed, if it is a single one. -/
def loc? : Query → Option Location
  | .call _ => none
  | .access _ loc => loc
  | .location loc => some loc

end Query

/-- When a load may move above another. -/
inductive Reorder where
  | always
  /-- Only if the two loads share no byte. -/
  | ifDisjoint
  | never
  deriving DecidableEq, Repr

/-- When a load with the first qualifiers may move above a load with the second. Two volatile loads
stay in order; a sequentially consistent load does not move, and nothing moves above an acquire. -/
def Qualifiers.reorder (moving above : Qualifiers) : Reorder :=
  if moving.isVolatile && above.isVolatile then .never
  else if moving.order == .sequential || above.order.atLeast .acquire then .never
  else if moving.isVolatile || above.isVolatile then .ifDisjoint
  else .always

namespace Oracle

/-- Whether an operation other than an intrinsic, at `inst`, may have written what is at `loc`. A
load does so only in that another load may not move above it. -/
def mayDefine (o : Oracle) (p : Procedure) (inst : Inst) (op : Op) (user : Option Inst)
    (loc : Location) : Except Fault Bool := do
  let asEffect : Except Fault Bool := do return (← o.effectAt p inst loc).writes
  match op, user with
  | .load ptr size quals, some user =>
      match ← p.op user with
      | .load _ _ moving =>
          match moving.reorder quals with
          | .always => return false
          | .never => return true
          | .ifDisjoint => return !(← o.areDisjoint p ⟨ptr, some size⟩ loc)
      | _ => asEffect
  | _, _ => asEffect

/-- Whether the operation `op`, at `inst`, may have written what the query observes. Of the
intrinsics only the start of a lifetime defines memory, that which starts just there. -/
def opClobbers (o : Oracle) (p : Procedure) (inst : Inst) (op : Op) (q : Query) :
    Except Fault Bool :=
  match op with
  | .intrinsic .lifetimeStart args =>
      match args, q.loc? with
      | ptr :: _, some loc => o.areSame p (.behind ptr) loc
      | _, _ => return false
  | .intrinsic .. => return false
  | op =>
      match q with
      | .call call => do return (← o.effectOnCall p inst call).touches
      | .access _ none => return true
      | .access user (some loc) => o.mayDefine p inst op (some user) loc
      | .location loc => o.mayDefine p inst op none loc

end Oracle

namespace Graph

def clobbers (g : Graph) (p : Procedure) (o : Oracle) (a : Access) (q : Query) :
    Except Fault Bool := do
  match (← g.node a).inst? with
  | none => return true
  | some inst => o.opClobbers p inst (← p.op inst) q

/-- Whether the definition `a` may have written what the instruction of `user` accesses. -/
def clobbersAccess (g : Graph) (p : Procedure) (o : Oracle) (a user : Access) :
    Except Fault Bool := do
  if !(← g.node a).isDefinition then throw (.notDefinition a)
  match (← g.node user).inst? with
  | none => return true
  | some inst => g.clobbers p o a (← Query.ofInst p inst)

end Graph

end MemoryFlow
