import MemoryFlow.Graph.Cache
import MemoryFlow.Graph.Order

/-! # The lists of a block

An access is put into the list of its block, and a definition or phi into the list of definitions
too. Nothing here looks at the order of the instructions: it is for the caller to name the right
place.
-/

namespace MemoryFlow

/-- Where to put an access in the lists of a block. -/
inductive Place where
  /-- Before all others, but after a phi unless it is a phi itself. -/
  | beginning
  /-- After all others. -/
  | ending
  deriving DecidableEq, Repr

/-- Put `a` directly before the first `b` of a list. -/
def insertAhead {α : Type} [BEq α] (a b : α) (list : List α) : List α :=
  list.takeWhile (· != b) ++ a :: list.dropWhile (· != b)

namespace Graph

/-- Put `a` after the phis at the head of a list. -/
def insertAfterPhis (g : Graph) (a : Access) : List Access → Except Fault (List Access)
  | [] => return [a]
  | b :: rest => do
      if (← g.node b).isPhi then return b :: (← g.insertAfterPhis a rest)
      else return a :: b :: rest

/-- The list with `a` put into place. -/
def placed (g : Graph) (a : Access) (isPhi : Bool) (place : Place) (list : List Access) :
    Except Fault (List Access) :=
  match place with
  | .beginning => if isPhi then return a :: list else g.insertAfterPhis a list
  | .ending => return list ++ [a]

/-- Take over the lists of `block` after `n` was put into them. -/
def relist (g : Graph) (n : Node) (block : Block) (list defList : List Access) : Graph :=
  let g := { g with lists := g.lists.insert block list }
  let g := if n.isUse then g else { g with defLists := g.defLists.insert block defList }.forgetAll
  g.unsettle block

def insert (g : Graph) (a : Access) (block : Block) (place : Place) : Except Fault Graph := do
  let n ← g.node a
  let g := g.modifyNode a ({ · with block })
  let list ← g.placed a n.isPhi place (g.accesses block)
  let defList ← if n.isUse then pure [] else g.placed a n.isPhi place (g.definitions block)
  return g.relist n block list defList

/-- The first access of a list that is not a use. -/
def firstDefinition? (g : Graph) : List Access → Except Fault (Option Access)
  | [] => return none
  | a :: rest => do
      if (← g.node a).isUse then g.firstDefinition? rest else return some a

/-- Put `a` into the lists of `block`, directly before `before`, or at the end if nothing is given.
Among the definitions it goes before the next one. -/
def insertBefore (g : Graph) (a : Access) (block : Block) (before : Option Access) :
    Except Fault Graph :=
  match before with
  | none => g.insert a block .ending
  | some before => do
      let n ← g.node a
      let g := g.modifyNode a ({ · with block })
      let list := g.accesses block
      if !list.contains before then throw (.notListed before block)
      let next ← if n.isUse then pure none else g.firstDefinition? (list.dropWhile (· != before))
      let defList := match next with
        | some next => insertAhead a next (g.definitions block)
        | none => g.definitions block ++ [a]
      return g.relist n block (insertAhead a before list) defList

/-- Take `a` out of the list of `block`; a list left empty goes too. -/
def unlistFrom (lists : Std.TreeMap Block (List Access)) (block : Block) (a : Access) :
    Std.TreeMap Block (List Access) :=
  match lists[block]? with
  | none => lists
  | some list =>
      match list.filter (· != a) with
      | [] => lists.erase block
      | rest => lists.insert block rest

def unlist (g : Graph) (a : Access) : Except Fault Graph := do
  let block := (← g.node a).block
  return { g with
    lists := unlistFrom g.lists block a
    defLists := unlistFrom g.defLists block a
    order := (g.order.drop a).unsettle block }

/-- Take a use or definition out of its lists, so that it can be put elsewhere. -/
def detach (g : Graph) (a : Access) : Except Fault Graph := do
  if (← g.node a).isPhi then throw .phiMoved
  (← g.forget a).unlist a

def move (g : Graph) (a : Access) (block : Block) (place : Place) : Except Fault Graph := do
  (← g.detach a).insert a block place

/-- Move a use or definition directly before `before`, or to the end if nothing is given. -/
def moveBefore (g : Graph) (a : Access) (block : Block) (before : Option Access) :
    Except Fault Graph := do
  (← g.detach a).insertBefore a block before

end Graph

end MemoryFlow
