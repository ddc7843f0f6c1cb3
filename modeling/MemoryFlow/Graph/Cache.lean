import MemoryFlow.Graph.Basic

/-! # Cached clobbers

The clobber found for a use or definition is kept in its link. An index from clobbers to the
accesses that name them makes it possible to forget every answer that names a clobber.

A search may pass through definitions in blocks that do not dominate the access it started from, so
a change to any definition or phi makes every answer doubtful.
-/

namespace MemoryFlow.Graph

/-- Take `a` out of the index of `clobber`. -/
def unindex (g : Graph) (clobber a : Access) : Graph :=
  match g.cachedBy[clobber]? with
  | none => g
  | some dependents =>
      match dependents.filter (· != a) with
      | [] => { g with cachedBy := g.cachedBy.erase clobber }
      | rest => { g with cachedBy := g.cachedBy.insert clobber rest }

/-- Put `a` into the index of `clobber`, unless it is there. -/
def index (g : Graph) (clobber a : Access) : Graph :=
  let dependents := g.cachedBy.getD clobber []
  if dependents.contains a then g
  else { g with cachedBy := g.cachedBy.insert clobber (dependents ++ [a]) }

/-- Set the cached clobber of `a` without regard to the index. -/
def setCached (g : Graph) (a : Access) (cached : Option Access) : Graph :=
  g.modifyNode a (·.mapLink ({ · with cached }))

/-- Keep `clobber` as the answer for `a`. A phi has no answer to keep. -/
def cache (g : Graph) (a clobber : Access) : Except Fault Graph := do
  let n ← g.node a
  match n.link? with
  | none => return g
  | some link =>
      let g := match link.cached with
        | some old => if old = clobber then g else g.unindex old a
        | none => g
      return (g.setCached a (some clobber)).index clobber a

def forget (g : Graph) (a : Access) : Except Fault Graph := do
  let n ← g.node a
  match n.cached? with
  | none => return g
  | some old => return (g.setCached a none).unindex old a

/-- Forget every answer that names `clobber`. -/
def forgetNaming (g : Graph) (clobber : Access) : Graph :=
  let dependents := g.cachedBy.getD clobber []
  let g := { g with cachedBy := g.cachedBy.erase clobber }
  dependents.foldl
    (fun g a => if (g.node? a).any (·.cached? == some clobber) then g.setCached a none else g) g

/-- The accesses that the index names, whatever their clobber. -/
def named (g : Graph) : List Access :=
  g.cachedBy.toList.flatMap (·.2)

/-- Forget every answer, by way of the index. -/
def forgetAll (g : Graph) : Graph :=
  { g with
    cachedBy := {}
    nodes := g.named.foldl (fun nodes a =>
      nodes.modify a.index (Option.map (·.mapLink ({ · with cached := none })))) g.nodes }

end MemoryFlow.Graph
