import MemoryFlow.Dominance.Spanning

/-! # Semidominators and immediate dominators

The semidominator of a vertex is the least vertex from which it can be reached through higher
vertices. Vertices are treated from the last to the first. Those already treated form a forest, in
which `Links.eval` finds the ancestor with the least semidominator; it shortens the paths it climbs,
so that later searches climb less.

The immediate dominator of a vertex is the nearest spanning tree ancestor that is not above its
semidominator.
-/

namespace MemoryFlow

/-- The forest of treated vertices. -/
structure Links where
  /-- A vertex on the path to the root of the spanning tree. -/
  ancestors : Array Nat
  /-- The vertex with the least semidominator on the way from a vertex up to its ancestor, the
  ancestor left out. -/
  labels : Array Nat
  /-- The semidominator of each vertex treated, and the vertex itself of each other. -/
  semis : Array Nat
  deriving DecidableEq, Repr

namespace Links

/-- No vertex of the spanning tree is treated yet. -/
def ofSpanning (s : Spanning) : Links where
  ancestors := s.vertices.map (·.parent)
  labels := Array.range s.vertices.size
  semis := Array.range s.vertices.size

def ancestor (l : Links) (v : Nat) : Nat :=
  l.ancestors.getD v 0

def label (l : Links) (v : Nat) : Nat :=
  l.labels.getD v 0

def semi (l : Links) (v : Nat) : Nat :=
  l.semis.getD v 0

def setSemi (l : Links) (v semi : Nat) : Links :=
  { l with semis := l.semis.setIfInBounds v semi }

/-- The vertices passed on the way from `v` up to the first whose ancestor is below `bound`, the
last of them first, and where the way ends. The fuel bounds the length of the way. -/
def wayUp (l : Links) (bound : Nat) : Nat → Nat → List Nat → List Nat × Nat
  | 0, v, passed => (passed, v)
  | fuel + 1, v, passed =>
      if l.ancestor v < bound then (passed, v)
      else l.wayUp bound fuel (l.ancestor v) (v :: passed)

/-- Put every vertex passed directly below the ancestor of the one above it, and let its label take
account of the step left out. The vertex above the first is `above`, and its label `least`. -/
def shorten (l : Links) (above least : Nat) : List Nat → Links
  | [] => l
  | v :: passed =>
      let l := { l with ancestors := l.ancestors.setIfInBounds v (l.ancestor above) }
      if l.semi least < l.semi (l.label v) then
        { l with labels := l.labels.setIfInBounds v (l.label above) }.shorten v least passed
      else l.shorten v (l.label v) passed

/-- The vertex with the least semidominator among `v` and its ancestors numbered `bound` or more;
a vertex that has no such ancestor gives its own label. -/
def eval (l : Links) (bound v : Nat) : Nat × Links :=
  if l.ancestor v < bound then (l.label v, l)
  else
    let (passed, top) := l.wayUp bound v v []
    let l := l.shorten top (l.label top) passed
    (l.label v, l)

/-- Let vertex `v` be reached over an edge from `source`. -/
def relax (v : Nat) (l : Links) (source : Nat) : Links :=
  let (u, l) := l.eval (v + 1) source
  if l.semi u < l.semi v then l.setSemi v (l.semi u) else l

/-- Find the semidominator of vertex `v`, all higher ones being treated. -/
def treat (s : Spanning) (v : Nat) (l : Links) : Links :=
  (s.sources v).foldl (relax v) (l.setSemi v (l.ancestor v))

/-- Treat the vertices from `v` down to 1. -/
def treatFrom (s : Spanning) : Nat → Links → Links
  | 0, l => l
  | v + 1, l => treatFrom s v (treat s (v + 1) l)

end Links

namespace Spanning

def semidominators (s : Spanning) : Array Nat :=
  (Links.treatFrom s (s.vertices.size - 1) (Links.ofSpanning s)).semis

/-- Climb from `v` along the dominators found so far to a vertex that is not above `bound`. The fuel
bounds the length of the path. -/
def climb (idoms : Array Nat) (bound : Nat) : Nat → Nat → Nat
  | 0, v => v
  | fuel + 1, v => if bound < v then climb idoms bound fuel (idoms.getD v 0) else v

/-- The immediate dominator of every vertex; that of the root is itself. -/
def idoms (s : Spanning) : Array Nat :=
  let semis := s.semidominators
  (List.range s.vertices.size).foldl
    (fun idoms v => idoms.push (climb idoms (semis.getD v 0) (s.parent v) (s.parent v))) #[]

end Spanning

end MemoryFlow
