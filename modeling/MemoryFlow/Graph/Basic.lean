import MemoryFlow.Dominance.Tree
import MemoryFlow.Graph.Node

/-! # Memory graphs

A memory graph holds the accesses of a procedure. Accesses are numbered in the order of their
creation, and a number is never used again after its access is removed. Each block lists its
accesses, and apart from them its definitions and phi, in program order.

The graph names instructions and blocks of a procedure but does not hold it: whoever changes one
keeps the other in step.
-/

namespace MemoryFlow

/-- How graphs are built and searched. -/
structure Config where
  /-- How many definitions may be looked at for a use when a graph is built. -/
  checkLimit : Nat := 100
  /-- Whether the clobber of every use is found when a graph is built. -/
  refineUses : Bool := true
  /-- Whether every clobber found is checked by a second, exhaustive search. -/
  auditClobbers : Bool := false
  deriving DecidableEq, Repr

/-- The places of accesses in the lists of their blocks, as far as they have been asked for. -/
structure LocalOrder where
  /-- The place of an access in its list, counted from one. -/
  places : Std.TreeMap Access Nat := {}
  /-- The blocks whose places are up to date. -/
  settled : Std.TreeSet Block := {}

/-- The accesses of a procedure. -/
structure Graph where
  config : Config
  flow : FlowGraph
  tree : Tree
  /-- Every access ever created; removed ones leave a gap. -/
  nodes : Array (Option Node)
  /-- The accesses of each block that has any, in program order. -/
  lists : Std.TreeMap Block (List Access) := {}
  /-- The definitions and phi of each block that has any, in program order. -/
  defLists : Std.TreeMap Block (List Access) := {}
  /-- The access of each instruction that has one. -/
  instAccess : Std.TreeMap Inst Access := {}
  /-- The phi of each block that has one. -/
  blockPhi : Std.TreeMap Block Access := {}
  order : LocalOrder := {}
  /-- For each access, those whose cached clobber it is. -/
  cachedBy : Std.TreeMap Access (List Access) := {}
  /-- The number that the next definition or phi is written with. -/
  nextNumber : Nat := 1

/-- The definition that stands for memory on entry to the procedure. -/
def Access.liveOnEntry : Access := ⟨0⟩

namespace Graph

/-- The graph that holds only memory on entry. -/
def start (config : Config) (flow : FlowGraph) (tree : Tree) (entry : Block) : Graph where
  config
  flow
  tree
  nodes := #[some { number := 0, block := entry, role := .definition none {} }]

/-- The contents of an access, unless it was removed. -/
def node? (g : Graph) (a : Access) : Option Node :=
  g.nodes[a.index]?.join

def node (g : Graph) (a : Access) : Except Fault Node :=
  match g.node? a with
  | some n => pure n
  | none => throw (.removedAccess a)

def isLive (g : Graph) (a : Access) : Bool :=
  (g.node? a).isSome

/-- The accesses in the graph, in the order of their creation. -/
def live (g : Graph) : List Access :=
  ((List.range g.nodes.size).map Entity.mk).filter g.isLive

def modifyNode (g : Graph) (a : Access) (f : Node → Node) : Graph :=
  { g with nodes := g.nodes.modify a.index (Option.map f) }

def addNode (g : Graph) (n : Node) : Graph × Access :=
  ({ g with nodes := g.nodes.push (some n) }, ⟨g.nodes.size⟩)

def access? (g : Graph) (inst : Inst) : Option Access :=
  g.instAccess[inst]?

def phi? (g : Graph) (block : Block) : Option Access :=
  g.blockPhi[block]?

/-- The accesses of a block, in program order. -/
def accesses (g : Graph) (block : Block) : List Access :=
  g.lists.getD block []

/-- The definitions and phi of a block, in program order. -/
def definitions (g : Graph) (block : Block) : List Access :=
  g.defLists.getD block []

/-- The values that flow into a phi from blocks that can be reached. -/
def reachableIncoming (g : Graph) (phi : Access) : Except Fault (List Access) := do
  let n ← g.node phi
  return (n.incoming.filter (g.tree.contains ·.1)).map (·.2)

end Graph

end MemoryFlow
