/-! # Effects on memory

An `Effect` says whether memory may be read and whether it may be written. A `Behavior` says the
same of a whole callee, together with whether it keeps to the memory behind its arguments.
-/

namespace MemoryFlow

/-- What an instruction may do to memory, or to one place in it. -/
structure Effect where
  /-- Whether memory may be read. -/
  reads : Bool
  /-- Whether memory may be written. -/
  writes : Bool
  deriving DecidableEq, Repr

namespace Effect

def none : Effect := ⟨false, false⟩

/-- Memory may be read and is not written. -/
def read : Effect := ⟨true, false⟩

/-- Memory may be written and is not read. -/
def write : Effect := ⟨false, true⟩

def readWrite : Effect := ⟨true, true⟩

/-- Whether memory may be touched at all. -/
def touches (e : Effect) : Bool :=
  e.reads || e.writes

/-- What two bounds on one effect leave possible. -/
def meet (a b : Effect) : Effect :=
  ⟨a.reads && b.reads, a.writes && b.writes⟩

/-- What two effects may do together. -/
def join (a b : Effect) : Effect :=
  ⟨a.reads || b.reads, a.writes || b.writes⟩

def name : Effect → String
  | ⟨false, false⟩ => "none"
  | ⟨true, false⟩ => "ref"
  | ⟨false, true⟩ => "mod"
  | ⟨true, true⟩ => "modref"

end Effect

/-- What is known of a callee's dealings with memory. -/
inductive Behavior where
  /-- It neither reads nor writes. -/
  | noAccess
  /-- It only reads, and only behind its arguments. -/
  | readsArguments
  /-- It reads and writes only behind its arguments. -/
  | accessesArguments
  /-- It only reads. -/
  | reads
  /-- Nothing is known. -/
  | unknown
  deriving DecidableEq, Repr

namespace Behavior

/-- Whether memory is never written. -/
def onlyReads : Behavior → Bool
  | .noAccess | .readsArguments | .reads => true
  | .accessesArguments | .unknown => false

/-- Whether the memory touched lies behind the arguments. -/
def onlyArguments : Behavior → Bool
  | .readsArguments | .accessesArguments => true
  | .noAccess | .reads | .unknown => false

/-- The behaviour of a callee that has both behaviours. -/
def meet (a b : Behavior) : Behavior :=
  if a = .noAccess ∨ b = .noAccess then .noAccess
  else match a.onlyReads || b.onlyReads, a.onlyArguments || b.onlyArguments with
    | true, true => .readsArguments
    | true, false => .reads
    | false, true => .accessesArguments
    | false, false => .unknown

/-- The effect of a call to a callee that behaves so. -/
def effect : Behavior → Effect
  | .noAccess => .none
  | .readsArguments | .reads => .read
  | .accessesArguments | .unknown => .readWrite

def name : Behavior → String
  | .noAccess => "none"
  | .readsArguments => "reads_args"
  | .accessesArguments => "accesses_args"
  | .reads => "reads"
  | .unknown => "unknown"

end Behavior

end MemoryFlow
