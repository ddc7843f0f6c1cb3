import MemoryFlow.Violation

/-! # Faults

A fault is an operation applied where its contract does not allow it. An operation that faults has
no result, so every operation with a contract answers in `Except Fault`.
-/

namespace MemoryFlow

/-- The ways in which a contract can be broken. -/
inductive Fault where
  /-- An index names no member of its table. -/
  | outOfBounds
  /-- A block was placed twice. -/
  | blockPlaced (block : Block)
  /-- A block must be placed before instructions go into it. -/
  | blockNotPlaced (block : Block)
  /-- An instruction was placed twice. -/
  | instPlaced (inst : Inst)
  /-- The instruction to insert in front of is not placed. -/
  | insertionPointNotPlaced
  /-- The instruction to take out is not placed. -/
  | nothingToRemove
  /-- An instruction is not in the list of the block that it is said to be in. -/
  | layoutOutOfSync
  /-- An instruction was appended to a draft before a block was selected. -/
  | noBlockSelected
  /-- An access was looked up that is no longer, or never was, in the graph. -/
  | removedAccess (access : Access)
  /-- A block can have one phi only. -/
  | phiExists (block : Block)
  /-- Only definitions and phis define memory. -/
  | useAsDefining
  /-- Only definitions and phis flow into a phi. -/
  | useAsIncoming
  /-- The access should be a phi. -/
  | notPhi (access : Access)
  /-- The access should be a definition. -/
  | notDefinition (access : Access)
  /-- A phi has incoming values in place of a defining access. -/
  | phiHasNoDefining (access : Access)
  /-- A phi stays at the head of its block. -/
  | phiMoved
  /-- An access stands for a placed instruction. -/
  | instNotPlaced (inst : Inst)
  /-- An access stands for an instruction that reads or writes memory. -/
  | memoryUntouched (inst : Inst)
  /-- The access to insert in front of is not listed in the block. -/
  | notListed (access : Access) (block : Block)
  /-- The live-on-entry definition is permanent. -/
  | liveOnEntryRemoved
  /-- An access with users cannot be taken out. -/
  | stillUsed (access : Access)
  /-- The users of an access need another one in its place. -/
  | noReplacement (access : Access)
  /-- Renaming part of a graph needs every phi edge to exist. -/
  | incompletePhi (phi : Access)
  /-- A block was treated as unreachable but is not. -/
  | blockReachable (block : Block)
  /-- Local dominance was asked of accesses in two blocks. -/
  | differentBlocks (left right : Block)
  /-- An access is not in the list of the block it names. -/
  | notNumbered (block : Block)
  /-- A use has no defining access to start from. -/
  | useWithoutDefining
  /-- A chain of definitions ran into a use. -/
  | useOnChain
  /-- A chain of definitions ended before a clobber or a phi. -/
  | chainEndsEarly
  /-- A path that is blocked must have begun in an earlier round. -/
  | pathWithoutBeginning
  /-- A path that is blocked must have set out from the phi of the round. -/
  | pathFromElsewhere (last phi : Access)
  /-- The paths that came to the target must come to the end of a chain from there. -/
  | chainUnfinished
  /-- A chain without a clobber must end at a phi. -/
  | chainEndNotPhi (access : Access)
  /-- A clobber must dominate the access it clobbers. -/
  | clobberNotDominating (clobber start : Access)
  /-- Nothing is above the live-on-entry definition. -/
  | liveOnEntryClobbered
  /-- A path went past the clobber up to the entry. -/
  | clobberMissed (clobber : Access)
  /-- A path met a clobber below the answer. -/
  | earlierClobber (found clobber : Access)
  /-- A use was met in the middle of a walk. -/
  | useInsideWalk (found start : Access)
  /-- The answer clobbers nothing on any path. -/
  | neverClobbers (clobber : Access)
  /-- No definition holds, not even the live-on-entry definition. -/
  | nothingHolds
  /-- A use is among the definitions that hold. -/
  | useHolds
  /-- A clobber was sought among the definitions that hold and not found there. -/
  | clobberOffStack (clobber : Access)
  /-- More definitions are known to be harmless than hold. -/
  | boundOffStack
  /-- The definition remembered as a clobber no longer holds. -/
  | killOffStack
  /-- A graph that should be valid is not. -/
  | invalidGraph (procedure : String) (violation : Violation)
  /-- The operation runs forever. -/
  | diverges
  deriving DecidableEq, Repr

def Fault.message : Fault → String
  | .outOfBounds => "index out of bounds"
  | .blockPlaced block => s!"{block} is already in the layout"
  | .blockNotPlaced block => s!"{block} is not in the layout"
  | .instPlaced inst => s!"{inst} is already in the layout"
  | .insertionPointNotPlaced => "insertion point is not in the layout"
  | .nothingToRemove => "instruction is not in the layout"
  | .layoutOutOfSync => "layout is out of sync"
  | .noBlockSelected => "no block selected, call switch_to_block first"
  | .removedAccess access => s!"use of removed memory access {access}"
  | .phiExists block => s!"a memory phi already exists for {block}"
  | .useAsDefining => "a memory use cannot be a defining access"
  | .useAsIncoming => "a memory use cannot be a phi operand"
  | .notPhi access => s!"{access} is not a memory phi"
  | .notDefinition access => s!"{access} is not a memory definition"
  | .phiHasNoDefining access => s!"{access} is a phi, and has no single defining access"
  | .phiMoved => "memory phis cannot be moved"
  | .instNotPlaced inst => s!"{inst} is not in the layout"
  | .memoryUntouched inst => s!"{inst} does not touch memory"
  | .notListed access block => s!"{access} is not an access of {block}"
  | .liveOnEntryRemoved => "the live-on-entry definition cannot be removed"
  | .stillUsed access => s!"tried to remove {access}, which still has users"
  | .noReplacement access => s!"{access} has users, but no value to replace it with"
  | .incompletePhi phi => s!"incomplete phi {phi} during partial rename"
  | .blockReachable block => s!"reachable block {block} found while handling unreachable blocks"
  | .differentBlocks left right =>
      "assertion `left == right` failed: asking for local domination of accesses in different " ++
        s!"blocks\n  left: {left}\n right: {right}"
  | .notNumbered block => s!"{block} was not numbered properly"
  | .useWithoutDefining => "memory use without a defining access"
  | .useOnChain => "uses are never on a chain of definitions"
  | .chainEndsEarly => "walk ended at a non-clobber that is not a phi"
  | .pathWithoutBeginning => "every search started in this round continues an older path"
  | .pathFromElsewhere last phi =>
      "assertion `left == right` failed" ++ s!"\n  left: {last}\n right: {phi}"
  | .chainUnfinished => "paused searches always reach the end of the chain"
  | .chainEndNotPhi access => s!"{access} should be a phi"
  | .clobberNotDominating clobber start => s!"clobber {clobber} does not dominate {start}"
  | .liveOnEntryClobbered => "live-on-entry must clobber itself"
  | .clobberMissed clobber => s!"hit live-on-entry before reaching the clobber {clobber}"
  | .earlierClobber found clobber => s!"found clobber {found} before reaching {clobber}"
  | .useInsideWalk found start =>
      "assertion `left == right` failed: only the start of a walk can be a use" ++
        s!"\n  left: {found}\n right: {start}"
  | .neverClobbers clobber => s!"{clobber} never acted as a clobber"
  | .nothingHolds => "live-on-entry is always on the stack"
  | .useHolds => "internal error: entered unreachable code: uses are never on the version stack"
  | .clobberOffStack clobber => s!"{clobber} is not on the version stack"
  | .boundOffStack => "the checked height is above the version stack"
  | .killOffStack => "the last clobber is above the version stack"
  | .invalidGraph procedure violation =>
      s!"invalid memory ssa for '{procedure}': " ++ violation.message
  | .diverges => "the operation does not end"

end MemoryFlow
