import MemoryFlow.Alias.Chain
import MemoryFlow.Alias.Location
import MemoryFlow.Alias.Object
import MemoryFlow.Alias.Oracle
import MemoryFlow.Clobber.Audit
import MemoryFlow.Clobber.Query
import MemoryFlow.Clobber.Refine
import MemoryFlow.Clobber.Search
import MemoryFlow.Clobber.Walker
import MemoryFlow.Dominance.Frontier
import MemoryFlow.Dominance.Semidominator
import MemoryFlow.Dominance.Spanning
import MemoryFlow.Dominance.Text
import MemoryFlow.Dominance.Tree
import MemoryFlow.Draft
import MemoryFlow.Effect
import MemoryFlow.Entity
import MemoryFlow.Fault
import MemoryFlow.FlowGraph
import MemoryFlow.Graph.Basic
import MemoryFlow.Graph.Build
import MemoryFlow.Graph.Cache
import MemoryFlow.Graph.Check
import MemoryFlow.Graph.Listing
import MemoryFlow.Graph.Node
import MemoryFlow.Graph.Order
import MemoryFlow.Graph.Reference
import MemoryFlow.Graph.Rename
import MemoryFlow.Graph.Text
import MemoryFlow.Graph.Update
import MemoryFlow.Layout
import MemoryFlow.MemOrder
import MemoryFlow.Op
import MemoryFlow.Procedure
import MemoryFlow.Procedure.Defect
import MemoryFlow.Procedure.Text
import MemoryFlow.Proofs.Alias.Chain
import MemoryFlow.Proofs.Alias.Lookup
import MemoryFlow.Proofs.Alias.Object
import MemoryFlow.Proofs.Alias.Offset
import MemoryFlow.Proofs.Alias.Reading
import MemoryFlow.Proofs.Alias.Usual
import MemoryFlow.Proofs.Basic
import MemoryFlow.Proofs.Clobber.Agreement
import MemoryFlow.Proofs.Clobber.Answer
import MemoryFlow.Proofs.Clobber.Audit
import MemoryFlow.Proofs.Clobber.CheckLimit
import MemoryFlow.Proofs.Clobber.Execution
import MemoryFlow.Proofs.Clobber.Footprint
import MemoryFlow.Proofs.Clobber.Frame
import MemoryFlow.Proofs.Clobber.Interchange
import MemoryFlow.Proofs.Clobber.Refine
import MemoryFlow.Proofs.Clobber.Search
import MemoryFlow.Proofs.Clobber.Service
import MemoryFlow.Proofs.Clobber.Target
import MemoryFlow.Proofs.Clobber.Topmost
import MemoryFlow.Proofs.Clobber.Uniform
import MemoryFlow.Proofs.Clobber.Walk
import MemoryFlow.Proofs.Clobber.Walker
import MemoryFlow.Proofs.Dominance.Ancestor
import MemoryFlow.Proofs.Dominance.Compression
import MemoryFlow.Proofs.Dominance.DepthFirst
import MemoryFlow.Proofs.Dominance.Frontier
import MemoryFlow.Proofs.Dominance.Immediate
import MemoryFlow.Proofs.Dominance.Interval
import MemoryFlow.Proofs.Dominance.Meet
import MemoryFlow.Proofs.Dominance.Nesting
import MemoryFlow.Proofs.Dominance.PostDominance
import MemoryFlow.Proofs.Dominance.Preorder
import MemoryFlow.Proofs.Dominance.Roots
import MemoryFlow.Proofs.Dominance.Semidominator
import MemoryFlow.Proofs.Dominance.Spanning
import MemoryFlow.Proofs.Dominance.Traversal
import MemoryFlow.Proofs.Dominance.Tree
import MemoryFlow.Proofs.Graph.Build
import MemoryFlow.Proofs.Graph.Cache
import MemoryFlow.Proofs.Graph.CacheIndex
import MemoryFlow.Proofs.Graph.Chain
import MemoryFlow.Proofs.Graph.Check
import MemoryFlow.Proofs.Graph.Construction
import MemoryFlow.Proofs.Graph.Creation
import MemoryFlow.Proofs.Graph.Descent
import MemoryFlow.Proofs.Graph.Edit
import MemoryFlow.Proofs.Graph.Exact
import MemoryFlow.Proofs.Graph.Execution
import MemoryFlow.Proofs.Graph.Index
import MemoryFlow.Proofs.Graph.Linking
import MemoryFlow.Proofs.Graph.Listing
import MemoryFlow.Proofs.Graph.Lockstep
import MemoryFlow.Proofs.Graph.Node
import MemoryFlow.Proofs.Graph.Numbering
import MemoryFlow.Proofs.Graph.Order
import MemoryFlow.Proofs.Graph.Passed
import MemoryFlow.Proofs.Graph.Reference
import MemoryFlow.Proofs.Graph.Removal
import MemoryFlow.Proofs.Graph.Renaming
import MemoryFlow.Proofs.Graph.Replacement
import MemoryFlow.Proofs.Graph.Retention
import MemoryFlow.Proofs.Graph.Rewiring
import MemoryFlow.Proofs.Graph.Settled
import MemoryFlow.Proofs.Graph.Shape
import MemoryFlow.Proofs.Graph.Stack
import MemoryFlow.Proofs.Graph.Tracking
import MemoryFlow.Proofs.Graph.Update
import MemoryFlow.Proofs.Postorder
import MemoryFlow.Proofs.Procedure.Accepted
import MemoryFlow.Proofs.Procedure.Defect
import MemoryFlow.Proofs.Procedure.Draft
import MemoryFlow.Proofs.Procedure.Layout
import MemoryFlow.Proofs.Route
import MemoryFlow.Table
import MemoryFlow.Violation
