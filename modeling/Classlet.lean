import Classlet.Abort
import Classlet.Assembly
import Classlet.Code
import Classlet.Compile
import Classlet.Diagnostic
import Classlet.Dispatch
import Classlet.Entry
import Classlet.Generation.Decl
import Classlet.Generation.Expr
import Classlet.Generation.Program
import Classlet.Hierarchy
import Classlet.Instruction
import Classlet.Instruction.Reader
import Classlet.Layout
import Classlet.Machine
import Classlet.Operator
import Classlet.Problem
import Classlet.Proofs.Acceptance
import Classlet.Proofs.Accepted
import Classlet.Proofs.Ancestry
import Classlet.Proofs.Balance
import Classlet.Proofs.Basic
import Classlet.Proofs.Bodies
import Classlet.Proofs.Bounds
import Classlet.Proofs.Brackets
import Classlet.Proofs.Calls
import Classlet.Proofs.Chains
import Classlet.Proofs.Comparisons
import Classlet.Proofs.Conformance
import Classlet.Proofs.Containment
import Classlet.Proofs.Counters
import Classlet.Proofs.Dispatch
import Classlet.Proofs.Erasure
import Classlet.Proofs.Following
import Classlet.Proofs.Frames
import Classlet.Proofs.Functions
import Classlet.Proofs.Generation
import Classlet.Proofs.Guarded
import Classlet.Proofs.Headroom
import Classlet.Proofs.Heights
import Classlet.Proofs.Incomplete
import Classlet.Proofs.Joins
import Classlet.Proofs.Jumps
import Classlet.Proofs.Labels
import Classlet.Proofs.Layouts
import Classlet.Proofs.Ledger
import Classlet.Proofs.Lineage
import Classlet.Proofs.Members
import Classlet.Proofs.MemorySize
import Classlet.Proofs.Mirroring
import Classlet.Proofs.Offsets
import Classlet.Proofs.Operations
import Classlet.Proofs.Order
import Classlet.Proofs.Outcomes
import Classlet.Proofs.Overriding
import Classlet.Proofs.Placement
import Classlet.Proofs.Preservation
import Classlet.Proofs.Programs
import Classlet.Proofs.Reading
import Classlet.Proofs.Realization
import Classlet.Proofs.Recompilation
import Classlet.Proofs.Registry
import Classlet.Proofs.Reports
import Classlet.Proofs.Representation
import Classlet.Proofs.Runs
import Classlet.Proofs.Safety
import Classlet.Proofs.Scopes
import Classlet.Proofs.Semantics
import Classlet.Proofs.Sends
import Classlet.Proofs.Sequences
import Classlet.Proofs.Shapes
import Classlet.Proofs.Simulation
import Classlet.Proofs.Slots
import Classlet.Proofs.Snapshots
import Classlet.Proofs.Substitution
import Classlet.Proofs.Subtyping
import Classlet.Proofs.Traces
import Classlet.Proofs.Trees
import Classlet.Proofs.Uses
import Classlet.Proofs.Visibility
import Classlet.Proofs.Walks
import Classlet.Resolution.Class
import Classlet.Resolution.Decl
import Classlet.Resolution.Expr
import Classlet.Resolution.Members
import Classlet.Resolution.Program
import Classlet.Scopes
import Classlet.Source
import Classlet.Table
import Classlet.Tree
import Classlet.Tree.Note
import Classlet.Tree.Spans
import Classlet.Ty
import Classlet.Typing.Class
import Classlet.Typing.Decl
import Classlet.Typing.Expr
import Classlet.Typing.Program
import Classlet.Word
