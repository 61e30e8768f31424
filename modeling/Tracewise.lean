import Tracewise.Analysis.Admission
import Tracewise.Analysis.Basic
import Tracewise.Analysis.Drawing
import Tracewise.Analysis.Engine
import Tracewise.Analysis.Finding
import Tracewise.Constant.Basic
import Tracewise.Constant.Folding
import Tracewise.Domain.Basic
import Tracewise.Domain.Order
import Tracewise.Domain.Value
import Tracewise.Fault
import Tracewise.Graph.Basic
import Tracewise.Graph.Lowering
import Tracewise.Identity
import Tracewise.Lattice.Basic
import Tracewise.Lattice.Enumeration
import Tracewise.Lattice.Interval
import Tracewise.Model.Basic
import Tracewise.Model.Builder
import Tracewise.Operator.Backward
import Tracewise.Operator.Basic
import Tracewise.Operator.Forward
import Tracewise.Operator.Semantics
import Tracewise.Program.Basic
import Tracewise.Program.Block
import Tracewise.Program.Builder
import Tracewise.Program.Expr
import Tracewise.State.Env
import Tracewise.State.Evaluation
import Tracewise.State.MergeRule
import Tracewise.State.Trace
import Tracewise.Text
import Tracewise.Typing
import Tracewise.Proofs.Elements
import Tracewise.Proofs.Datum
import Tracewise.Proofs.Definitions
import Tracewise.Proofs.Inverses
import Tracewise.Proofs.Evaluation
import Tracewise.Proofs.Locality
import Tracewise.Proofs.ModelBuilding
import Tracewise.Proofs.Workshop
import Tracewise.Proofs.Refinement
import Tracewise.Proofs.Partitions
import Tracewise.Proofs.Widening
import Tracewise.Proofs.Graphs
import Tracewise.Proofs.Admission
import Tracewise.Proofs.Fixpoint
import Tracewise.Proofs.Soundness
import Tracewise.Proofs.Layout
import Tracewise.Proofs.Behaviours
import Tracewise.Proofs.Safety
import Tracewise.Proofs.PathEnumeration
import Tracewise.Proofs.Oscillation
import Tracewise.Proofs.Inclusion
import Tracewise.Proofs.MonotoneDefinitions
import Tracewise.Proofs.Attainment
import Tracewise.Proofs.Exactness
import Tracewise.Proofs.MonotoneInverses
import Tracewise.Proofs.Narrowing
import Tracewise.Proofs.Hulls
import Tracewise.Proofs.MonotoneTransfer
import Tracewise.Proofs.Preservation
import Tracewise.Proofs.Regularity
import Tracewise.Proofs.Growth
import Tracewise.Proofs.Reordering
import Tracewise.Proofs.Settling
import Tracewise.Proofs.Nesting
import Tracewise.Proofs.Termination
import Tracewise.Proofs.Connection
import Tracewise.Proofs.Retention
import Tracewise.Proofs.Bindings
import Tracewise.Proofs.ExactTraces
import Tracewise.Proofs.Monotonicity
import Tracewise.Proofs.Agreement
import Tracewise.Proofs.StoredBounds
import Tracewise.Proofs.LatticeLaws
import Tracewise.Proofs.WideningChains
import Tracewise.Proofs.EnvironmentLattice
import Tracewise.Proofs.Grouping
import Tracewise.Proofs.SinglePass
import Tracewise.Proofs.LoopHeads
import Tracewise.Proofs.Shape
import Tracewise.Proofs.Folding
import Tracewise.Proofs.StaticRanges
import Tracewise.Proofs.ConstantValues
import Tracewise.Proofs.ModelEntries
import Tracewise.Proofs.Indifference
import Tracewise.Proofs.SharedModels
import Tracewise.Proofs.QuotedStrings
import Tracewise.Proofs.Declarations
import Tracewise.Proofs.Printing
import Tracewise.Proofs.Numerals
import Tracewise.Proofs.CountingLoop
import Tracewise.Proofs.CountingRun
import Tracewise.Proofs.ExpressionTexts
import Tracewise.Proofs.Literals
import Tracewise.Proofs.TraceSets
import Tracewise.Proofs.Traversal
import Tracewise.Proofs.NodeNames
import Tracewise.Proofs.Interleaving
import Tracewise.Proofs.Entities
import Tracewise.Proofs.IndexSets
