import ObjectLang.Analysis.Basic
import ObjectLang.Analysis.Error
import ObjectLang.Analysis.Rules
import ObjectLang.Decimal.Division
import ObjectLang.Decimal.Order
import ObjectLang.Decimal.Text
import ObjectLang.Evaluation.Basic
import ObjectLang.Evaluation.Call
import ObjectLang.Evaluation.Error
import ObjectLang.Evaluation.Native
import ObjectLang.Evaluation.Operator
import ObjectLang.Evaluation.Rules
import ObjectLang.Prelude
import ObjectLang.Scope.Forest
import ObjectLang.Scope.Lemmas
import ObjectLang.Scope.Names
import ObjectLang.Session
import ObjectLang.Snapshot.Types
import ObjectLang.Snapshot.Values
import ObjectLang.Text.Quoted
import ObjectLang.Trace
import ObjectLang.Tree.Defect
import ObjectLang.Tree.Operator
import ObjectLang.Typed.Tree
import ObjectLang.Types.Display
import ObjectLang.Types.Signature
import ObjectLang.Types.Subtype
import ObjectLang.Values.Basic
import ObjectLang.Values.Display
import ObjectLang.Values.Equality
import ObjectLang.Values.Inspect
import ObjectLang.Values.Order
import ObjectLang.Proofs.Types.Bisimulation
import ObjectLang.Proofs.Scope.Growth
import ObjectLang.Proofs.Steps
import ObjectLang.Proofs.Evaluation.Steps
import ObjectLang.Proofs.Evaluation.Frame
import ObjectLang.Proofs.Analysis.Steps
import ObjectLang.Proofs.Analysis.Frame
import ObjectLang.Proofs.Analysis.Inversion
import ObjectLang.Proofs.Types.Settled
import ObjectLang.Proofs.Typing.Rules
import ObjectLang.Proofs.Typing.Scopes
import ObjectLang.Proofs.Analysis.Signature
import ObjectLang.Proofs.Typing.Soundness
import ObjectLang.Proofs.Scope.Visibility
import ObjectLang.Proofs.Scoping.Rules
import ObjectLang.Proofs.Scoping.Analysis
import ObjectLang.Proofs.Scoping.Heap
import ObjectLang.Proofs.Scoping.Evaluation
import ObjectLang.Proofs.Scoping.Session
import ObjectLang.Proofs.Typing.Failure
import ObjectLang.Proofs.Typing.Session
import ObjectLang.Proofs.Isolation.Steps
import ObjectLang.Proofs.Isolation.Evaluation
import ObjectLang.Proofs.Resolution.Uses
import ObjectLang.Proofs.Resolution.Watch
import ObjectLang.Proofs.Resolution.Rules
import ObjectLang.Proofs.Resolution.Analysis
import ObjectLang.Proofs.Types.Equivalence
import ObjectLang.Proofs.Resolution.Plan
import ObjectLang.Proofs.Resolution.Heap
import ObjectLang.Proofs.Resolution.Steps
import ObjectLang.Proofs.Resolution.Blocks
import ObjectLang.Proofs.Resolution.Evaluation
import ObjectLang.Proofs.Resolution.Session
import ObjectLang.Proofs.Erasure.Analysis
import ObjectLang.Proofs.Scope.Image
import ObjectLang.Proofs.Trimming.Trees
import ObjectLang.Proofs.Trimming.Values
import ObjectLang.Proofs.Trimming.Evaluation
import ObjectLang.Proofs.Trimming.Session
import ObjectLang.Proofs.Resolution.Methods
import ObjectLang.Proofs.Resolution.Kinds
import ObjectLang.Proofs.Resolution.Nodes
import ObjectLang.Proofs.Resolution.Operators
import ObjectLang.Proofs.Resolution.Soundness
import ObjectLang.Proofs.Scope.Aligned
import ObjectLang.Proofs.Types.Paired
import ObjectLang.Proofs.Scope.Lookup
import ObjectLang.Proofs.Pairing.Scopes
import ObjectLang.Proofs.Pairing.Trees
import ObjectLang.Proofs.Pairing.Names
import ObjectLang.Proofs.Pairing.Steps
import ObjectLang.Proofs.Pairing.Analysis
import ObjectLang.Proofs.Pairing.Equal
import ObjectLang.Proofs.Pairing.Methods
import ObjectLang.Proofs.Values.Depth
import ObjectLang.Proofs.Snapshot.Walks
import ObjectLang.Proofs.Snapshot.Types
import ObjectLang.Proofs.Snapshot.Errors
import ObjectLang.Proofs.Shift.Values
import ObjectLang.Proofs.Snapshot.Values
import ObjectLang.Proofs.Shift.Steps
import ObjectLang.Proofs.Shift.Evaluation
import ObjectLang.Proofs.Sequence.Output
import ObjectLang.Proofs.Sequence.Pieces
import ObjectLang.Proofs.Fixtures
import ObjectLang.Proofs.Types.Subtyping
import ObjectLang.Proofs.Types.Agreement
import ObjectLang.Proofs.Scope.History
import ObjectLang.Proofs.Scope.Views
import ObjectLang.Proofs.Misuse.Evaluation
import ObjectLang.Proofs.Misuse.Analysis
import ObjectLang.Proofs.Misuse.Passes
import ObjectLang.Proofs.Scope.Writes
import ObjectLang.Proofs.Siblings
import ObjectLang.Proofs.Shapes.Sights
import ObjectLang.Proofs.Shapes.Watch
import ObjectLang.Proofs.Shapes.Analysis
import ObjectLang.Proofs.Shapes.Evaluation
import ObjectLang.Proofs.Shapes.Objects
import ObjectLang.Proofs.Finite.Values
import ObjectLang.Proofs.Finite.Whole
import ObjectLang.Proofs.Finite.Steps
import ObjectLang.Proofs.Finite.Evaluation
import ObjectLang.Proofs.Finite.Session
import ObjectLang.Proofs.Decimal.Value
import ObjectLang.Proofs.Decimal.Rounding
import ObjectLang.Proofs.Evaluation.Results
import ObjectLang.Proofs.Evaluation.Arithmetic
import ObjectLang.Proofs.Finite.Acyclic
import ObjectLang.Proofs.Evaluation.Operators
import ObjectLang.Proofs.Sequence.Unrolling
import ObjectLang.Proofs.Values.Equality
import ObjectLang.Proofs.Values.Order
import ObjectLang.Proofs.Evaluation.Comparisons
import ObjectLang.Proofs.Evaluation.Runs
import ObjectLang.Proofs.Programs.Factorial
import ObjectLang.Proofs.Programs.Counters
import ObjectLang.Proofs.Programs.Squares
import ObjectLang.Proofs.Evaluation.Depth
import ObjectLang.Proofs.Elementary.Trees
import ObjectLang.Proofs.Elementary.Steps
import ObjectLang.Proofs.Elementary.Evaluation
import ObjectLang.Proofs.Elementary.Session
import ObjectLang.Proofs.Decimal.Text
import ObjectLang.Proofs.Text.Quoted
import ObjectLang.Proofs.Values.Inspect
