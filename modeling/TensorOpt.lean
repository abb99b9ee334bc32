import TensorOpt.Attribute
import TensorOpt.Decimal.Double
import TensorOpt.Decimal.Shortest
import TensorOpt.Graph.Basic
import TensorOpt.Graph.Build
import TensorOpt.Graph.Equivalence
import TensorOpt.Graph.Operators
import TensorOpt.Graph.Printer
import TensorOpt.Graph.Traversal
import TensorOpt.Graph.Unseen
import TensorOpt.Index.Basic
import TensorOpt.Index.Buffer
import TensorOpt.Index.Cancel
import TensorOpt.Index.Eval
import TensorOpt.Index.Fold
import TensorOpt.Index.Normalize
import TensorOpt.Layout.Basic
import TensorOpt.Layout.Parser
import TensorOpt.Operator
import TensorOpt.Pass.Basic
import TensorOpt.Pass.Pipeline
import TensorOpt.Pass.Stock
import TensorOpt.Pattern.Basic
import TensorOpt.Pattern.Builder
import TensorOpt.Pattern.Matcher
import TensorOpt.Proofs.Buffer.Address
import TensorOpt.Proofs.Buffer.Aliasing
import TensorOpt.Proofs.Except
import TensorOpt.Proofs.Graph.Exec
import TensorOpt.Proofs.Graph.Frame
import TensorOpt.Proofs.Graph.Growth
import TensorOpt.Proofs.Graph.Meaning
import TensorOpt.Proofs.Graph.Traversal
import TensorOpt.Proofs.Graph.Typed
import TensorOpt.Proofs.Index.Folded
import TensorOpt.Proofs.Index.Normalize
import TensorOpt.Proofs.Index.Saturated
import TensorOpt.Proofs.Index.Terms
import TensorOpt.Proofs.Index.Value
import TensorOpt.Proofs.Layout.Order
import TensorOpt.Proofs.Layout.RoundTrip
import TensorOpt.Proofs.Pass.Frame
import TensorOpt.Proofs.Pass.Schedule
import TensorOpt.Proofs.Pass.Typed
import TensorOpt.Proofs.Pattern.Match
import TensorOpt.Proofs.Pattern.Trace
import TensorOpt.Proofs.Rule.AxisErrors
import TensorOpt.Proofs.Rule.AxisOrder
import TensorOpt.Proofs.Rule.Engine
import TensorOpt.Proofs.Rule.Failures
import TensorOpt.Proofs.Rule.Fill
import TensorOpt.Proofs.Rule.Frame
import TensorOpt.Proofs.Rule.Fuse
import TensorOpt.Proofs.Rule.Labels
import TensorOpt.Proofs.Rule.Lands
import TensorOpt.Proofs.Rule.Preserves
import TensorOpt.Proofs.Rule.Ranks
import TensorOpt.Proofs.Rule.Replacement
import TensorOpt.Proofs.Rule.Reshape
import TensorOpt.Proofs.Rule.Transpose
import TensorOpt.Proofs.Rule.Typed
import TensorOpt.Proofs.Rule.Visits
import TensorOpt.Proofs.Simplify
import TensorOpt.Proofs.Simplify.RankSafety
import TensorOpt.Proofs.Tensor.Interpretation
import TensorOpt.Proofs.Tensor.Value
import TensorOpt.Proofs.Word.Floor
import TensorOpt.Rule.AxisOrder
import TensorOpt.Rule.Basic
import TensorOpt.Rule.Engine
import TensorOpt.Rule.Fill
import TensorOpt.Rule.Reshape
import TensorOpt.Rule.Template
import TensorOpt.Rule.Transpose
import TensorOpt.Simplify
import TensorOpt.Table
import TensorOpt.Tensor.DType
import TensorOpt.Tensor.Literal
import TensorOpt.Tensor.TensorType
import TensorOpt.Text.Invisible
import TensorOpt.Text.Quoted
import TensorOpt.Word
import TensorOpt.Proofs.Simplify.TransposeChain
import TensorOpt.Proofs.Simplify.Untouched
import TensorOpt.Proofs.Simplify.ReshapeChain
import TensorOpt.Proofs.Index.Range
import TensorOpt.Proofs.Index.Overflow
import TensorOpt.Proofs.Tensor.Labelled
import TensorOpt.Proofs.Rule.Relayout
import TensorOpt.Proofs.Index.Lanes
import TensorOpt.Proofs.Index.Recognition
import TensorOpt.Proofs.Index.Termination
import TensorOpt.Proofs.Buffer.Split
import TensorOpt.Proofs.Buffer.Lanes
import TensorOpt.Proofs.Graph.DepthFirst
import TensorOpt.Proofs.Graph.Printer
import TensorOpt.Proofs.Rule.FillType
import TensorOpt.Proofs.Graph.Bisimulation
import TensorOpt.Proofs.Rule.Sharing
import TensorOpt.Proofs.Graph.Renumbering
import TensorOpt.Proofs.Index.Built
import TensorOpt.Proofs.Index.Tokens
import TensorOpt.Proofs.Index.Reading
import TensorOpt.Proofs.Rule.AxisBounds
