import Wordcode.Assembly
import Wordcode.Assembly.Layout
import Wordcode.Assembly.Lines
import Wordcode.Assembly.Reachable
import Wordcode.Assembly.Sizing
import Wordcode.Binary64
import Wordcode.Build
import Wordcode.Code
import Wordcode.Code.Text
import Wordcode.Compile
import Wordcode.Decimal.Shortest
import Wordcode.Decode
import Wordcode.Draft
import Wordcode.Error
import Wordcode.Frame
import Wordcode.FrameKind
import Wordcode.Instruction
import Wordcode.Listing
import Wordcode.Lower.Expr
import Wordcode.Lower.Name
import Wordcode.Lower.Operator
import Wordcode.Lower.Scope
import Wordcode.Lower.Stmt
import Wordcode.Opcode
import Wordcode.Opcode.Effect
import Wordcode.Options
import Wordcode.Pool
import Wordcode.Scope
import Wordcode.StackDepth
import Wordcode.Text.Hidden
import Wordcode.Text.Lossy
import Wordcode.Text.Number
import Wordcode.Text.Quoted
import Wordcode.Tree
import Wordcode.Tree.Scopes
import Wordcode.Tree.Weight
import Wordcode.Wire.Code
import Wordcode.Wire.Field
import Wordcode.Wire.Reader
import Wordcode.Wire.Scope
import Wordcode.Wire.Tree
import Wordcode.Proofs.Encoding
import Wordcode.Proofs.Graph
import Wordcode.Proofs.Reachability
import Wordcode.Proofs.Layout
import Wordcode.Proofs.Sizing
import Wordcode.Proofs.Assembly
import Wordcode.Proofs.Accepted
import Wordcode.Proofs.BlockStack
import Wordcode.Proofs.Stamps
import Wordcode.Proofs.Execution
import Wordcode.Proofs.StmtTables
import Wordcode.Proofs.Conditions
import Wordcode.Proofs.Behaviour
import Wordcode.Proofs.Loads
import Wordcode.Proofs.Restores
import Wordcode.Proofs.RoundTrip
import Wordcode.Proofs.Slots
import Wordcode.Proofs.StmtPositions
import Wordcode.Proofs.Closures
import Wordcode.Proofs.Recursion
import Wordcode.Proofs.SourceOrder
import Wordcode.Proofs.DeadCode
import Wordcode.Proofs.Settling
import Wordcode.Proofs.Narrowest
import Wordcode.Proofs.Decoding
import Wordcode.Proofs.ExactDepth
import Wordcode.Proofs.Comparisons
import Wordcode.Proofs.Assignments
import Wordcode.Proofs.DictDisplays
import Wordcode.Proofs.Comprehensions
import Wordcode.Proofs.JumpTargets
import Wordcode.Proofs.LineRanges
import Wordcode.Proofs.WordDepth
import Wordcode.Proofs.Makeup
import Wordcode.Proofs.Blame
