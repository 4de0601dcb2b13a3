import MatrixScript.Server
import MatrixScript.Syntax.Node
import MatrixScript.Token.Stream
import MatrixScript.Proofs.Index.LatestEdit
import MatrixScript.Proofs.Index.Offers
import MatrixScript.Proofs.Token.Placement
import MatrixScript.Proofs.Parser.Locality
import MatrixScript.Proofs.Parser.Total
import MatrixScript.Proofs.Symbol.Ranges
import MatrixScript.Proofs.Parser.NestedBlock
import MatrixScript.Proofs.Parser.RoundTrip
import MatrixScript.Proofs.Parser.WrittenBlock
import MatrixScript.Proofs.Parser.WrittenProgram
import MatrixScript.Proofs.Document.Layout
import MatrixScript.Proofs.Index.Arguments
import MatrixScript.Proofs.Index.Bounds
import MatrixScript.Proofs.Symbol.Completeness
import MatrixScript.Proofs.Symbol.Walk
import MatrixScript.Proofs.Syntax.Context
import MatrixScript.Proofs.Symbol.Hygiene
import MatrixScript.Proofs.Symbol.Defaults
import MatrixScript.Proofs.Parser.Halting
import MatrixScript.Proofs.Parser.BlockRecovery
import MatrixScript.Proofs.Parser.FunctionLines
import MatrixScript.Proofs.Token.Shared
import MatrixScript.Proofs.Index.Registration
import MatrixScript.Proofs.Index.Burst
import MatrixScript.Proofs.Server.Convergence
import MatrixScript.Proofs.Server.Clearing
import MatrixScript.Proofs.Document.Cursor
import MatrixScript.Proofs.Document.TokenLimit
import MatrixScript.Proofs.Parser.Lookahead
import MatrixScript.Proofs.Parser.Precedence
import MatrixScript.Proofs.Token.Classes
import MatrixScript.Proofs.Parser.OpenStrings
import MatrixScript.Proofs.Parser.WrittenGrid
import MatrixScript.Proofs.Parser.Documentation
import MatrixScript.Proofs.FileTree.Discovery
import MatrixScript.Proofs.Symbol.Snippet
import MatrixScript.Proofs.Parser.Shown
import MatrixScript.Proofs.Server.Settings
import MatrixScript.Proofs.Index.Discovery
import MatrixScript.Proofs.Parser.Contract
import MatrixScript.Proofs.Parser.Partition
