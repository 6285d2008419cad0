import ScriptGraph.Graph.Sequence
import ScriptGraph.Main
import ScriptGraph.Proofs.Scanning
import ScriptGraph.Proofs.Everywhere
import ScriptGraph.Proofs.Induction
import ScriptGraph.Proofs.Pieces
import ScriptGraph.Proofs.PrintedLexemes
import ScriptGraph.Proofs.Grammar
import ScriptGraph.Proofs.Legible
import ScriptGraph.Proofs.ParserComplete
import ScriptGraph.Proofs.Precedence
import ScriptGraph.Proofs.PrintedDerivation
import ScriptGraph.Proofs.PrinterRoundTrip
import ScriptGraph.Proofs.CallFields
import ScriptGraph.Proofs.Forest
import ScriptGraph.Proofs.Hosting
import ScriptGraph.Proofs.NodeData
import ScriptGraph.Proofs.Preorder
import ScriptGraph.Proofs.Script
import ScriptGraph.Proofs.WrittenLines
import ScriptGraph.Proofs.Contracts
import ScriptGraph.Proofs.Progress
import ScriptGraph.Proofs.Nesting
import ScriptGraph.Proofs.Emissions
import ScriptGraph.Proofs.Warnings
import ScriptGraph.Proofs.ScriptText
import ScriptGraph.Proofs.EntryCalls
import ScriptGraph.Proofs.Canonical
import ScriptGraph.Proofs.Bracketing
import ScriptGraph.Proofs.Rendering
import ScriptGraph.Proofs.LineIndependence
import ScriptGraph.Proofs.Requoting
import ScriptGraph.Proofs.TextRoundTrip
import ScriptGraph.Proofs.WriterAgreement
import ScriptGraph.Proofs.Cutting
import ScriptGraph.Proofs.OrderedForest
import ScriptGraph.Proofs.Seams
import ScriptGraph.Proofs.Coverage
import ScriptGraph.Proofs.Height
import ScriptGraph.Proofs.HeaderSplit
import ScriptGraph.Proofs.SecondPass
import ScriptGraph.Proofs.OpenBlocks
import ScriptGraph.Proofs.Boundaries
import ScriptGraph.Proofs.Closing
import ScriptGraph.Proofs.ListOrder
import ScriptGraph.Proofs.Tiling
import ScriptGraph.Proofs.Yield
import ScriptGraph.Proofs.WrittenBlocks
import ScriptGraph.Proofs.Formatting
import ScriptGraph.Proofs.EditorNodes
import ScriptGraph.Proofs.DocumentText
import ScriptGraph.Proofs.LineOffsets
import ScriptGraph.Proofs.HeaderPartition
import ScriptGraph.Proofs.LineBreaks
import ScriptGraph.Proofs.Repair
import ScriptGraph.Proofs.Escaping
import ScriptGraph.Proofs.DepthAccounting
import ScriptGraph.Proofs.CommentLines
