import ProtoSchema.Main
import ProtoSchema.Proofs.Syntactic.Delivery
import ProtoSchema.Proofs.Syntactic.Verdict
import ProtoSchema.Proofs.Syntactic.WellFormed
import ProtoSchema.Proofs.Lexical.Offsets
import ProtoSchema.Proofs.Document.Alike
import ProtoSchema.Proofs.Syntactic.Alike
import ProtoSchema.Proofs.Lexical.Trivia
import ProtoSchema.Proofs.Syntactic.Layout
import ProtoSchema.Proofs.Editor.Protocol
import ProtoSchema.Proofs.Editor.Range
import ProtoSchema.Proofs.Editor.Diagnostic
import ProtoSchema.Proofs.Editor.Table
import ProtoSchema.Proofs.Editor.Workspace
import ProtoSchema.Proofs.Document.Nodes
import ProtoSchema.Proofs.Syntactic.Nodes
import ProtoSchema.Proofs.Syntactic.Encoding
import ProtoSchema.Proofs.Syntactic.Braces
import ProtoSchema.Proofs.Syntactic.Rearranged
import ProtoSchema.Proofs.Sessions
import ProtoSchema.Proofs.Lexical.Seam
import ProtoSchema.Proofs.Editor.Conversion
import ProtoSchema.Proofs.Syntactic.Consumption
import ProtoSchema.Proofs.Document.Clash
import ProtoSchema.Proofs.CommandLine.Reports
import ProtoSchema.Proofs.Editor.Spot
import ProtoSchema.Proofs.Editor.Symbol
import ProtoSchema.Proofs.Editor.Selection
import ProtoSchema.Proofs.Printing.Literal
import ProtoSchema.Proofs.Printing.Types
import ProtoSchema.Proofs.CommandLine.Level
