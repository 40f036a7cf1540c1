import MuxHoist.Operator
import MuxHoist.Expr.Basic
import MuxHoist.Expr.Equality
import MuxHoist.Expr.Text
import MuxHoist.Error
import MuxHoist.Decision.Graft
import MuxHoist.Decision.Combine
import MuxHoist.Decision.Extend
import MuxHoist.Decision.Guarded
import MuxHoist.Hoist
import MuxHoist.NormalForm
import MuxHoist.Json.Basic
import MuxHoist.Json.Number
import MuxHoist.Json.Text
import MuxHoist.Json.Token
import MuxHoist.Json.Reader
import MuxHoist.Json.Printer
import MuxHoist.Interchange.Slots
import MuxHoist.Interchange.Decode
import MuxHoist.Interchange.Encode
import MuxHoist.CommandLine
import MuxHoist.Main
import MuxHoist.Proofs.Scan
import MuxHoist.Proofs.Derivation
import MuxHoist.Proofs.Resolve
import MuxHoist.Proofs.NormalForm
import MuxHoist.Proofs.Exposed
import MuxHoist.Proofs.Outcomes
import MuxHoist.Proofs.SinglePass
import MuxHoist.Proofs.Failure
import MuxHoist.Proofs.FirstFault
import MuxHoist.Proofs.Marks
import MuxHoist.Proofs.Signals
import MuxHoist.Proofs.Congruence
import MuxHoist.Proofs.Placement
import MuxHoist.Proofs.SecondPass
import MuxHoist.Proofs.Relabel
import MuxHoist.Proofs.Selection
import MuxHoist.Proofs.Recovery
import MuxHoist.Proofs.Extension
import MuxHoist.Proofs.FixedArity
import MuxHoist.Proofs.Distribution
import MuxHoist.Proofs.Json.Numeral
import MuxHoist.Proofs.Json.Quotation
import MuxHoist.Proofs.Json.Lexis
import MuxHoist.Proofs.Json.Syntax
import MuxHoist.Proofs.Json.Canonical
import MuxHoist.Proofs.Json.Writing
import MuxHoist.Proofs.UnknownKind
import MuxHoist.Proofs.RoundTrip
import MuxHoist.Proofs.Spelling
import MuxHoist.Proofs.LeastNesting
import MuxHoist.Proofs.StableOutput
import MuxHoist.Proofs.Arguments
import MuxHoist.Proofs.Requests
