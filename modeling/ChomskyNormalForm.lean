import ChomskyNormalForm.Allocator
import ChomskyNormalForm.Analysis.Rounds
import ChomskyNormalForm.Analysis.Search
import ChomskyNormalForm.Fault
import ChomskyNormalForm.Form.EpsilonFree
import ChomskyNormalForm.Form.Helpers
import ChomskyNormalForm.Form.Normal
import ChomskyNormalForm.Form.Trimmed
import ChomskyNormalForm.Form.UnitFree
import ChomskyNormalForm.Grammar.Basic
import ChomskyNormalForm.Grammar.Legal
import ChomskyNormalForm.Grammar.Notation
import ChomskyNormalForm.Grammar.Rules
import ChomskyNormalForm.Json.Basic
import ChomskyNormalForm.Json.Printer
import ChomskyNormalForm.Json.Reader
import ChomskyNormalForm.Listing
import ChomskyNormalForm.Main
import ChomskyNormalForm.Number
import ChomskyNormalForm.Samples
import ChomskyNormalForm.Service.Handler
import ChomskyNormalForm.Service.Request
import ChomskyNormalForm.Symbol
import ChomskyNormalForm.Text.Basic
import ChomskyNormalForm.Text.Character
import ChomskyNormalForm.Text.Encoding
import ChomskyNormalForm.Trace.Action
import ChomskyNormalForm.Trace.Printer
import ChomskyNormalForm.Trace.Session
import ChomskyNormalForm.Trace.Table
import ChomskyNormalForm.Proofs.Grammar.Edits
import ChomskyNormalForm.Proofs.Language.Interpretation
import ChomskyNormalForm.Proofs.Language.Reach
import ChomskyNormalForm.Proofs.Language.SententialForm
import ChomskyNormalForm.Proofs.Analysis.Reachable
import ChomskyNormalForm.Proofs.Grammar.Legal
import ChomskyNormalForm.Proofs.Settling
import ChomskyNormalForm.Proofs.Analysis.Layers
import ChomskyNormalForm.Proofs.Analysis.Productive
import ChomskyNormalForm.Proofs.Analysis.Nullable
import ChomskyNormalForm.Proofs.Analysis.Pruned
import ChomskyNormalForm.Proofs.Analysis.UnitClosure
import ChomskyNormalForm.Proofs.Form.Trimmed
import ChomskyNormalForm.Proofs.Allocator
import ChomskyNormalForm.Proofs.Form.Variants
import ChomskyNormalForm.Proofs.Trace.Amended
import ChomskyNormalForm.Proofs.Form.EpsilonFree
import ChomskyNormalForm.Proofs.Form.UnitFree
import ChomskyNormalForm.Proofs.Form.Isolated
import ChomskyNormalForm.Proofs.Form.Cascading
import ChomskyNormalForm.Proofs.Form.Binary
import ChomskyNormalForm.Proofs.Analysis.Cycle
import ChomskyNormalForm.Proofs.Grammar.Violation
import ChomskyNormalForm.Proofs.Form.Normal
import ChomskyNormalForm.Proofs.NormalForm.Correctness
import ChomskyNormalForm.Proofs.Form.Useful
import ChomskyNormalForm.Proofs.NormalForm.Finiteness
import ChomskyNormalForm.Proofs.Form.Renamed
import ChomskyNormalForm.Proofs.NormalForm.Invariance
import ChomskyNormalForm.Proofs.Trace.Changes
import ChomskyNormalForm.Proofs.Trace.Replay
import ChomskyNormalForm.Proofs.Form.Reported
import ChomskyNormalForm.Proofs.NormalForm.Replay
import ChomskyNormalForm.Proofs.Grammar.Reordered
import ChomskyNormalForm.Proofs.Analysis.Reordered
import ChomskyNormalForm.Proofs.Form.Reordered
import ChomskyNormalForm.Proofs.Language.Enumeration
import ChomskyNormalForm.Proofs.Language.FirstWords
import ChomskyNormalForm.Proofs.Service.Generation
import ChomskyNormalForm.Proofs.Service.Answers
import ChomskyNormalForm.Proofs.Text.Pieces
import ChomskyNormalForm.Proofs.Text.Spacing
import ChomskyNormalForm.Proofs.Symbol.Reader
import ChomskyNormalForm.Proofs.Grammar.Reader
import ChomskyNormalForm.Proofs.Grammar.Entries
import ChomskyNormalForm.Proofs.Trace.Table
import ChomskyNormalForm.Proofs.Trace.Purge
import ChomskyNormalForm.Proofs.Trace.Editor
import ChomskyNormalForm.Proofs.Trace.Delta
import ChomskyNormalForm.Proofs.Trace.Workshop
import ChomskyNormalForm.Proofs.NormalForm.Deeds
import ChomskyNormalForm.Proofs.NormalForm.Delta
import ChomskyNormalForm.Proofs.Form.EpsilonRemoval
import ChomskyNormalForm.Proofs.Form.UnitUnion
import ChomskyNormalForm.Proofs.Form.StartExpansion
import ChomskyNormalForm.Proofs.Form.StartProtection
import ChomskyNormalForm.Proofs.Form.ChainedCache
import ChomskyNormalForm.Proofs.Form.Inlined
import ChomskyNormalForm.Proofs.Form.TerminalHelpers
import ChomskyNormalForm.Proofs.NormalForm.CycleReport
import ChomskyNormalForm.Proofs.Language.Erasure
import ChomskyNormalForm.Proofs.Analysis.Height
import ChomskyNormalForm.Proofs.Form.LayerReport
import ChomskyNormalForm.Proofs.Allocator.Requests
import ChomskyNormalForm.Proofs.Symbol.Splitting
import ChomskyNormalForm.Proofs.Grammar.Tokens
import ChomskyNormalForm.Proofs.Grammar.Drafts
import ChomskyNormalForm.Proofs.Grammar.Lines
import ChomskyNormalForm.Proofs.Grammar.Layout
import ChomskyNormalForm.Proofs.Form.Deletions
import ChomskyNormalForm.Proofs.Trace.LivePart
import ChomskyNormalForm.Proofs.Form.Repeated
import ChomskyNormalForm.Proofs.Trace.Fixpoints
