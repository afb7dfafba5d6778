import Reckon.Main
import Reckon.Scanner
import Reckon.Proofs.Grammar
import Reckon.Proofs.Reading
import Reckon.Proofs.Soundness
import Reckon.Proofs.Completeness
import Reckon.Proofs.Acceptance
import Reckon.Proofs.Lexing
import Reckon.Proofs.RoundTrip
import Reckon.Proofs.Atomicity
import Reckon.Proofs.ExactArithmetic
import Reckon.Proofs.Spelling
import Reckon.Proofs.Tiling
import Reckon.Proofs.Coupling
import Reckon.Proofs.Lifetime
import Reckon.Proofs.Nesting
import Reckon.Proofs.Restart
import Reckon.Proofs.Viability
import Reckon.Proofs.Diagnosis
import Reckon.Proofs.Progress
import Reckon.Proofs.Quotation
import Reckon.Proofs.Succession
import Reckon.Proofs.History
import Reckon.Proofs.Layout
import Reckon.Proofs.Effects
import Reckon.Proofs.Dependence
import Reckon.Proofs.Interleaving
import Reckon.Proofs.Modes
import Reckon.Proofs.Foreign
import Reckon.Proofs.Lookahead
import Reckon.Proofs.Limits
import Reckon.Proofs.Headway
import Reckon.Proofs.Recursion
import Reckon.Proofs.Readability
import Reckon.Proofs.Report
import Reckon.Proofs.Juxtaposition
import Reckon.Proofs.Wording
import Reckon.Proofs.Phrases
import Reckon.Proofs.LineEnd
import Reckon.Proofs.Sources
import Reckon.Proofs.Listing
