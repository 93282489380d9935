import WordRole.Main
import WordRole.Proofs.Analysis.Consistency
import WordRole.Proofs.Analysis.Causality
import WordRole.Proofs.Analysis.Abort
import WordRole.Proofs.Analysis.Interruption
import WordRole.Proofs.Slot.Comparator
import WordRole.Proofs.Slot.Fitting
import WordRole.Proofs.Lexing.Segmentation
import WordRole.Proofs.Document.Reloaded
import WordRole.Proofs.Report.Outcome
import WordRole.Proofs.Analysis.Accounting
import WordRole.Proofs.Report.Located
import WordRole.Proofs.Report.Rewrites
import WordRole.Proofs.Declaration.Recorded
import WordRole.Proofs.Document.Accepted
import WordRole.Proofs.Slot.Lookahead
import WordRole.Proofs.Report.Actionable
import WordRole.Proofs.Report.Errors
import WordRole.Proofs.Analysis.Renaming
import WordRole.Proofs.Slot.Matching
import WordRole.Proofs.Lexing.Statements
import WordRole.Proofs.Slot.FatComma
import WordRole.Proofs.Classification.Neighbours
import WordRole.Proofs.Lexing.Bodies
import WordRole.Proofs.Analysis.Strings
import WordRole.Proofs.Slot.Starts
import WordRole.Proofs.Document.Checks
import WordRole.Proofs.Lexing.EndMarkers
import WordRole.Proofs.Lexing.Openings
import WordRole.Proofs.Report.Keys
import WordRole.Proofs.CommandLine.Items
import WordRole.Proofs.Files.Expansion
import WordRole.Proofs.Buffer.Agreement
import WordRole.Proofs.Lexing.Nesting
