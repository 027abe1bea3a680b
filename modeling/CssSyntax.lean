import CssSyntax.SourceFile
import CssSyntax.Tree.Edit
import CssSyntax.Proofs.Changes
import CssSyntax.Proofs.ClosingQuotes
import CssSyntax.Proofs.CursorRuns
import CssSyntax.Proofs.CustomMediaNames
import CssSyntax.Proofs.Excerpts
import CssSyntax.Proofs.Extensions
import CssSyntax.Proofs.KeywordGaps
import CssSyntax.Proofs.OpenComments
import CssSyntax.Proofs.Outlines
import CssSyntax.Proofs.Progress
import CssSyntax.Proofs.Record
import CssSyntax.Proofs.Reports
import CssSyntax.Proofs.Roundtrip
import CssSyntax.Proofs.SelectorGroups
import CssSyntax.Proofs.SelectorStrings
import CssSyntax.Proofs.SelectorText
import CssSyntax.Proofs.Shapes
import CssSyntax.Proofs.TableOrder
import CssSyntax.Proofs.ValuePieces
