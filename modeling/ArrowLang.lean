import ArrowLang.Text.Letter
import ArrowLang.Text.Numeral
import ArrowLang.Text.DecimalDigit
import ArrowLang.Text.Blank
import ArrowLang.Text.Quoted
import ArrowLang.Text.Ansi
import ArrowLang.Decimal.Layout
import ArrowLang.Decimal.Numeral
import ArrowLang.Token.Cursor
import ArrowLang.Diagnostic.Excerpt
import ArrowLang.Tree.Same
import ArrowLang.Tree.Canonical
import ArrowLang.Tree.Outline
import ArrowLang.Grammar.Program
import ArrowLang.Coloring
import ArrowLang.Documents
import ArrowLang.Command.Report
import ArrowLang.Toml.Document
import ArrowLang.Command.Run
import ArrowLang.Main
import ArrowLang.Proofs.Acceptance
import ArrowLang.Proofs.Composition
import ArrowLang.Proofs.Recovery
import ArrowLang.Proofs.Decimals
import ArrowLang.Proofs.Pieces
import ArrowLang.Proofs.Results
import ArrowLang.Proofs.Calls
import ArrowLang.Proofs.Conversion
import ArrowLang.Proofs.Positions
import ArrowLang.Proofs.RoundTrip
import ArrowLang.Proofs.Blame
import ArrowLang.Proofs.Accounting
import ArrowLang.Proofs.Layout
import ArrowLang.Proofs.Freshness
import ArrowLang.Proofs.Echo
import ArrowLang.Proofs.Loosened
import ArrowLang.Proofs.LineEnds
import ArrowLang.Proofs.Chained
import ArrowLang.Proofs.Colored
import ArrowLang.Proofs.Strings
import ArrowLang.Proofs.Longest
import ArrowLang.Proofs.Shallow
import ArrowLang.Proofs.Excerpts
import ArrowLang.Proofs.Carets
import ArrowLang.Proofs.Classes
import ArrowLang.Proofs.Configured
import ArrowLang.Proofs.Nearest
import ArrowLang.Proofs.Unambiguous
import ArrowLang.Proofs.Paint
import ArrowLang.Proofs.Integers
import ArrowLang.Proofs.Exact
import ArrowLang.Proofs.TypeNames
