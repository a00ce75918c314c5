import ExactLength.Converter.Window
import ExactLength.Number.Worksheet
import ExactLength.Proofs.Expr.ViablePrefix
import ExactLength.Proofs.Surface.Evaluation
import ExactLength.Proofs.Converter.Consistency
import ExactLength.Proofs.Converter.History
import ExactLength.Proofs.Number.Nearest
import ExactLength.Proofs.Surface.Signed
import ExactLength.Proofs.Token.Alphabet
import ExactLength.Proofs.Length.InchParts
import ExactLength.Proofs.Length.InchReadback
import ExactLength.Proofs.MixedNumber.Blanks
import ExactLength.Proofs.Evaluation.Layout
import ExactLength.Proofs.Length.Spelling
import ExactLength.Proofs.Expr.Bounds
import ExactLength.Proofs.Expr.Readback
import ExactLength.Proofs.Surface.Difference
import ExactLength.Proofs.Expr.FractionDivision
import ExactLength.Proofs.Evaluation.ErrorPositions
import ExactLength.Proofs.Length.RefusedCharacter
import ExactLength.Proofs.Length.ExactLine
import ExactLength.Proofs.Surface.Quotient
import ExactLength.Proofs.Converter.Spacing
import ExactLength.Proofs.Number.LowestTerms
import ExactLength.Proofs.Number.Worksheet
import ExactLength.Proofs.Converter.Precision
import ExactLength.Proofs.Length.InchNearest
import ExactLength.Proofs.Length.UnitIndependence
import ExactLength.Proofs.Token.Juxtaposition
import ExactLength.Proofs.Token.Spans
import ExactLength.Proofs.Number.SignedDecimal
import ExactLength.Proofs.Token.Listing
import ExactLength.Proofs.Expr.Exactness
import ExactLength.Proofs.Surface.FlatChain
import ExactLength.Proofs.Length.Content
import ExactLength.Proofs.Converter.Deletion
import ExactLength.Proofs.Converter.Refusal
import ExactLength.Proofs.Expr.Shape
import ExactLength.Proofs.Expr.UniqueText
import ExactLength.Proofs.Expr.Counters
