import ExactCalc.Main
import ExactCalc.Store.Session
import ExactCalc.Proofs.Expr.Inorder
import ExactCalc.Proofs.Formula
import ExactCalc.Proofs.Token.Literal
import ExactCalc.Proofs.Expr.Grouping
import ExactCalc.Proofs.Expr.RightOperand
import ExactCalc.Proofs.Expr.Acceptance
import ExactCalc.Proofs.Expr.Writing
import ExactCalc.Proofs.Decimal.Value
import ExactCalc.Proofs.Number.Reading
import ExactCalc.Proofs.Rational.Terminating
import ExactCalc.Proofs.Expr.Evaluation
import ExactCalc.Proofs.Rational.Simplify
import ExactCalc.Proofs.Json.Number
import ExactCalc.Proofs.Operand.ShortCircuit
import ExactCalc.Proofs.Json.RoundTrip
import ExactCalc.Proofs.Operand.Deferred
import ExactCalc.Proofs.Store.Session
import ExactCalc.Proofs.Expr.Spacing
import ExactCalc.Proofs.Expr.LeftToRight
import ExactCalc.Proofs.Expr.Division
import ExactCalc.Proofs.Rational.Convergent
import ExactCalc.Proofs.Json.Text
import ExactCalc.Proofs.Token.Partition
import ExactCalc.Proofs.Operand.Squaring
import ExactCalc.Proofs.Number.RatText
import ExactCalc.Proofs.Decimal.Rounding
import ExactCalc.Proofs.Number.Amount
import ExactCalc.Proofs.Number.AmountOrder
import ExactCalc.Proofs.Operand.Amount
import ExactCalc.Proofs.Entry
import ExactCalc.Proofs.Store.Proper
import ExactCalc.Proofs.Number.Spelling
import ExactCalc.Proofs.Number.Agreement
import ExactCalc.Proofs.Decimal.NormalForm
import ExactCalc.Proofs.Operand.Comparison
import ExactCalc.Proofs.Store.Comparison
import ExactCalc.Proofs.Operand.Failure
import ExactCalc.Proofs.Store.ShortCircuit
import ExactCalc.Proofs.Store.Absolute
import ExactCalc.Proofs.Expr.Literal
import ExactCalc.Proofs.Expr.Snapshot
import ExactCalc.Proofs.Expr.Readable
import ExactCalc.Proofs.Scientific
import ExactCalc.Proofs.Token.Joining
import ExactCalc.Proofs.Rational.Finite
