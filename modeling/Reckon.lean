import Reckon.Binary64
import Reckon.Binding
import Reckon.Console
import Reckon.Console.Arguments
import Reckon.Console.Conversation
import Reckon.Constant
import Reckon.Decimal
import Reckon.Decimal.Shortest
import Reckon.Error
import Reckon.Expr
import Reckon.Expr.Draft
import Reckon.Expr.Evaluation
import Reckon.Expr.Parser
import Reckon.Expr.Pending
import Reckon.Expr.Text
import Reckon.Function
import Reckon.Main
import Reckon.Number.Reader
import Reckon.Number.Text
import Reckon.Operator
import Reckon.Options
import Reckon.Script
import Reckon.Proofs.Draft.Step
import Reckon.Proofs.Token.Place
import Reckon.Session
import Reckon.Statement
import Reckon.Statement.Parser
import Reckon.Store
import Reckon.Text.Blank
import Reckon.Text.Split
import Reckon.Token
import Reckon.Token.Lexer
import Reckon.Proofs.Draft.Conservation
import Reckon.Proofs.Draft.Levels
import Reckon.Proofs.Phrase
import Reckon.Proofs.Reading
import Reckon.Proofs.Reading.Complete
import Reckon.Proofs.Reading.Sound
import Reckon.Proofs.Reading.Balance
import Reckon.Proofs.Grammar
import Reckon.Proofs.SideBySide
import Reckon.Proofs.Binary64
import Reckon.Proofs.Printed
import Reckon.Proofs.RoundTrip
import Reckon.Proofs.Reread
import Reckon.Proofs.Session
import Reckon.Proofs.Store
import Reckon.Proofs.Written
import Reckon.Proofs.Evaluation
import Reckon.Proofs.Independence
import Reckon.Proofs.Operation
import Reckon.Proofs.Listing
import Reckon.Proofs.Constant
import Reckon.Proofs.Script
import Reckon.Proofs.Text.Split
import Reckon.Proofs.Console.Decoding
import Reckon.Proofs.Console.Conversation
import Reckon.Proofs.Console.Agreement
import Reckon.Proofs.Console.Trace
import Reckon.Proofs.Token.Tiling
import Reckon.Proofs.Token.Unique
import Reckon.Proofs.Token.Gap
import Reckon.Proofs.Unbound
import Reckon.Proofs.Statement.Outcome
import Reckon.Proofs.Negation
import Reckon.Proofs.Script.Join
import Reckon.Proofs.Substitution
import Reckon.Proofs.Reading.Group
import Reckon.Proofs.Token.Balanced
import Reckon.Proofs.Associativity
import Reckon.Proofs.Fault
import Reckon.Proofs.Snapping
import Reckon.Proofs.Rerun
import Reckon.Proofs.Number
import Reckon.Proofs.Binding
import Reckon.Proofs.Console.Order
import Reckon.Proofs.Console.Variables
