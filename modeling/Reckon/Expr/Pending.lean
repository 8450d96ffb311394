import Reckon.Function
import Reckon.Operator

/-! # Pending entries

What has been read of an expression but not yet built into the tree: operators and functions that
wait for an operand, and parentheses that are still open.
-/

namespace Reckon

def Operator.precedence : Operator → Nat
  | add | sub => 1
  | mul | div => 2
  | pow => 3

inductive Pending
  | binary (op : Operator)
  | negation
  | function (f : Function)
  | opening
  deriving DecidableEq, Repr

namespace Pending

/-- An entry of higher precedence binds tighter. An open parenthesis is below all operators, so
that nothing before it is built while it is open. -/
def precedence : Pending → Nat
  | opening => 0
  | binary op => op.precedence
  | negation | function _ => 4

def isUnary : Pending → Bool
  | negation | function _ => true
  | binary _ | opening => false

def symbol : Pending → String
  | binary op => op.symbol
  | negation => "-"
  | function f => f.name
  | opening => "("

end Pending

end Reckon
