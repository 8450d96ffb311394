import Reckon.Function
import Reckon.Operator

/-! # Expressions

Trees of literals, variables, binary operators, negations and calls of builtin functions.
-/

namespace Reckon

inductive Expr
  | literal (value : Float)
  | var (name : String)
  | binary (op : Operator) (left right : Expr)
  | negate (operand : Expr)
  | call (f : Function) (argument : Expr)
  deriving DecidableEq

/-- Whether two trees differ at most in literals that are equal as numbers. A tree with a literal
that is no number does not agree with itself. -/
def Expr.agrees : Expr → Expr → Bool
  | literal x, literal y => x == y
  | var a, var b => a = b
  | binary op l r, binary op' l' r' => op = op' && l.agrees l' && r.agrees r'
  | negate e, negate e' => e.agrees e'
  | call f e, call f' e' => f = f' && e.agrees e'
  | _, _ => false

end Reckon
