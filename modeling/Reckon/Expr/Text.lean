import Reckon.Expr
import Reckon.Number.Text

/-! # The text of an expression

Every binary operation is written in parentheses, so that the grouping of the tree can be seen.
-/

namespace Reckon.Expr

/-- The argument of a call is put in parentheses unless its text opens with one. -/
def text : Expr → String
  | literal x => Number.text x
  | var name => name
  | binary op l r => "(" ++ l.text ++ " " ++ op.symbol ++ " " ++ r.text ++ ")"
  | negate e => "-" ++ e.text
  | call f e =>
    if e.text.toList.head? = some '(' then f.name ++ e.text else f.name ++ "(" ++ e.text ++ ")"

example : (binary .add (literal 1) (binary .mul (var "x") (literal 2))).text = "(1 + (x * 2))" := by
  decide +kernel

end Reckon.Expr
