import Reckon.Expr.Text

/-! # Statements

One line of a program: a variable and the expression whose value it takes. A bare name is the
statement that assigns a variable to itself.
-/

namespace Reckon

structure Statement where
  target : String
  expr : Expr
  deriving DecidableEq

namespace Statement

def lookup (name : String) : Statement :=
  ⟨name, .var name⟩

def text (s : Statement) : String :=
  s.target ++ " = " ++ s.expr.text

end Statement

end Reckon
