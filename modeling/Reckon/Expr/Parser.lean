import Reckon.Expr.Draft
import Reckon.Token.Lexer

/-! # Parsing expressions

The items of a source are pushed onto a draft one by one, and the finished draft is the tree. The
first fault decides the error.
-/

namespace Reckon.Expr

def ofItems (options : Options) (items : List Item) : Except Fault Expr := do
  (← Draft.empty.pushItems options items).finish

def parse (options : Options) (source : String) : Except ParseError Expr :=
  (ofItems options (Token.items source)).mapError (Fault.toError source)

end Reckon.Expr
