import Reckon.Constant
import Reckon.Expr.Parser
import Reckon.Statement
import Reckon.Text.Blank
import Reckon.Text.Split

/-! # Parsing statements

A line is cut at its first equals sign into a target and the source of an expression; without one
it is a lookup. A protected target is reported before a bad one, and either before the expression.
-/

namespace Reckon.Statement

/-- Whether a text is exactly one name that is not a builtin function's. -/
def isTarget (name : String) : Bool :=
  match Token.items name with
  | [.token (.name name)] => (Function.ofName? name).isNone
  | _ => false

def parseTarget (text : String) : Except ParseError String :=
  let name := Text.trim text
  if isTarget name then .ok name else .error (.invalidExpression name)

def parse (options : Options) (line : String) : Except ParseError Statement := do
  match Text.cutEquals line with
  | none => return lookup (← parseTarget line)
  | some (left, right) =>
    if isConstant (Text.trim left) then .error (.assignToConstant (Text.trim left))
    else
      let target ← parseTarget left
      return { target, expr := ← Expr.parse options (Text.trim right) }

/-- The lines that are not blank, with their numbers counted from one. -/
def numbered (lines : List String) : List (Nat × String) :=
  ((lines.zipIdx 1).map Prod.swap).filter fun (_, line) => !(Text.trim line).isEmpty

def parseLines (options : Options) (lines : List String) : Except Error (List (Nat × Statement)) :=
  (numbered lines).mapM fun (number, line) =>
    match parse options line with
    | .ok statement => .ok (number, statement)
    | .error e => .error ((Error.parse e).atLine number)

end Reckon.Statement
