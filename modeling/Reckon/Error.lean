/-! # Errors

What can go wrong when a line is parsed or evaluated, possibly tied to the line of a script, and
the message for each cause.
-/

namespace Reckon

inductive ParseError
  | assignToConstant (name : String)
  | unexpectedToken (token : String)
  /-- The tokens do not make up exactly one expression, or a target is no name of a variable. -/
  | invalidExpression (text : String)
  deriving DecidableEq, Repr

def ParseError.message : ParseError → String
  | assignToConstant name => "cannot assign to constant '" ++ name ++ "'"
  | unexpectedToken token => "unexpected token '" ++ token ++ "'"
  | invalidExpression text => "invalid expression '" ++ text ++ "'"

inductive EvalError
  | unknownVariable (name : String)
  deriving DecidableEq, Repr

def EvalError.message : EvalError → String
  | unknownVariable name => "unknown variable '" ++ name ++ "'"

inductive Error
  | parse (cause : ParseError)
  | eval (cause : EvalError)
  | line (number : Nat) (cause : Error)
  deriving DecidableEq, Repr

namespace Error

def atLine (e : Error) (number : Nat) : Error :=
  .line number e

def root : Error → Error
  | line _ cause => cause.root
  | e => e

def message : Error → String
  | parse cause => cause.message
  | eval cause => cause.message
  | line number cause => "line " ++ toString number ++ ": " ++ cause.message

@[simp] theorem root_atLine (e : Error) (number : Nat) : (e.atLine number).root = e.root := rfl

@[simp] theorem message_atLine (e : Error) (number : Nat) :
    (e.atLine number).message = "line " ++ toString number ++ ": " ++ e.message := rfl

end Error

end Reckon
