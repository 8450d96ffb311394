import Reckon.Expr.Evaluation
import Reckon.Statement.Parser

/-! # Sessions

A store together with the options under which lines are parsed and run. Each run gives the
session that follows it; after a failure that is the session from before.
-/

namespace Reckon

structure Session where
  options : Options
  store : Store
  deriving DecidableEq

namespace Session

def start (options : Options) (bindings : List (String × Float)) : Session :=
  ⟨options, .ofBindings bindings⟩

def run (s : Session) (statement : Statement) : Except EvalError (Float × Session) := do
  let (value, store) ← statement.run s.options s.store
  return (value, { s with store })

def runLine (s : Session) (line : String) : Except Error ((String × Float) × Session) :=
  match Statement.parse s.options line with
  | .error e => .error (.parse e)
  | .ok statement =>
    match s.run statement with
    | .error e => .error (.eval e)
    | .ok (value, next) => .ok ((statement.target, value), next)

end Session

end Reckon
