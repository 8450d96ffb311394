import Reckon.Session

/-! # Scripts

All lines of a script are parsed before the first statement runs, so a line that cannot be parsed
lets nothing run. Statements then run in order up to the first that fails.
-/

namespace Reckon

/-- What a script did: the targets and values of the statements that ran, the session it left
behind, and the error that stopped it. -/
structure ScriptRun where
  results : List (String × Float)
  session : Session
  error : Option Error
  deriving DecidableEq

namespace ScriptRun

def outcome (r : ScriptRun) : Except Error (List (String × Float)) :=
  match r.error with
  | none => .ok r.results
  | some e => .error e

end ScriptRun

namespace Session

def runNumbered (s : Session) : List (Nat × Statement) → ScriptRun
  | [] => { results := [], session := s, error := none }
  | (number, statement) :: statements =>
    match s.run statement with
    | .error e => { results := [], session := s, error := some ((Error.eval e).atLine number) }
    | .ok (value, next) =>
      let r := next.runNumbered statements
      { r with results := (statement.target, value) :: r.results }

def runScript (s : Session) (text : String) : ScriptRun :=
  match Statement.parseLines s.options (Text.lines text) with
  | .error e => { results := [], session := s, error := some e }
  | .ok statements => s.runNumbered statements

end Session

end Reckon
