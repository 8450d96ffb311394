import Reckon.Script

/-! # Conversations

A session driven line by line. Each line is answered by the value it gives or by its error, and
three words are commands: `exit`, `env` and `help`.
-/

namespace Reckon.Console

def prompt : String := "> "

def shownPlaces : Nat := 6

def showResult (name : String) (value : Float) : String :=
  name ++ " = " ++ Number.fixed shownPlaces value ++ "\n"

def showResults (results : List (String × Float)) : String :=
  .join (results.map fun (name, value) => showResult name value)

def helpText : String :=
  "commands:\n\tenv - print all existing variables and their values\n" ++
    "\thelp - print this message\n\texit - exit the interactive repl\n"

/-- The session after a line and what is printed for it; `none` if the line ends the
conversation. -/
def respond (s : Session) (line : String) : Option (Session × String) :=
  match Text.trim line with
  | "exit" => none
  | "env" => some (s, showResults s.store.entries)
  | "help" => some (s, helpText)
  | "" => some (s, "")
  | line =>
    match s.runLine line with
    | .ok ((name, value), next) => some (next, showResult name value)
    | .error e => some (s, e.message ++ "\n")

/-- What a conversation printed, and whether a line ended it before the input did. -/
structure Transcript where
  output : String
  exited : Bool
  deriving DecidableEq

/-- A prompt precedes each line, and the end of the input. -/
def converse (s : Session) : List String → Transcript
  | [] => { output := prompt, exited := false }
  | line :: lines =>
    match respond s line with
    | none => { output := prompt, exited := true }
    | some (next, answer) =>
      let rest := converse next lines
      { rest with output := prompt ++ answer ++ rest.output }

end Reckon.Console
