import Reckon.Console.Arguments
import Reckon.Console.Conversation

/-! # The console

A run of the console takes arguments, files and an input of bytes to a status and two outputs. A
script is run from a file; without one a conversation is held over the input.
-/

namespace Reckon.Console

structure Outcome where
  status : Nat
  stdout : String
  stderr : String
  deriving DecidableEq

def versionText : String := "alg 0.1.0\n"

def usageText : String :=
  "Usage: alg [--right-assoc-pow] [--no-trig-snap] [FILE [NAME=VALUE]...]\n"

def invalidText : String := "stream did not contain valid UTF-8"

def failure (stdout message : String) : Outcome :=
  { status := 1, stdout, stderr := "Error: " ++ message ++ "\n" }

/-- The texts of the system for the numbers of failed accesses to files. -/
def systemTexts : List (Nat × String) :=
  [(1, "Operation not permitted"), (2, "No such file or directory"), (5, "Input/output error"),
    (6, "No such device or address"), (13, "Permission denied"), (20, "Not a directory"),
    (21, "Is a directory"), (24, "Too many open files"), (36, "File name too long"),
    (40, "Too many levels of symbolic links")]

/-- The text and the number of a failed access; `details` is the text of a number unknown here. -/
def systemReason (code : Nat) (details : String) : String :=
  (systemTexts.lookup code).getD details ++ " (os error " ++ toString code ++ ")"

def decode (bytes : List UInt8) : Option String :=
  String.fromUTF8? bytes.toByteArray

def runText (s : Session) (text : String) : Outcome :=
  let r := s.runScript text
  let stdout := showResults r.results
  match r.error with
  | none => { status := 0, stdout, stderr := "" }
  | some e => failure stdout e.message

def runFile (s : Session) (path : String) (contents : Except String (List UInt8)) : Outcome :=
  let unreadable (reason : String) : Outcome :=
    failure "" ("failed to read the input file '" ++ path ++ "': " ++ reason)
  match contents with
  | .error reason => unreadable reason
  | .ok bytes =>
    match decode bytes with
    | none => unreadable invalidText
    | some text => runText s text

/-- The lines before the first that is no text, and whether there is such a line. -/
def decodeLines : List (List UInt8) → List String × Bool
  | [] => ([], false)
  | bytes :: rest =>
    match decode bytes with
    | none => ([], true)
    | some line =>
      let (lines, broken) := decodeLines rest
      (line :: lines, broken)

/-- The lines of an input are split at its line feeds before they are decoded. -/
def inputLines (bytes : List UInt8) : List String × Bool :=
  decodeLines (Text.stretches 10 13 bytes)

/-- Holds a conversation over an input. A line that is no text is an error when it is reached. -/
def runInput (s : Session) (bytes : List UInt8) : Outcome :=
  let (lines, broken) := inputLines bytes
  let transcript := converse s lines
  if broken ∧ ¬ transcript.exited then failure transcript.output invalidText
  else { status := 0, stdout := transcript.output, stderr := "" }

/-- What one line of an input leads to: the conversation goes on, or it ends. -/
inductive Turn
  | answered (next : Session) (answer : String)
  | ended (outcome : Outcome)

/-- Takes a line with the line feed that ends it, or nothing at the end of the input. -/
def turn (s : Session) (bytes : List UInt8) : Turn :=
  match inputLines bytes with
  | ([], true) => .ended (failure "" invalidText)
  | ([], false) => .ended { status := 0, stdout := "", stderr := "" }
  | (line :: _, _) =>
    match respond s line with
    | none => .ended { status := 0, stdout := "", stderr := "" }
    | some (next, answer) => .answered next answer

def runCommand (readFile : String → Except String (List UInt8)) (input : List UInt8) :
    Command → Outcome
  | .version => { status := 0, stdout := versionText, stderr := "" }
  | .help => { status := 0, stdout := usageText, stderr := "" }
  | .script path bindings options => runFile (.start options bindings) path (readFile path)
  | .converse options => runInput (.start options []) input

def run (arguments : List String) (readFile : String → Except String (List UInt8))
    (input : List UInt8) : Outcome :=
  match parseArguments arguments with
  | .ok command => runCommand readFile input command
  | .error e => { status := 2, stdout := "", stderr := "error: " ++ e.message ++ "\n\n" ++ usageText }

end Reckon.Console
