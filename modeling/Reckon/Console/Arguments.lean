import Reckon.Binding
import Reckon.Options

/-! # Console arguments

Arguments are read from left to right: flags, the path of a script, and then bindings for it. Two
dashes end the flags. A request for the version or for help is answered where it stands.
-/

namespace Reckon.Console

inductive Command
  | version
  | help
  | script (path : String) (bindings : List (String × Float)) (options : Options)
  | converse (options : Options)

inductive UsageError
  | unknownFlag (argument : String)
  | repeatedFlag (flag : String)
  | emptyPath
  | binding (cause : BindingError)
  deriving DecidableEq, Repr

def UsageError.message : UsageError → String
  | unknownFlag argument => "unexpected argument '" ++ argument ++ "'"
  | repeatedFlag flag => "the argument '" ++ flag ++ "' cannot be used more than once"
  | emptyPath => "the path of the script is empty"
  | binding cause => cause.message

structure Request where
  rightAssocPow : Bool := false
  noTrigSnap : Bool := false
  path : Option String := none
  bindings : List (String × Float) := []

namespace Request

def options (r : Request) : Options :=
  { power := if r.rightAssocPow then .right else .left, snapTrig := !r.noTrigSnap }

def command (r : Request) : Command :=
  match r.path with
  | some path => .script path r.bindings r.options
  | none => .converse r.options

/-- The first value is the path of the script, the others are bindings. -/
def addValue (r : Request) (value : String) : Except UsageError Request :=
  match r.path with
  | none => if value.isEmpty then .error .emptyPath else .ok { r with path := some value }
  | some _ =>
    match parseBinding value with
    | .ok binding => .ok { r with bindings := r.bindings ++ [binding] }
    | .error cause => .error (.binding cause)

def addValues (r : Request) (values : List String) : Except UsageError Request :=
  values.foldlM addValue r

end Request

inductive Step
  | next (request : Request)
  | decided (command : Command)

def longFlag (r : Request) (argument : String) : Except UsageError Step :=
  match argument with
  | "--version" => .ok (.decided .version)
  | "--help" => .ok (.decided .help)
  | "--right-assoc-pow" =>
    if r.rightAssocPow then .error (.repeatedFlag argument)
    else .ok (.next { r with rightAssocPow := true })
  | "--no-trig-snap" =>
    if r.noTrigSnap then .error (.repeatedFlag argument)
    else .ok (.next { r with noTrigSnap := true })
  | _ => .error (.unknownFlag argument)

/-- Flags of one letter after one dash. Both of them decide the command, so only the first
letter counts. -/
def shortFlags (argument : String) : Except UsageError Step :=
  match argument.toList with
  | _ :: 'V' :: _ => .ok (.decided .version)
  | _ :: 'h' :: _ => .ok (.decided .help)
  | _ => .error (.unknownFlag argument)

def step (r : Request) (argument : String) : Except UsageError Step :=
  match argument.toList with
  | '-' :: '-' :: _ => longFlag r argument
  | '-' :: _ :: _ => shortFlags argument
  | _ => (r.addValue argument).map .next

def parseFrom (r : Request) : List String → Except UsageError Command
  | [] => .ok r.command
  | argument :: arguments =>
    if argument = "--" then (r.addValues arguments).map Request.command
    else do
      match ← step r argument with
      | .decided command => return command
      | .next r => parseFrom r arguments

def parseArguments (arguments : List String) : Except UsageError Command :=
  parseFrom {} arguments

end Reckon.Console
