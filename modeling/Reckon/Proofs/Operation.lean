import Mathlib.Data.Nat.Notation
import Reckon.Script

/-! # Operations on a session

What can be done with a session, in any order and any number of times. An operation that fails leaves
the session as it finds it, apart from the statements of a script that ran before the failure.
-/

namespace Reckon

/-- A line is parsed and run, or all lines of a script are, whether its results are collected or
streamed, or a line is parsed and kept, or a statement that was kept is run. -/
inductive Operation
  | line (text : String)
  | script (text : String)
  | keep (options : Options) (text : String)
  | rerun (index : ℕ)

/-- A session and the statements kept for it, the last one at the head. -/
structure Desk where
  session : Session
  kept : List Statement

namespace Desk

def start (options : Options) (bindings : List (String × Float)) : Desk :=
  ⟨.start options bindings, []⟩

def perform (d : Desk) : Operation → Desk
  | .line text =>
    match d.session.runLine text with
    | .error _ => d
    | .ok (_, next) => { d with session := next }
  | .script text => { d with session := (d.session.runScript text).session }
  | .keep options text =>
    match Statement.parse options text with
    | .error _ => d
    | .ok st => { d with kept := st :: d.kept }
  | .rerun index =>
    match d.kept[index]? with
    | none => d
    | some st =>
      match d.session.run st with
      | .error _ => d
      | .ok (_, next) => { d with session := next }

def performAll (d : Desk) (ops : List Operation) : Desk :=
  ops.foldl perform d

/-- The sessions that there are while an operation is carried out: those before and after it, and
within a script also those after each of its statements. -/
inductive Meets (d : Desk) : Operation → Session → Prop
  | before (op : Operation) : d.Meets op d.session
  | after (op : Operation) : d.Meets op (d.perform op).session
  | within {text : String} {sts us : List (ℕ × Statement)}
      (h : Statement.parseLines d.session.options (Text.lines text) = .ok sts) (hu : us <+: sts) :
      d.Meets (.script text) (d.session.runNumbered us).session

end Desk

end Reckon
