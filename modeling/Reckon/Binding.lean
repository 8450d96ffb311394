import Reckon.Number.Reader
import Reckon.Text.Blank
import Reckon.Text.Split

/-! # Bindings

An argument of the form `name=value`. It is cut at its first equals sign; the name may be any text
that is not blank, and the value is a number.
-/

namespace Reckon

inductive BindingError
  | missingEquals (argument : String)
  | emptyName (argument : String)
  | invalidValue (argument : String) (cause : Number.ReadError)
  deriving DecidableEq, Repr

def BindingError.message : BindingError → String
  | missingEquals argument => "binding '" ++ argument ++ "' is not of the form name=value"
  | emptyName argument => "binding '" ++ argument ++ "' has an empty name"
  | invalidValue argument cause =>
    "binding '" ++ argument ++ "' has an invalid value: " ++ cause.message

def parseBinding (argument : String) : Except BindingError (String × Float) :=
  match Text.cutEquals argument with
  | none => .error (.missingEquals argument)
  | some (left, right) =>
    if (Text.trim left).isEmpty then .error (.emptyName argument)
    else
      match Number.read (Text.trim right) with
      | .ok value => .ok (Text.trim left, value)
      | .error cause => .error (.invalidValue argument cause)

end Reckon
