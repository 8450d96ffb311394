/-! # Builtin functions

The six functions of one argument, their names and their meaning. Snapping replaces the results
of `sin`, `cos` and `tan` at plus and minus a quarter turn by the exact ones.
-/

namespace Reckon

inductive Function
  | sin
  | cos
  | tan
  /-- The logarithm to base ten. -/
  | log
  | ln
  | sqrt
  deriving DecidableEq, Repr

namespace Function

def all : List Function :=
  [sin, cos, tan, log, ln, sqrt]

def name : Function → String
  | sin => "sin"
  | cos => "cos"
  | tan => "tan"
  | log => "log"
  | ln => "ln"
  | sqrt => "sqrt"

def ofName? (name : String) : Option Function :=
  all.find? fun f => f.name = name

theorem ofName?_eq_some_iff (name : String) (f : Function) :
    ofName? name = some f ↔ f.name = name := by
  constructor
  · intro h
    simpa using List.find?_some h
  · rintro rfl
    cases f <;> rfl

def compute : Function → Float → Float
  | sin, x => x.sin
  | cos, x => x.cos
  | tan, x => x.tan
  | log, x => x.log10
  | ln, x => x.log
  | sqrt, x => x.sqrt

/-- The binary64 value nearest to a quarter turn. -/
def quarterTurn : Float :=
  .ofBits 0x3FF921FB54442D18

/-- The exact result at a quarter turn, or a negative one, for the functions that have one. -/
def snapped? (f : Function) (x : Float) : Option Float :=
  if x.abs == quarterTurn then
    match f with
    | sin => some 1
    | cos => some 0
    | tan => some (if x < 0 then -1 / 0 else 1 / 0)
    | log | ln | sqrt => none
  else none

def apply (snap : Bool) (f : Function) (x : Float) : Float :=
  if snap then (f.snapped? x).getD (f.compute x) else f.compute x

end Function

end Reckon
