import Reckon.Decimal
import Reckon.Text.Split

/-! # Reading a number

A number is a sign, which may be missing, and then a word for infinity or for no number, or digits
around a point with a decimal exponent. The value read is the nearest one.
-/

namespace Reckon.Number

inductive ReadError
  | empty
  | invalid
  deriving DecidableEq, Repr

def ReadError.message : ReadError → String
  | .empty => "cannot parse float from empty string"
  | .invalid => "invalid float literal"

/-- The two sides of the point; without a point all is on its left. -/
def sides (cs : List Char) : List Char × List Char :=
  (Text.cut '.' cs).getD (cs, [])

/-- Digits around at most one point, at least one digit in all. -/
def readDecimal (cs : List Char) : Option Decimal :=
  let (whole, fraction) := sides cs
  if (whole ++ fraction).all Char.isDigit ∧ whole ++ fraction ≠ [] then
    some (.ofDigits whole fraction)
  else none

theorem sides_text (d : Decimal) :
    sides d.text = d.digits.splitAt (d.digits.length - d.places) := by
  have hpoint {cs : List Char} (h : ∀ c ∈ cs, c ∈ d.digits) : '.' ∉ cs := fun hc =>
    absurd (Decimal.isDigit_of_mem_digits (h _ hc)) (by decide)
  simp only [sides, Decimal.text, List.splitAt_eq]
  split
  · next hp => simp [Text.cut_eq_none_iff.mpr (hpoint fun _ => id), hp]
  · simp [Text.cut_append_cons _ (hpoint fun _ => List.mem_of_mem_take)]

theorem readDecimal_text (d : Decimal) : readDecimal d.text = some d := by
  have hlen := d.length_digits
  have hall : d.digits.all Char.isDigit = true :=
    List.all_eq_true.mpr fun _ => Decimal.isDigit_of_mem_digits
  have hne : d.digits ≠ [] := List.ne_nil_of_length_pos (by omega)
  have hplaces : d.digits.length - (d.digits.length - d.places) = d.places := by omega
  simp [readDecimal, sides_text, hall, hne, Decimal.ofDigits, Decimal.ofDigitChars_digits, hplaces]

def splitSign : List Char → Bool × List Char
  | '-' :: cs => (true, cs)
  | '+' :: cs => (false, cs)
  | cs => (false, cs)

def readExponent (cs : List Char) : Option Int :=
  let (negative, digits) := splitSign cs
  if digits.all Char.isDigit ∧ digits ≠ [] then
    let e : Nat := Nat.ofDigitChars 10 digits 0
    some (if negative then -e else e)
  else none

/-- A decimal with an exponent behind the letter `e`, which may be missing. -/
def readMagnitude (cs : List Char) : Option Float :=
  match Text.cut 'e' (cs.map Char.toLower) with
  | none => (readDecimal cs).map Decimal.toFloat
  | some (mantissa, exponent) => do
    let d ← readDecimal mantissa
    let e ← readExponent exponent
    return (d.scale e).toFloat

def readUnsigned (cs : List Char) : Option Float :=
  let lower := String.ofList (cs.map Char.toLower)
  if lower = "inf" ∨ lower = "infinity" then some (Binary64.ofWord Binary64.infinity)
  else if lower = "nan" then some (0.0 / 0.0)
  else readMagnitude cs

def read (text : String) : Except ReadError Float :=
  if text.isEmpty then .error .empty
  else
    let (negative, cs) := splitSign text.toList
    match readUnsigned cs with
    | some x => .ok (if negative then -x else x)
    | none => .error .invalid

example : (read "-1.5e1").toOption = some (-15) := by decide +kernel
example : (read "0e99999").toOption = some 0 := by decide +kernel
example : (read "1e-99999").toOption = some 0 := by decide +kernel
example : (read ".e1").toOption = none := by decide +kernel

end Reckon.Number
