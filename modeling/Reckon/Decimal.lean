import Reckon.Binary64

/-! # Positional decimals

A decimal is a natural coefficient over a power of ten. It is read from digits around a point,
written the same way, and rounded to the nearest binary64 value.
-/

namespace Reckon

/-- The number `coefficient / 10 ^ places`. -/
structure Decimal where
  coefficient : Nat
  places : Nat
  deriving DecidableEq, Repr

namespace Decimal

def powerOfTen (n : Nat) : Nat :=
  Nat.pow 10 n

theorem powerOfTen_eq (n : Nat) : powerOfTen n = 1 <<< n * Nat.pow 5 n := by
  simp only [powerOfTen, Nat.pow_eq, Nat.shiftLeft_eq, Nat.one_mul, ← Nat.mul_pow]

def ofDigits (whole fraction : List Char) : Decimal :=
  ⟨Nat.ofDigitChars 10 (whole ++ fraction) 0, fraction.length⟩

def word (d : Decimal) : Nat :=
  Binary64.nearest d.coefficient (powerOfTen d.places)

def toFloat (d : Decimal) : Float :=
  Binary64.ofWord d.word

/-- At least one digit before the point. -/
def digits (d : Decimal) : List Char :=
  (Nat.toDigits 10 d.coefficient).leftpad (d.places + 1) '0'

/-- The digits with a point before the last `places` of them, and without it if there are none. -/
def text (d : Decimal) : List Char :=
  let whole := d.digits.length - d.places
  if d.places = 0 then d.digits
  else d.digits.take whole ++ '.' :: d.digits.drop whole

/-- Removes the zeros that end the fraction. -/
def strip : Nat → Nat → Decimal
  | coefficient, 0 => ⟨coefficient, 0⟩
  | coefficient, places + 1 =>
    if coefficient % 10 = 0 then strip (coefficient / 10) places else ⟨coefficient, places + 1⟩

/-- The decimal `d * 10 ^ e`. A finite magnitude is below `10 ^ 400` and a nonzero one above
`10 ^ -400`, so an exponent that leads beyond these is cut there. -/
def scale (d : Decimal) (e : Int) : Decimal :=
  if 0 ≤ e then
    ⟨d.coefficient * powerOfTen (min e.toNat (400 + d.places)), d.places⟩
  else
    let digitCount := (Nat.toDigits 10 d.coefficient).length
    ⟨d.coefficient, d.places + min (-e).toNat (400 + digitCount)⟩

theorem length_digits (d : Decimal) : d.places < d.digits.length := by
  simp only [digits, List.leftpad, List.length_append, List.length_replicate]
  omega

theorem isDigit_of_mem_digits {d : Decimal} {c : Char} (h : c ∈ d.digits) : c.isDigit = true := by
  simp only [digits, List.leftpad, List.mem_append, List.mem_replicate] at h
  rcases h with ⟨_, rfl⟩ | h
  · rfl
  · exact Nat.isDigit_of_mem_toDigits (by decide) (by decide) h

theorem ofDigitChars_digits (d : Decimal) : Nat.ofDigitChars 10 d.digits 0 = d.coefficient := by
  simp [digits, List.leftpad, Nat.ofDigitChars_append, Nat.ofDigitChars_replicate_zero]

example : (ofDigits ['1', '2'] ['5', '0']).text = ['1', '2', '.', '5', '0'] := by decide
example : (⟨5, 3⟩ : Decimal).text = ['0', '.', '0', '0', '5'] := by decide
example : (strip 1200 3).text = ['1', '.', '2'] := by decide

end Decimal

end Reckon
