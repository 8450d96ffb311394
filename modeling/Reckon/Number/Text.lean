import Reckon.Decimal.Shortest

/-! # The text of a number

A number is written in positional digits after its sign. `text` takes the shortest digits that are
read as the number, `fixed` a given number of places.
-/

namespace Reckon.Number

open Binary64

/-- Infinity and the values that are no numbers are words, all else is the text of a decimal. -/
def render (decimal : Nat → Decimal) (x : Float) : String :=
  if infinity < word x then "NaN"
  else
    let magnitude := if word x = infinity then "inf".toList else (decimal (word x)).text
    .ofList (if isNegative x then '-' :: magnitude else magnitude)

def text (x : Float) : String :=
  render Decimal.shortest x

/-- The decimal with the given places nearest to a finite word; a half goes to the even one. -/
def roundPlaces (places w : Nat) : Decimal :=
  ⟨roundQuotient (units w * Decimal.powerOfTen places) unitsPerOne, places⟩

def fixed (places : Nat) (x : Float) : String :=
  render (roundPlaces places) x

example : text 0.1 = "0.1" := by decide +kernel
example : text (-0.0) = "-0" := by decide +kernel
example : text 1e23 = "100000000000000000000000" := by decide +kernel
example : fixed 6 0.0078125 = "0.007812" := by decide +kernel

end Reckon.Number
