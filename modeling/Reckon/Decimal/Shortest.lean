import Reckon.Decimal

/-! # Shortest decimals

Among the decimals that are nearest to a binary64 magnitude and to no other, `shortest` picks one
with the fewest digits, and of those the closest. On each grid of a given number of digits only
the two neighbours of the value can be closest.
-/

namespace Reckon.Decimal

open Binary64

/-- The finest grid of the search has this many places. The least positive magnitude has
seventeen digits on it. -/
def finestPlaces : Nat := 340

/-- The value of a finite word on the finest grid, rounded down. -/
def scaled (w : Nat) : Nat :=
  units w * powerOfTen finestPlaces / unitsPerOne

def ofGrid (count step : Nat) : Decimal :=
  if step ≤ finestPlaces then strip count (finestPlaces - step)
  else ⟨count * powerOfTen (step - finestPlaces), 0⟩

/-- Whether `count * 10 ^ step` is closer to the value of `w` than the next point of its grid,
both counted on the finest grid. A half is closer to the next point. -/
def isCloser (w count step : Nat) : Bool :=
  let value := units w * powerOfTen finestPlaces
  let low := count * powerOfTen step * unitsPerOne
  let high := (count + 1) * powerOfTen step * unitsPerOne
  decide (value - low < high - value)

/-- The closest decimal of `count` digits that is read as the word `w`. -/
def closest? (w count : Nat) : Option Decimal :=
  let step := (Nat.toDigits 10 (scaled w)).length - count
  let below := scaled w / powerOfTen step
  let low := ofGrid below step
  let high := ofGrid (below + 1) step
  if low.word = w ∧ (high.word = w → isCloser w below step) then some low
  else if high.word = w then some high
  else none

def exact (w : Nat) : Decimal :=
  ⟨units w * Nat.pow 5 unitExponent, unitExponent⟩

/-- The shortest decimal that is read as the finite word `w`. Seventeen digits always suffice. -/
def shortest (w : Nat) : Decimal :=
  ((List.range 17).findSome? fun n => closest? w (n + 1)).getD (exact w)

theorem word_of_closest? {w count : Nat} {d : Decimal} (h : closest? w count = some d) :
    d.word = w := by
  simp only [closest?] at h
  split at h
  · next hw => simpa [← Option.some.inj h] using hw.1
  · split at h
    · next hw => simpa [← Option.some.inj h] using hw
    · simp at h

theorem pow_five_pos (n : Nat) : 0 < Nat.pow 5 n :=
  Nat.pow_pos (Nat.succ_pos 4)

theorem word_exact {w : Nat} (hw : w < infinity) : (exact w).word = w := by
  rw [word, exact, powerOfTen_eq]
  exact nearest_units hw (pow_five_pos unitExponent)

theorem word_shortest {w : Nat} (hw : w < infinity) : (shortest w).word = w := by
  unfold shortest
  cases h : (List.range 17).findSome? fun n => closest? w (n + 1) with
  | none => exact word_exact hw
  | some d =>
    obtain ⟨n, _, hn⟩ := List.exists_of_findSome?_eq_some h
    exact word_of_closest? hn

end Reckon.Decimal
