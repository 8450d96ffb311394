/-! # Binary floating-point words

A binary64 magnitude is a word below the sign bit; words count the magnitudes upward from zero.
`units` is the value of a word in units of the least positive one, and `nearest` rounds a
quotient to a word. A value that a word has is rounded to that word.
-/

namespace Reckon.Binary64

def signBit : Nat := 0x8000000000000000

/-- The word of the infinity, one above that of the largest finite magnitude. -/
def infinity : Nat := 0x7FF0000000000000

/-- The leading bit of a coefficient of full length, and the step from one shift to the next. -/
def leadingBit : Nat := 0x10000000000000

def isNegative (x : Float) : Bool :=
  decide (signBit ≤ x.toBits.toNat)

/-- The word of the magnitude of `x`: its bits without the sign. -/
def word (x : Float) : Nat :=
  x.toBits.toNat % signBit

def ofWord (w : Nat) : Float :=
  .ofBits (.ofNat w)

/-- The least positive magnitude, the unit of all others, is two to this power below one. -/
def unitExponent : Nat := 1074

def unitsPerOne : Nat :=
  1 <<< unitExponent

/-- The value of a finite word, a coefficient with a shift to the left. -/
def units (w : Nat) : Nat :=
  let shift := w / leadingBit - 1
  (w - shift * leadingBit) <<< shift

/-- The natural number nearest to `n / d`; a half goes to the even neighbour. -/
def roundQuotient (n d : Nat) : Nat :=
  let floor := n / d
  let twice := 2 * (n % d)
  if twice < d ∨ twice = d ∧ floor % 2 = 0 then floor else floor + 1

/-- The word of the magnitude nearest to `n / d`; a half goes to the even word. -/
def nearest (n d : Nat) : Nat :=
  let scaled := n * unitsPerOne
  let shift := (scaled / d).log2 - leadingBit.log2
  min infinity (shift * leadingBit + roundQuotient scaled (d <<< shift))

theorem roundQuotient_mul (q d : Nat) (h : 0 < d) : roundQuotient (q * d) d = q := by
  simp [roundQuotient, h]

theorem log2_leadingBit : leadingBit.log2 = 52 := by
  decide +kernel

theorem shiftLeft_pos {n : Nat} (h : 0 < n) (k : Nat) : 0 < n <<< k := by
  rw [Nat.shiftLeft_eq]
  exact Nat.mul_pos h (Nat.two_pow_pos k)

theorem log2_shiftLeft {n : Nat} (h : n ≠ 0) (k : Nat) : (n <<< k).log2 = n.log2 + k := by
  induction k with
  | zero => simp
  | succ k ih =>
    rw [Nat.shiftLeft_succ, Nat.log2_two_mul (Nat.ne_of_gt (shiftLeft_pos (by omega) k)), ih]
    omega

theorem log2_units (w : Nat) : (units w).log2 - leadingBit.log2 = w / leadingBit - 1 := by
  rw [log2_leadingBit, units]
  rcases Nat.lt_or_ge w leadingBit with h | h
  · rw [Nat.div_eq_of_lt h, Nat.zero_sub, Nat.zero_mul, Nat.sub_zero, Nat.shiftLeft_zero]
    rcases Nat.eq_zero_or_pos w with rfl | hw
    · simp
    · exact Nat.sub_eq_zero_of_le (Nat.le_of_lt_succ
        (Nat.lt_succ_of_lt ((Nat.log2_lt (Nat.ne_of_gt hw)).mpr h)))
  · have hdiv := Nat.div_add_mod w leadingBit
    have hmod := Nat.mod_lt w (show 0 < leadingBit by decide)
    have hq : 1 ≤ w / leadingBit := (Nat.one_le_div_iff (by decide)).mpr h
    generalize w / leadingBit = q at hdiv hq ⊢
    have hm : leadingBit ≤ w - (q - 1) * leadingBit ∧ w - (q - 1) * leadingBit < 2 * leadingBit := by
      simp only [leadingBit] at hdiv hmod ⊢
      omega
    have hne : w - (q - 1) * leadingBit ≠ 0 := by
      simp only [leadingBit] at hm ⊢
      omega
    have hlog : (w - (q - 1) * leadingBit).log2 = 52 := (Nat.log2_eq_iff hne).mpr hm
    rw [log2_shiftLeft hne, hlog]
    omega

/-- The value of a finite word is rounded to that word, however it is written as a quotient. -/
theorem nearest_units {w k : Nat} (hw : w < infinity) (hk : 0 < k) :
    nearest (units w * k) (unitsPerOne * k) = w := by
  have hd : 0 < unitsPerOne * k := Nat.mul_pos (shiftLeft_pos Nat.one_pos unitExponent) hk
  have hscaled : units w * k * unitsPerOne = units w * (unitsPerOne * k) := by
    rw [Nat.mul_assoc, Nat.mul_comm k]
  have hle : (w / leadingBit - 1) * leadingBit ≤ w :=
    Nat.le_trans (Nat.mul_le_mul_right _ (Nat.sub_le _ _)) (Nat.div_mul_le_self w leadingBit)
  have hround : roundQuotient (units w * (unitsPerOne * k))
      ((unitsPerOne * k) <<< (w / leadingBit - 1)) = w - (w / leadingBit - 1) * leadingBit := by
    rw [units, Nat.shiftLeft_eq, Nat.shiftLeft_eq, Nat.mul_assoc, Nat.mul_comm (2 ^ _)]
    exact roundQuotient_mul _ _ (Nat.mul_pos hd (Nat.two_pow_pos _))
  simp only [nearest, hscaled, Nat.mul_div_cancel _ hd, log2_units, hround]
  rw [Nat.add_sub_cancel' hle, Nat.min_eq_right (Nat.le_of_lt hw)]

example : nearest 1 1 = 0x3FF0000000000000 := by decide +kernel
example : nearest 1 10 = 0x3FB999999999999A := by decide +kernel
example : nearest (2 * leadingBit + 1) 1 = nearest (2 * leadingBit) 1 := by decide +kernel
example : nearest (1 <<< 1024) 1 = infinity := by decide +kernel

end Reckon.Binary64
