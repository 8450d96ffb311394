import Mathlib
import Reckon.Binary64

/-! # Signs and words

The negation of a number adds the sign bit to its bits and nothing else, and its absolute value
removes it. A number is therefore that of its word, or the negation of that if it has the sign bit.

The laws of packed numbers (`pack_unpack`, `Float.ofBits_toBits`) are in no smaller part of Mathlib,
so it is imported whole.
-/

namespace Reckon.Binary64

open Float.Model Float.Model.UnpackedFloat

abbrev Bits := BitVec Format.binary64.numBits

variable {b b' : Bits} {x y : Float} {w : ℕ}

theorem toNat_unpackExponent (b : Bits) : (unpackExponent b).toNat = b.toNat / 2 ^ 52 % 2 ^ 11 := by
  rw [unpackExponent_def, BitVec.extractLsb'_toNat, Nat.shiftRight_eq_div_pow]

theorem toNat_unpackMantissa (b : Bits) : (unpackMantissa b).toNat = b.toNat % 2 ^ 52 := by
  rw [unpackMantissa_def, BitVec.extractLsb'_toNat, Nat.shiftRight_zero]

theorem toNat_unpackSign (b : Bits) : (unpackSign b).toNat = b.toNat / 2 ^ 63 % 2 ^ 1 := by
  rw [unpackSign_def, BitVec.extractLsb'_toNat, Nat.shiftRight_eq_div_pow]
  rfl

theorem unpackExponent_congr (h : b.toNat % 2 ^ 63 = b'.toNat % 2 ^ 63) :
    unpackExponent b = unpackExponent b' := by
  rw [← BitVec.toNat_inj, toNat_unpackExponent, toNat_unpackExponent]
  omega

theorem unpackMantissa_congr (h : b.toNat % 2 ^ 63 = b'.toNat % 2 ^ 63) :
    unpackMantissa b = unpackMantissa b' := by
  rw [← BitVec.toNat_inj, toNat_unpackMantissa, toNat_unpackMantissa]
  omega

def flip (b : Bits) : Bits :=
  b + BitVec.ofNat _ signBit

theorem toNat_flip (b : Bits) : (flip b).toNat = (b.toNat + 2 ^ 63) % 2 ^ 64 :=
  BitVec.toNat_add ..

theorem unpackSign_flip (b : Bits) :
    Sign.ofBitVec (unpackSign (flip b)) = -Sign.ofBitVec (unpackSign b) := by
  have hb := toNat_unpackSign b
  have hf := toNat_unpackSign (flip b)
  rw [toNat_flip] at hf
  rcases BitVec.eq_zero_or_eq_one (unpackSign b) with h | h <;>
    rcases BitVec.eq_zero_or_eq_one (unpackSign (flip b)) with h' | h' <;>
      rw [h] at hb <;> rw [h'] at hf <;> simp at hb hf
  · omega
  · rw [h, h']; rfl
  · rw [h, h']; rfl
  · omega

theorem unpack_flip (b : Bits) : UnpackedFloat.unpack .binary64 (flip b) =
    (UnpackedFloat.unpack .binary64 b).neg := by
  have h : (flip b).toNat % 2 ^ 63 = b.toNat % 2 ^ 63 := by
    rw [toNat_flip]
    omega
  unfold UnpackedFloat.unpack
  simp only [unpackExponent_congr h, unpackMantissa_congr h, unpackSign_flip]
  split
  · split <;> rfl
  · split
    · split <;> rfl
    · rfl

theorem neg_eq_ofBits (x : Float) : -x = .ofBits (x.toBits + .ofNat signBit) := by
  have h := unpack_flip x.toBits.toBitVec
  change Float.ofModel (Float.Model.pack (UnpackedFloat.unpack .binary64 x.toBits.toBitVec).neg) = _
  rw [← h]
  rfl

def unsigned (b : Bits) : Bits :=
  BitVec.ofNat _ (b.toNat % signBit)

theorem toNat_unsigned (b : Bits) : (unsigned b).toNat = b.toNat % 2 ^ 63 := by
  have hb : b.toNat % 2 ^ 63 < 2 ^ 64 := by omega
  exact (BitVec.toNat_ofNat ..).trans (Nat.mod_eq_of_lt hb)

theorem unpackSign_unsigned (b : Bits) : unpackSign (unsigned b) = BitVec.ofNat _ 0 := by
  rw [← BitVec.toNat_inj, toNat_unpackSign, toNat_unsigned, BitVec.toNat_ofNat]
  omega

theorem unpack_unsigned (b : Bits) : UnpackedFloat.unpack .binary64 (unsigned b) =
    (UnpackedFloat.unpack .binary64 b).abs := by
  have h : (unsigned b).toNat % 2 ^ 63 = b.toNat % 2 ^ 63 := by rw [toNat_unsigned, Nat.mod_mod]
  unfold UnpackedFloat.unpack
  simp only [unpackExponent_congr h, unpackMantissa_congr h, unpackSign_unsigned]
  split
  · split <;> rfl
  · split
    · split <;> rfl
    · rfl

theorem abs_eq_ofWord (x : Float) : x.abs = ofWord (word x) := by
  have h := unpack_unsigned x.toBits.toBitVec
  change Float.ofModel (Float.Model.pack (UnpackedFloat.unpack .binary64 x.toBits.toBitVec).abs) = _
  rw [← h]
  rfl

theorem unpackExponent_eq_iff : unpackExponent b = -BitVec.ofNat _ 1 ↔
    b.toNat / 2 ^ 52 % 2 ^ 11 = 2047 := by
  rw [← BitVec.toNat_inj, toNat_unpackExponent]
  rfl

theorem unpackMantissa_eq_zero_iff : unpackMantissa b = BitVec.ofNat _ 0 ↔ b.toNat % 2 ^ 52 = 0 := by
  rw [← BitVec.toNat_inj, toNat_unpackMantissa, BitVec.toNat_ofNat, Nat.zero_mod]

theorem isFinite_iff : x.isFinite = true ↔ word x < infinity := by
  have he : x.isFinite = true ↔
      @unpackExponent .binary64 x.toBits.toBitVec ≠ -BitVec.ofNat _ 1 := by
    change (UnpackedFloat.unpack .binary64 x.toBits.toBitVec).isFinite = true ↔ _
    rw [UnpackedFloat.unpack]
    simp only [apply_ite UnpackedFloat.isFinite, apply_dite UnpackedFloat.isFinite]
    simp [UnpackedFloat.isFinite]
  have hb : x.toBits.toBitVec.toNat = x.toBits.toNat := rfl
  rw [he, ne_eq, unpackExponent_eq_iff, hb, word, infinity, signBit]
  omega

theorem isNaN_iff : x.isNaN = true ↔ infinity < word x := by
  have he : x.isNaN = true ↔ @unpackExponent .binary64 x.toBits.toBitVec = -BitVec.ofNat _ 1 ∧
      @unpackMantissa .binary64 x.toBits.toBitVec ≠ BitVec.ofNat _ 0 := by
    change (UnpackedFloat.unpack .binary64 x.toBits.toBitVec).isNaN = true ↔ _
    rw [UnpackedFloat.unpack]
    simp only [apply_ite UnpackedFloat.isNaN, apply_dite UnpackedFloat.isNaN]
    simp [UnpackedFloat.isNaN]
  have hb : x.toBits.toBitVec.toNat = x.toBits.toNat := rfl
  rw [he, ne_eq, unpackMantissa_eq_zero_iff, unpackExponent_eq_iff, hb, word, infinity, signBit]
  omega

theorem isNaN_eq_false_iff : x.isNaN = false ↔ word x ≤ infinity := by
  rw [← not_lt, ← isNaN_iff, Bool.not_eq_true]

theorem toNat_toBits_ofWord (h : w ≤ infinity) : (ofWord w).toBits.toNat = w := by
  unfold infinity at h
  have hw : (UInt64.ofNat w).toBitVec.toNat = w := by
    simp
    omega
  change (UnpackedFloat.pack .binary64
    (UnpackedFloat.unpack .binary64 (UInt64.ofNat w).toBitVec)).toNat = w
  rw [pack_unpack, if_neg]
  · exact hw
  · intro hn
    simp only [isNaNBits, decide_eq_true_eq] at hn
    obtain ⟨he, hm⟩ := hn
    rw [unpackExponent_eq_iff, hw] at he
    rw [ne_eq, unpackMantissa_eq_zero_iff, hw] at hm
    omega

theorem isNegative_ofWord (h : w ≤ infinity) : isNegative (ofWord w) = false := by
  have hs : infinity < signBit := by decide
  rw [isNegative, toNat_toBits_ofWord h]
  simpa using h.trans_lt hs

theorem word_ofWord (h : w ≤ infinity) : word (ofWord w) = w := by
  have hs : infinity < signBit := by decide
  rw [word, toNat_toBits_ofWord h, Nat.mod_eq_of_lt (h.trans_lt hs)]

theorem ofWord_word (h : isNegative x = false) : ofWord (word x) = x := by
  have hx : x.toBits.toNat < signBit := by simpa [isNegative] using h
  rw [ofWord, word, Nat.mod_eq_of_lt hx, UInt64.ofNat_toNat, Float.ofBits_toBits]

/-- What is no number has only one form, and this has no sign bit. -/
theorem word_le_of_isNegative (h : isNegative x = true) : word x ≤ infinity := by
  have hx : signBit ≤ x.toBits.toNat := by simpa [isNegative] using h
  have hlt := x.toBits.toNat_lt
  have hb : x.toBits.toBitVec.toNat = x.toBits.toNat := rfl
  by_contra hw
  simp only [word, infinity, signBit] at hw hx
  have he : @unpackExponent .binary64 x.toBits.toBitVec = -BitVec.ofNat _ 1 := by
    rw [unpackExponent_eq_iff, hb]
    omega
  have hm : @unpackMantissa .binary64 x.toBits.toBitVec ≠ BitVec.ofNat _ 0 := by
    rw [ne_eq, unpackMantissa_eq_zero_iff, hb]
    omega
  have hnan := congrArg BitVec.toNat (x.toModel.valid.eq_packedNaN he hm)
  have hbits : (packedNaN .binary64).toNat = 0x7FF8000000000000 := by decide
  rw [hbits] at hnan
  change x.toBits.toNat = _ at hnan
  omega

theorem neg_ofWord_word (h : isNegative x = true) : -ofWord (word x) = x := by
  have hx : signBit ≤ x.toBits.toNat := by simpa [isNegative] using h
  have hlt := x.toBits.toNat_lt
  have hw := toNat_toBits_ofWord (word_le_of_isNegative h)
  have hbits : (ofWord (word x)).toBits + .ofNat signBit = x.toBits := by
    rw [← UInt64.toNat_inj, UInt64.toNat_add, hw, word]
    simp only [signBit, UInt64.toNat_ofNat'] at hx ⊢
    omega
  rw [neg_eq_ofBits, hbits, Float.ofBits_toBits]

section Comparison

theorem eq_of_compare_sign {s t : Sign} (h : compare s t = .eq) : s = t := by
  cases s <;> cases t <;> first | rfl | cases h

/-- Of the values that compare as equal only the zeros can differ. -/
theorem eq_of_compare {u v : UnpackedFloat} (h : u.compare v = some .eq)
    (hv : ∀ s, v ≠ .zero s) : u = v := by
  unfold UnpackedFloat.compare at h
  split at h
  case h_3 => rw [eq_of_compare_sign (Option.some.inj h)]
  all_goals simp_all [Ordering.then_eq_eq, Ordering.swap_eq_eq]

theorem unpack_ne_zero (h : b.toNat % 2 ^ 63 ≠ 0) (s : Sign) :
    UnpackedFloat.unpack .binary64 b ≠ .zero s := by
  have hexponent := toNat_unpackExponent b
  intro hz
  rw [UnpackedFloat.unpack] at hz
  simp only at hz
  split at hz
  · split at hz <;> cases hz
  · split at hz
    · next he =>
      split at hz
      · next hm =>
        rw [he, BitVec.toNat_ofNat, Nat.zero_mod] at hexponent
        rw [unpackMantissa_eq_zero_iff] at hm
        omega
      · cases hz
    · cases hz

theorem eq_of_beq (h : (x == y) = true) (hy : word y ≠ 0) : x = y := by
  have hcompare : (UnpackedFloat.unpack .binary64 x.toBits.toBitVec).compare
      (UnpackedFloat.unpack .binary64 y.toBits.toBitVec) = some .eq := beq_iff_eq.mp h
  have hunpack := eq_of_compare hcompare (unpack_ne_zero hy)
  have hpack (z : Float) : z =
      .ofModel (.pack (UnpackedFloat.unpack .binary64 z.toBits.toBitVec)) :=
    (Float.ofBits_toBits z).symm
  rw [hpack x, hunpack, ← hpack y]

end Comparison

end Reckon.Binary64
