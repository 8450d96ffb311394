import Reckon.Number.Reader
import Reckon.Proofs.Printed

/-! # Texts of numbers

The text of a number holds no white space, and the shortest one is read as the number again. This is so
for the infinities too, and for a zero with a sign.
-/

namespace Reckon

open Binary64

variable {d : Decimal} {x : Float} {c : Char}

namespace Decimal

theorem toLower_of_mem_text (h : c ∈ d.text) : c.toLower = c := by
  apply Char.toLower_eq_of_not_isUpper
  rcases isDigit_or_eq_of_mem_text h with h | rfl
  · rw [Token.isDigit_iff] at h
    simp only [Char.isUpper, decide_eq_true_eq, UInt32.le_iff_toNat_le, ge_iff_le]
    change ¬ (65 ≤ c.toNat ∧ _)
    omega
  · decide

theorem map_toLower_text (d : Decimal) : d.text.map Char.toLower = d.text :=
  (List.map_congr_left fun _ => toLower_of_mem_text).trans (List.map_id _)

theorem not_mem_text (hd : c.isDigit = false) (hc : c ≠ '.') (d : Decimal) : c ∉ d.text := by
  intro h
  rcases isDigit_or_eq_of_mem_text h with h | h
  · exact Bool.eq_false_iff.mp hd h
  · exact hc h

end Decimal

namespace Number

def magnitude (decimal : ℕ → Decimal) (x : Float) : List Char :=
  if word x = infinity then "inf".toList else (decimal (word x)).text

theorem toList_render (h : x.isNaN = false) (decimal : ℕ → Decimal) : (render decimal x).toList =
    if isNegative x then '-' :: magnitude decimal x else magnitude decimal x := by
  rw [render, if_neg (not_lt.mpr (isNaN_eq_false_iff.mp h)), String.toList_ofList, magnitude]

theorem magnitude_ne_nil (decimal : ℕ → Decimal) (x : Float) : magnitude decimal x ≠ [] := by
  rw [magnitude]
  split
  · decide
  · exact Decimal.text_ne_nil _

theorem isDigit_or_mem_of_mem_magnitude {decimal : ℕ → Decimal} (h : c ∈ magnitude decimal x) :
    c.isDigit = true ∨ c ∈ ['.', 'i', 'n', 'f'] := by
  rw [magnitude] at h
  split at h
  · exact .inr (List.mem_cons_of_mem '.' h)
  · refine (Decimal.isDigit_or_eq_of_mem_text h).imp_right ?_
    rintro rfl
    exact List.mem_cons_self

theorem isDigit_or_mem_of_mem_render {decimal : ℕ → Decimal} (h : c ∈ (render decimal x).toList) :
    c.isDigit = true ∨ c ∈ ['N', 'a', 'N', '-', '.', 'i', 'n', 'f'] := by
  have hmagnitude (h : c ∈ magnitude decimal x) :
      c.isDigit = true ∨ c ∈ ['N', 'a', 'N', '-', '.', 'i', 'n', 'f'] :=
    (isDigit_or_mem_of_mem_magnitude h).imp_right (List.mem_append_right ['N', 'a', 'N', '-'])
  cases hx : x.isNaN with
  | true =>
    rw [render, if_pos (isNaN_iff.mp hx)] at h
    exact .inr (List.mem_append_left ['-', '.', 'i', 'n', 'f'] h)
  | false =>
    rw [toList_render hx] at h
    split at h
    · rcases List.mem_cons.mp h with rfl | h
      · exact .inr (by decide)
      · exact hmagnitude h
    · exact hmagnitude h

theorem isBlank_eq_false_of_mem_render {decimal : ℕ → Decimal}
    (h : c ∈ (render decimal x).toList) : Text.isBlank c = false := by
  have hall : ['N', 'a', 'N', '-', '.', 'i', 'n', 'f'].all (fun c => !Text.isBlank c) = true := by
    decide +kernel
  rcases isDigit_or_mem_of_mem_render h with h | h
  · exact Expr.isBlank_eq_false_of_isDigit h
  · simpa using List.all_eq_true.mp hall c h

theorem text_ne_nil (h : x.isNaN = false) : (text x).toList ≠ [] := by
  rw [text, toList_render h]
  split
  · simp
  · exact magnitude_ne_nil _ x

theorem solid_text (h : x.isNaN = false) : Text.Solid (text x).toList :=
  Text.solid_of_forall (text_ne_nil h) fun _ => isBlank_eq_false_of_mem_render

theorem readMagnitude_text (d : Decimal) : readMagnitude d.text = some d.toFloat := by
  have he : 'e' ∉ d.text := Decimal.not_mem_text (by decide) (by decide) d
  rw [readMagnitude, Decimal.map_toLower_text, Text.cut_eq_none_iff.mpr he]
  simp only [readDecimal_text, Option.map_some]

/-- A word begins with a letter, and a decimal does not. -/
theorem readUnsigned_text (d : Decimal) : readUnsigned d.text = some d.toFloat := by
  have hne {word : String} (h : ∃ c ∈ word.toList, c.isDigit = false ∧ c ≠ '.') :
      String.ofList d.text ≠ word := by
    obtain ⟨c, hc, hd, hp⟩ := h
    rintro rfl
    rw [String.toList_ofList] at hc
    exact Decimal.not_mem_text hd hp d hc
  have hinf : String.ofList d.text ≠ "inf" := hne ⟨'i', by decide, by decide, by decide⟩
  have hinfinity : String.ofList d.text ≠ "infinity" := hne ⟨'i', by decide, by decide, by decide⟩
  have hnan : String.ofList d.text ≠ "nan" := hne ⟨'n', by decide, by decide, by decide⟩
  rw [readUnsigned, Decimal.map_toLower_text]
  simp only [hinf, hinfinity, hnan, or_self, if_false, readMagnitude_text]

theorem readUnsigned_magnitude (h : x.isNaN = false) :
    readUnsigned (magnitude Decimal.shortest x) = some (ofWord (word x)) := by
  rw [magnitude]
  split
  · next hw =>
    rw [hw]
    rfl
  · next hw =>
    have hlt := (isNaN_eq_false_iff.mp h).lt_of_ne hw
    rw [readUnsigned_text, Decimal.toFloat, Decimal.word_shortest hlt]

theorem splitSign_magnitude (decimal : ℕ → Decimal) (x : Float) :
    splitSign (magnitude decimal x) = (false, magnitude decimal x) := by
  have hnot {c : Char} (hd : c.isDigit = false) (hc : c ∉ ['.', 'i', 'n', 'f']) :
      c ∉ magnitude decimal x := fun h =>
    (isDigit_or_mem_of_mem_magnitude h).elim (Bool.eq_false_iff.mp hd) hc
  unfold splitSign
  split
  · next h => exact absurd (h ▸ List.mem_cons_self) (hnot (by decide) (by decide))
  · next h => exact absurd (h ▸ List.mem_cons_self) (hnot (by decide) (by decide))
  · rfl

theorem read_text (h : x.isNaN = false) : read (text x) = .ok x := by
  have hread := readUnsigned_magnitude h
  have hne : (text x).isEmpty = false := by
    have := text_ne_nil h
    simpa using this
  have hsign : splitSign (text x).toList =
      (isNegative x, magnitude Decimal.shortest x) := by
    rw [text, toList_render h]
    split
    · next hn => rw [hn, splitSign]
    · next hn => rw [splitSign_magnitude, Bool.eq_false_iff.mpr hn]
  rw [read, hne, if_neg Bool.false_ne_true, hsign]
  simp only [hread]
  split
  · next hn => rw [neg_ofWord_word hn]
  · next hn => rw [ofWord_word (Bool.eq_false_iff.mpr hn)]

end Number

end Reckon
