import Reckon.Proofs.Console.Decoding

/-! # The order of bytes

UTF-8 keeps the order of the characters: the code of a greater one has a greater byte where the codes
first differ. So texts are in the same order as their bytes.
-/

namespace Reckon

namespace Text

variable {c d : Char} {cs ds : List Char}

theorem utf8EncodeChar_append_lt (h : c < d) (us vs : List UInt8) :
    String.utf8EncodeChar c ++ us < String.utf8EncodeChar d ++ vs := by
  have hlt : c.val.toNat < d.val.toNat := h
  have hbound : d.val.toNat < 0x110000 := by
    have hvalid : d.val.toNat.isValidChar := d.valid
    unfold Nat.isValidChar at hvalid
    omega
  simp only [String.utf8EncodeChar]
  generalize c.val.toNat = m at hlt ⊢
  generalize d.val.toNat = n at hlt hbound ⊢
  -- A longer code has a greater first byte, and codes of one length differ like numbers to the base 64.
  split_ifs <;> simp (disch := omega) only [List.cons_append, List.nil_append, List.cons_lt_cons_iff,
    UInt8.lt_iff_toNat_lt, ← UInt8.toNat_inj, UInt8.toNat_ofNat', Nat.mod_eq_of_lt] <;> omega

theorem flatMap_utf8EncodeChar_lt (h : cs < ds) :
    cs.flatMap String.utf8EncodeChar < ds.flatMap String.utf8EncodeChar := by
  rw [← List.lex_lt] at h
  induction h with
  | @nil d ds =>
    rw [List.flatMap_nil, List.flatMap_cons]
    obtain ⟨b, bs, hd⟩ := List.exists_cons_of_ne_nil (@String.utf8EncodeChar_ne_nil d)
    rw [hd]
    exact List.nil_lt_cons _ _
  | rel h =>
    rw [List.flatMap_cons, List.flatMap_cons]
    exact utf8EncodeChar_append_lt h _ _
  | cons h ih =>
    rw [List.flatMap_cons, List.flatMap_cons]
    exact List.append_left_lt ih

end Text

namespace Console

variable {a b : String}

theorem encode_lt_encode (h : a < b) : encode a < encode b :=
  Text.flatMap_utf8EncodeChar_lt (String.lt_iff.mp h)

theorem encode_le_encode_iff : encode a ≤ encode b ↔ a ≤ b := by
  rw [← List.not_lt, ← String.not_lt, not_iff_not]
  refine ⟨fun h => ?_, encode_lt_encode⟩
  by_contra hba
  rcases Std.le_iff_lt_or_eq.mp (String.not_lt.mp hba) with hab | rfl
  · exact List.lt_asymm h (encode_lt_encode hab)
  · exact List.lt_irrefl _ h

end Console

end Reckon
