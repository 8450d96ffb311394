import Mathlib.Tactic.SplitIfs
import Reckon.Console
import Reckon.Proofs.Text.Split

/-! # Decoded lines

An ASCII character is one byte, which is in the code of no other character. So the lines of an input
that is a text are the lines of this text, whether it is decoded before it is split or after it.
-/

namespace Reckon

namespace Text

variable {b : UInt8} {c : Char}

theorem toNat_eq_of_mem_utf8EncodeChar (h : b ∈ String.utf8EncodeChar c) (hb : b.toNat < 128) :
    c.toNat = b.toNat := by
  have hc : c.val.toNat = c.toNat := rfl
  simp only [String.utf8EncodeChar] at h
  -- Only the first of the four forms has a byte below 128.
  split_ifs at h
  · rw [List.mem_singleton] at h
    subst h
    rw [UInt8.toNat_ofNat']
    omega
  · simp only [List.mem_cons, List.not_mem_nil, or_false] at h
    rcases h with rfl | rfl <;> rw [UInt8.toNat_ofNat'] at hb <;> omega
  · simp only [List.mem_cons, List.not_mem_nil, or_false] at h
    rcases h with rfl | rfl | rfl <;> rw [UInt8.toNat_ofNat'] at hb <;> omega
  · simp only [List.mem_cons, List.not_mem_nil, or_false] at h
    rcases h with rfl | rfl | rfl | rfl <;> rw [UInt8.toNat_ofNat'] at hb <;> omega

theorem marks_utf8EncodeChar (hc : String.utf8EncodeChar c = [b]) (hb : b.toNat < 128) :
    Marks String.utf8EncodeChar c b where
  code_eq := hc
  eq_of_mem x hx := by
    have hcb := toNat_eq_of_mem_utf8EncodeChar (hc ▸ List.mem_singleton_self b) hb
    exact Char.toNat_inj.mp ((toNat_eq_of_mem_utf8EncodeChar hx hb).trans hcb.symm)

end Text

namespace Console

open Text

variable {bytes before : List UInt8} {text : String}

def encode (text : String) : List UInt8 :=
  text.toList.flatMap String.utf8EncodeChar

theorem decode_eq_some_iff : decode bytes = some text ↔ bytes = encode text := by
  have hbytes : text.toByteArray = (encode text).toByteArray :=
    String.utf8Encode_toList.symm
  rw [decode, String.fromUTF8?]
  constructor
  · intro h
    split at h
    · obtain rfl := Option.some.inj h
      have hb : bytes.toByteArray = _ := hbytes
      simpa using congrArg (fun a : ByteArray => a.data.toList) hb
    · cases h
  · rintro rfl
    have hv : (encode text).toByteArray.IsValidUTF8 := hbytes ▸ text.isValidUTF8
    rw [dif_pos hv, Option.some.injEq, ← String.toByteArray_inj, hbytes]
    rfl

theorem decodeLines_map (css : List (List Char)) :
    decodeLines (css.map (List.flatMap String.utf8EncodeChar)) = (css.map .ofList, false) := by
  induction css with
  | nil => rfl
  | cons cs css ih =>
    have h : decode (cs.flatMap String.utf8EncodeChar) = some (.ofList cs) :=
      decode_eq_some_iff.mpr (by rw [encode, String.toList_ofList])
    rw [List.map_cons, decodeLines, h, ih]
    rfl

theorem inputLines_of_decode (h : decode bytes = some text) :
    inputLines bytes = (Text.lines text, false) := by
  have hfeed : Marks String.utf8EncodeChar '\n' 10 := marks_utf8EncodeChar rfl (by decide)
  have hback : Marks String.utf8EncodeChar '\r' 13 := marks_utf8EncodeChar rfl (by decide)
  rw [inputLines, decode_eq_some_iff.mp h, encode,
    stretches_flatMap hfeed hback (fun _ => String.utf8EncodeChar_ne_nil), decodeLines_map]
  rfl

theorem inputLines_append_cons (h : 10 ∉ before) (after : List UInt8) :
    inputLines (before ++ 10 :: after) = match decode (dropFinal 13 before) with
      | none => ([], true)
      | some line => (line :: (inputLines after).1, (inputLines after).2) := by
  rw [inputLines, stretches_of_cut (cut_append_cons after h), decodeLines]
  rfl

end Console

end Reckon
