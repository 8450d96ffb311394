import Mathlib.Data.List.Basic
import Mathlib.Data.Nat.Notation
import Reckon.Number.Reader
import Reckon.Number.Text
import Reckon.Proofs.Token.Place

/-! # Scans of printed pieces

A piece of text is scanned as its tokens wherever a space or a parenthesis follows it. Names and
the digits of decimals are such pieces, and pieces make up longer ones.
-/

namespace Reckon.Token

variable {c : Char} {cs us rest : List Char} {t : Token} {ts vs : List Token} {start : ℕ}

def itemsOf (cs : List Char) : List Item :=
  (scanFrom 0 cs).map Lexeme.item

theorem map_item_scanFrom (start start' : ℕ) (cs : List Char) :
    (scanFrom start cs).map Lexeme.item = (scanFrom start' cs).map Lexeme.item := by
  induction start, cs using scanFrom.induct generalizing start' with
  | case1 => simp [scanFrom]
  | case2 start c cs hc ih =>
    rw [scanFrom, scanFrom, if_pos hc, if_pos hc]
    exact ih _
  | case3 start c cs hc piece lexeme ih =>
    rw [scanFrom, scanFrom, if_neg hc, if_neg hc, List.map_cons, List.map_cons]
    exact congrArg _ (ih _)

@[simp] theorem itemsOf_nil : itemsOf [] = [] := by
  simp [itemsOf, scanFrom]

theorem itemsOf_space (hc : isSpace c = true) (cs : List Char) :
    itemsOf (c :: cs) = itemsOf cs := by
  rw [itemsOf, scanFrom, if_pos hc]
  exact map_item_scanFrom ..

theorem itemsOf_cons (hc : isSpace c = false) (cs : List Char) :
    itemsOf (c :: cs) = (Piece.first c cs).item :: itemsOf (Piece.first c cs).rest := by
  rw [itemsOf, scanFrom, if_neg (by simp [hc]), List.map_cons]
  exact congrArg _ (map_item_scanFrom ..)

theorem tokens?_ofList_eq_some_iff :
    tokens? (.ofList cs) = some ts ↔ itemsOf cs = ts.map Item.token := by
  rw [tokens?_eq_some_iff, items, scan, String.toList_ofList]
  rfl

/-- The characters before which every name and every number ends. -/
def closes (c : Char) : Bool :=
  [' ', '(', ')'].contains c

/-- The characters are scanned as the tokens wherever they stand before the end of a piece. -/
def Scans (cs : List Char) (ts : List Token) : Prop :=
  ∀ rest : List Char, (∀ c ∈ rest.head?, closes c = true) →
    itemsOf (cs ++ rest) = ts.map Item.token ++ itemsOf rest

theorem Scans.itemsOf_eq (h : Scans cs ts) : itemsOf cs = ts.map Item.token := by
  simpa using h [] (by simp)

theorem scans_nil : Scans [] [] := fun _ _ => rfl

theorem Scans.append (h : Scans cs ts) (hu : Scans (c :: us) vs) (hc : closes c = true) :
    Scans (cs ++ c :: us) (ts ++ vs) := by
  intro rest hr
  rw [List.append_assoc, h (c :: us ++ rest) (by simpa using hc), hu rest hr, List.map_append,
    List.append_assoc]

theorem Scans.space (h : Scans cs ts) : Scans (' ' :: cs) ts :=
  fun rest hr => (itemsOf_space rfl _).trans (h rest hr)

theorem isSpace_eq_false_of_symbol? (h : symbol? c = some t) : isSpace c = false := by
  unfold symbol? at h
  split at h
  case h_8 => cases h
  all_goals rfl

theorem first_symbol (h : symbol? c = some t) (rest : List Char) :
    Piece.first c rest = ⟨[c], .token t, rest⟩ := by
  unfold symbol? at h
  split at h
  case h_8 => cases h
  all_goals
    obtain rfl := Option.some.inj h
    rfl

theorem itemsOf_symbol (h : symbol? c = some t) (cs : List Char) :
    itemsOf (c :: cs) = .token t :: itemsOf cs := by
  rw [itemsOf_cons (isSpace_eq_false_of_symbol? h), first_symbol h]

theorem Scans.symbol (h : Scans cs ts) (hc : symbol? c = some t) : Scans (c :: cs) (t :: ts) := by
  intro rest hr
  rw [List.cons_append, itemsOf_symbol hc, h rest hr]
  rfl

theorem Scans.enclosed (h : Scans cs ts) : Scans ('(' :: (cs ++ [')'])) (enclosed ts) := by
  have hclose : Scans [')'] [.closing] := scans_nil.symbol rfl
  exact (h.append hclose rfl).symbol rfl

theorem isLetter_iff : isLetter c = true ↔ (65 ≤ c.toNat ∧ c.toNat ≤ 90) ∨
    (97 ≤ c.toNat ∧ c.toNat ≤ 122) ∨ c.toNat = 95 := by
  have hletter : isLetter c = (decide (c.val ≥ 65 ∧ c.val ≤ 90) ||
      decide (c.val ≥ 97) && decide (c.val ≤ 122) || c == '_') := rfl
  simp only [hletter, Bool.or_eq_true, Bool.and_eq_true, decide_eq_true_eq, beq_iff_eq,
    ← Char.toNat_inj, UInt32.le_iff_toNat_le, ge_iff_le]
  rw [or_assoc]
  rfl

theorem isDigit_iff : c.isDigit = true ↔ 48 ≤ c.toNat ∧ c.toNat ≤ 57 := by
  simp only [Char.isDigit, Bool.and_eq_true, decide_eq_true_eq, UInt32.le_iff_toNat_le, ge_iff_le]
  rfl

theorem isDigit_eq_false_of_isLetter (h : isLetter c = true) : c.isDigit = false := by
  rw [isLetter_iff] at h
  rw [Bool.eq_false_iff, ne_eq, isDigit_iff]
  omega

theorem isSpace_iff : isSpace c = true ↔ c = ' ' ∨ c = '\t' ∨ c = '\r' ∨ c = '\n' ∨ c = '\x0c' := by
  simp [isSpace]

theorem isSpace_eq_false_of_isLetter (h : isLetter c = true) : isSpace c = false := by
  rw [Bool.eq_false_iff, ne_eq, isSpace_iff]
  rintro (rfl | rfl | rfl | rfl | rfl) <;> simp [isLetter] at h

theorem isSpace_eq_false_of_isDigit (h : c.isDigit = true) : isSpace c = false := by
  rw [Bool.eq_false_iff, ne_eq, isSpace_iff]
  rintro (rfl | rfl | rfl | rfl | rfl) <;> simp at h

theorem closes_iff : closes c = true ↔ c = ' ' ∨ c = '(' ∨ c = ')' := by
  simp [closes]

theorem takeWhile_append_eq {p : Char → Bool} (hcs : ∀ c ∈ cs, p c = true)
    (hr : ∀ c ∈ rest.head?, p c = false) :
    (cs ++ rest).takeWhile p = cs ∧ (cs ++ rest).dropWhile p = rest := by
  rw [List.takeWhile_append_of_pos hcs, List.dropWhile_append_of_pos hcs]
  cases rest with
  | nil => simp
  | cons c rest => simp [hr c rfl]

theorem first_name (hc : isLetter c = true) (hcs : ∀ d ∈ cs, isLetter d = true)
    (hr : ∀ d ∈ rest.head?, isLetter d = false) : Piece.first c (cs ++ rest) =
      ⟨c :: cs, .token (.name (.ofList (c :: cs))), rest⟩ := by
  obtain ⟨ht, hd⟩ := takeWhile_append_eq hcs hr
  rw [Piece.first, if_neg (by simp [isDigit_eq_false_of_isLetter hc]), if_pos hc, Piece.name, ht, hd]

theorem first_fraction {fs : List Char} (hc : c.isDigit = true) (hcs : ∀ d ∈ cs, d.isDigit = true)
    (hfs : ∀ d ∈ fs, d.isDigit = true) (hr : ∀ d ∈ rest.head?, d.isDigit = false) :
    Piece.first c (cs ++ '.' :: (fs ++ rest)) =
      ⟨c :: cs ++ '.' :: fs, .token (.number (Decimal.ofDigits (c :: cs) fs).toFloat), rest⟩ := by
  have hpoint : ∀ d ∈ ('.' :: (fs ++ rest)).head?, d.isDigit = false := by simp
  obtain ⟨ht, hd⟩ := takeWhile_append_eq hcs hpoint
  obtain ⟨htf, hdf⟩ := takeWhile_append_eq hfs hr
  rw [Piece.first, if_pos hc, Piece.number]
  simp only [ht, hd, htf, hdf]

theorem first_whole (hc : c.isDigit = true) (hcs : ∀ d ∈ cs, d.isDigit = true)
    (hr : ∀ d ∈ rest.head?, d.isDigit = false ∧ d ≠ '.') : Piece.first c (cs ++ rest) =
      ⟨c :: cs, .token (.number (Decimal.ofDigits (c :: cs) []).toFloat), rest⟩ := by
  obtain ⟨ht, hd⟩ := takeWhile_append_eq hcs fun d hd => (hr d hd).1
  rw [Piece.first, if_pos hc, Piece.number]
  simp only [ht, hd]
  split
  · exact absurd rfl (hr '.' rfl).2
  · rfl

theorem scans_name {name : String} (hne : name.toList ≠ [])
    (h : ∀ c ∈ name.toList, isLetter c = true) : Scans name.toList [.name name] := by
  intro rest hr
  have hstop : ∀ d ∈ rest.head?, isLetter d = false := by
    intro d hd
    rcases closes_iff.mp (hr d hd) with rfl | rfl | rfl <;> rfl
  obtain ⟨c, cs, hn⟩ := List.exists_cons_of_ne_nil hne
  rw [hn] at h
  obtain ⟨hc, hcs⟩ := List.forall_mem_cons.mp h
  rw [hn, List.cons_append, itemsOf_cons (isSpace_eq_false_of_isLetter hc), first_name hc hcs hstop,
    ← hn, String.ofList_toList]
  rfl

theorem scans_fraction {fs : List Char} (hc : c.isDigit = true) (hcs : ∀ d ∈ cs, d.isDigit = true)
    (hfs : ∀ d ∈ fs, d.isDigit = true) :
    Scans (c :: cs ++ '.' :: fs) [.number (Decimal.ofDigits (c :: cs) fs).toFloat] := by
  intro rest hr
  have hstop : ∀ d ∈ rest.head?, d.isDigit = false := by
    intro d hd
    rcases closes_iff.mp (hr d hd) with rfl | rfl | rfl <;> rfl
  rw [List.append_assoc, List.cons_append, List.cons_append,
    itemsOf_cons (isSpace_eq_false_of_isDigit hc), first_fraction hc hcs hfs hstop]
  rfl

theorem scans_whole (hc : c.isDigit = true) (hcs : ∀ d ∈ cs, d.isDigit = true) :
    Scans (c :: cs) [.number (Decimal.ofDigits (c :: cs) []).toFloat] := by
  intro rest hr
  have hstop : ∀ d ∈ rest.head?, d.isDigit = false ∧ d ≠ '.' := by
    intro d hd
    rcases closes_iff.mp (hr d hd) with rfl | rfl | rfl <;> decide
  rw [List.cons_append, itemsOf_cons (isSpace_eq_false_of_isDigit hc), first_whole hc hcs hstop]
  rfl

theorem scans_decimal (d : Decimal) : Scans d.text [.number d.toFloat] := by
  have hlen := d.length_digits
  have hdigit {n : ℕ} : ∀ c ∈ d.digits.drop n, c.isDigit = true :=
    fun c hc => Decimal.isDigit_of_mem_digits (List.mem_of_mem_drop hc)
  have hd : Decimal.ofDigits (d.digits.take (d.digits.length - d.places))
      (d.digits.drop (d.digits.length - d.places)) = d := by
    have hplaces : d.digits.length - (d.digits.length - d.places) = d.places := by omega
    simp [Decimal.ofDigits, Decimal.ofDigitChars_digits, hplaces]
  obtain ⟨c, cs, hw⟩ := List.exists_cons_of_ne_nil
    (List.ne_nil_of_length_pos (l := d.digits.take (d.digits.length - d.places)) (by simp; omega))
  have hall : ∀ e ∈ c :: cs, e.isDigit = true :=
    fun e he => Decimal.isDigit_of_mem_digits (List.mem_of_mem_take (hw ▸ he))
  have hcs := fun e he => hall e (List.mem_cons_of_mem c he)
  rw [hw] at hd
  rw [Decimal.text]
  split
  · next hp =>
    have hdrop : d.digits.drop (d.digits.length - d.places) = [] := by simp [hp]
    have htake : d.digits = c :: cs := by simpa [hp] using hw
    have hs := scans_whole (hall c (by simp)) hcs
    rw [hdrop] at hd
    rwa [htake, ← hd]
  · have hs := scans_fraction (hall c (by simp)) hcs
      (hdigit (n := d.digits.length - d.places))
    rw [hd] at hs
    rwa [hw]

end Reckon.Token
