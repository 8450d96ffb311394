import Mathlib.Data.List.Basic
import Mathlib.Data.List.TakeWhile
import Mathlib.Data.Nat.Notation
import Reckon.Token.Lexer

/-! # Lexemes tile their source

The lexemes of a source stand in it one behind the other, each with its place in bytes, and only white
space is left between them. Each is as long as it can be, and the characters that are rejected are
those that no token can hold.
-/

namespace Reckon

namespace Token

variable {c : Char} {cs : List Char}

def byteCount (cs : List Char) : ℕ :=
  (String.ofList cs).utf8ByteSize

@[simp] theorem byteCount_append (cs ds : List Char) :
    byteCount (cs ++ ds) = byteCount cs + byteCount ds := by
  simp only [byteCount, String.ofList_append, String.utf8ByteSize_append]

@[simp] theorem byteCount_cons (c : Char) (cs : List Char) :
    byteCount (c :: cs) = c.utf8Size + byteCount cs := by
  simp only [byteCount, String.ofList_cons, String.utf8ByteSize_append,
    String.utf8ByteSize_singleton]

theorem byteCount_pos (h : cs ≠ []) : 0 < byteCount cs := by
  obtain ⟨c, cs, rfl⟩ := List.exists_cons_of_ne_nil h
  rw [byteCount_cons]
  exact Nat.add_pos_left c.utf8Size_pos _

def symbols : List Char :=
  ['+', '-', '*', '/', '^', '(', ')']

/-- The text reads as the item, and what follows it does not go on with it. -/
inductive Longest : Item → List Char → List Char → Prop
  | whole {ds rest : List Char} (hne : ds ≠ []) (hd : ∀ d ∈ ds, d.isDigit = true)
      (hr : ∀ c ∈ rest.head?, c.isDigit = false ∧ c ≠ '.') :
      Longest (.token (.number (Decimal.ofDigits ds []).toFloat)) ds rest
  | fraction {ds fs rest : List Char} (hne : ds ≠ []) (hd : ∀ d ∈ ds, d.isDigit = true)
      (hf : ∀ d ∈ fs, d.isDigit = true) (hr : ∀ c ∈ rest.head?, c.isDigit = false) :
      Longest (.token (.number (Decimal.ofDigits ds fs).toFloat)) (ds ++ '.' :: fs) rest
  | name {ls rest : List Char} (hne : ls ≠ []) (hl : ∀ l ∈ ls, isLetter l = true)
      (hr : ∀ c ∈ rest.head?, isLetter c = false) :
      Longest (.token (.name (.ofList ls))) ls rest
  | operator (op : Operator) {c : Char} {rest : List Char} (hc : op.symbol = .singleton c) :
      Longest (.token (.operator op)) [c] rest
  | opening {rest : List Char} : Longest (.token .opening) ['('] rest
  | closing {rest : List Char} : Longest (.token .closing) [')'] rest
  | rejected {c : Char} {rest : List Char} (hspace : isSpace c = false)
      (hdigit : c.isDigit = false) (hletter : isLetter c = false) (hsymbol : c ∉ symbols) :
      Longest (.rejected c) [c] rest

end Token

attribute [ext] Lexeme

namespace Lexeme

def Covers (l : Lexeme) (place : ℕ) : Prop :=
  l.start ≤ place ∧ place < l.stop

def IsNumber (l : Lexeme) : Prop :=
  ∃ x, l.item = .token (.number x)

end Lexeme

namespace Token

variable {source : String} {start : ℕ} {c : Char} {cs us vs us' vs' ts : List Char} {t : Token}
  {item : Item} {l m : Lexeme}

/-- The lexemes stand one behind the other, leave out only white space and are as long as they can be,
and a character is rejected exactly if no token can hold it. -/
structure Tiling (source : String) (ls : List Lexeme) : Prop where
  nonempty : ∀ l ∈ ls, l.start < l.stop
  increasing : ls.Pairwise fun l m => l.stop ≤ m.start
  longest : ∀ l ∈ ls, ∃ us vs, source.toList = us ++ (l.text.toList ++ vs) ∧
    l.start = byteCount us ∧ Longest l.item l.text.toList vs
  covered : ∀ us c vs, source.toList = us ++ c :: vs → isSpace c = false →
    ∃ l ∈ ls, l.Covers (byteCount us)
  rejected_iff : ∀ us c vs, source.toList = us ++ c :: vs →
    (⟨byteCount us, .singleton c, .rejected c⟩ ∈ ls ↔
      isSpace c = false ∧ c.isDigit = false ∧ isLetter c = false ∧ c ∉ symbols ∧
        ¬ (c = '.' ∧ ∃ l ∈ ls, l.IsNumber ∧ l.Covers (byteCount us)))

section Piece

theorem eq_false_of_mem_head?_dropWhile {p : Char → Bool} (h : c ∈ (cs.dropWhile p).head?) :
    p c = false := by
  have hnot := List.head?_dropWhile_not p cs
  rwa [Option.mem_def.mp h] at hnot

theorem forall_cons_takeWhile {p : Char → Bool} (hc : p c = true) (cs : List Char) :
    ∀ d ∈ c :: cs.takeWhile p, p d = true :=
  List.forall_mem_cons.mpr ⟨hc, fun _ => List.mem_takeWhile_imp⟩

theorem longest_number (hc : c.isDigit = true) (cs : List Char) :
    Longest (Piece.number c cs).item (Piece.number c cs).text (Piece.number c cs).rest := by
  have hall := forall_cons_takeWhile hc cs
  unfold Piece.number
  split
  · exact .fraction (List.cons_ne_nil _ _) hall (fun _ => List.mem_takeWhile_imp)
      fun _ => eq_false_of_mem_head?_dropWhile
  · next hpoint =>
    refine .whole (List.cons_ne_nil _ _) hall fun d hd => ?_
    refine ⟨eq_false_of_mem_head?_dropWhile hd, ?_⟩
    rintro rfl
    obtain ⟨after, h⟩ := List.head?_eq_some_iff.mp hd
    exact hpoint after h

theorem longest_symbol (h : symbol? c = some t) (rest : List Char) :
    Longest (.token t) [c] rest := by
  unfold symbol? at h
  split at h
  case h_6 => exact Option.some.inj h ▸ .opening
  case h_7 => exact Option.some.inj h ▸ .closing
  case h_8 => cases h
  all_goals exact Option.some.inj h ▸ .operator _ rfl

theorem symbol?_eq_none_iff : symbol? c = none ↔ c ∉ symbols := by
  constructor
  · intro h hm
    have hall : symbols.all (fun d => (symbol? d).isSome) = true := by decide
    have hc := List.all_eq_true.mp hall c hm
    rw [h] at hc
    cases hc
  · intro hm
    unfold symbol?
    split
    case h_8 => rfl
    all_goals exact absurd (by decide) hm

theorem mem_symbols {op : Operator} (h : op.symbol = .singleton c) : c ∈ symbols := by
  have hall : op.symbol.toList.all symbols.contains = true := by cases op <;> decide
  rw [h, String.toList_singleton] at hall
  exact List.contains_iff_mem.mp (List.all_eq_true.mp hall c (List.mem_singleton_self c))

theorem longest_first (hc : isSpace c = false) (cs : List Char) :
    Longest (Piece.first c cs).item (Piece.first c cs).text (Piece.first c cs).rest := by
  unfold Piece.first
  split
  · next hd => exact longest_number hd cs
  · next hd =>
    split
    · next hl =>
      exact .name (List.cons_ne_nil _ _) (forall_cons_takeWhile hl cs)
        fun _ => eq_false_of_mem_head?_dropWhile
    · next hl =>
      split
      · next hs => exact longest_symbol hs cs
      · next hs =>
        exact .rejected hc (Bool.eq_false_iff.mpr hd) (Bool.eq_false_iff.mpr hl)
          (symbol?_eq_none_iff.mp hs)

theorem Longest.eq_of_mem (h : Longest item ts vs) (hc : c ∈ ts) (hdigit : c.isDigit = false)
    (hletter : isLetter c = false) (hsymbol : c ∉ symbols) :
    (c = '.' ∧ ∃ x, item = .token (.number x)) ∨ (item = .rejected c ∧ ts = [c]) := by
  cases h with
  | whole _ hd => exact absurd (hd c hc) (Bool.eq_false_iff.mp hdigit)
  | fraction _ hd hf =>
    left
    refine ⟨?_, _, rfl⟩
    rcases List.mem_append.mp hc with hc | hc
    · exact absurd (hd c hc) (Bool.eq_false_iff.mp hdigit)
    · rcases List.mem_cons.mp hc with rfl | hc
      · rfl
      · exact absurd (hf c hc) (Bool.eq_false_iff.mp hdigit)
  | name _ hl => exact absurd (hl c hc) (Bool.eq_false_iff.mp hletter)
  | operator op hop =>
    obtain rfl := List.mem_singleton.mp hc
    exact absurd (mem_symbols hop) hsymbol
  | opening =>
    obtain rfl := List.mem_singleton.mp hc
    exact absurd (by decide) hsymbol
  | closing =>
    obtain rfl := List.mem_singleton.mp hc
    exact absurd (by decide) hsymbol
  | rejected =>
    obtain rfl := List.mem_singleton.mp hc
    exact .inr ⟨rfl, rfl⟩

end Piece

section Scan

theorem stop_eq (l : Lexeme) : l.stop = l.start + byteCount l.text.toList := by
  rw [Lexeme.stop, byteCount, String.ofList_toList]

theorem exists_first_of_mem (h : l ∈ scanFrom start cs) : ∃ us c rest, cs = us ++ c :: rest ∧
    isSpace c = false ∧ l.start = start + byteCount us ∧
    l.text.toList = (Piece.first c rest).text ∧ l.item = (Piece.first c rest).item := by
  fun_induction scanFrom start cs with
  | case1 => exact absurd h List.not_mem_nil
  | case2 start d cs hd ih =>
    obtain ⟨us, c, rest, rfl, hc, hstart, hl⟩ := ih h
    refine ⟨d :: us, c, rest, rfl, hc, ?_, hl⟩
    rw [hstart, byteCount_cons, Nat.add_assoc]
  | case3 start d cs hd piece lexeme ih =>
    rcases List.mem_cons.mp h with rfl | h
    · exact ⟨[], d, cs, rfl, Bool.eq_false_iff.mpr hd, rfl, String.toList_ofList, rfl⟩
    · obtain ⟨us, c, rest, hrest, hc, hstart, hl⟩ := ih h
      refine ⟨piece.text ++ us, c, rest, ?_, hc, ?_, hl⟩
      · rw [List.append_assoc, ← hrest]
        exact (Piece.first_text_append_rest d cs).symm
      · rw [hstart, stop_eq, byteCount_append, String.toList_ofList, Nat.add_assoc]

theorem pairwise_scanFrom (start : ℕ) (cs : List Char) :
    (scanFrom start cs).Pairwise fun l m => l.stop ≤ m.start := by
  fun_induction scanFrom start cs with
  | case1 => exact .nil
  | case2 start d cs hd ih => exact ih
  | case3 start d cs hd piece lexeme ih =>
    refine .cons (fun m hm => ?_) ih
    obtain ⟨us, -, -, -, -, hstart, -⟩ := exists_first_of_mem hm
    rw [hstart]
    exact Nat.le_add_right _ _

theorem exists_covers (hc : isSpace c = false) (start : ℕ) (cs us : List Char)
    (h : cs = us ++ c :: vs) : ∃ l ∈ scanFrom start cs, l.Covers (start + byteCount us) := by
  fun_induction scanFrom start cs generalizing us with
  | case1 => exact absurd h.symm (List.append_ne_nil_of_right_ne_nil us (List.cons_ne_nil c vs))
  | case2 start d cs hd ih =>
    cases us with
    | nil =>
      obtain ⟨rfl, -⟩ := List.cons.inj h
      exact absurd hd (Bool.eq_false_iff.mp hc)
    | cons u us =>
      obtain ⟨rfl, hcs⟩ := List.cons.inj h
      obtain ⟨l, hl, hcovers⟩ := ih us hcs
      rw [Nat.add_assoc, ← byteCount_cons] at hcovers
      exact ⟨l, hl, hcovers⟩
  | case3 start d cs hd piece lexeme ih =>
    have hstop : lexeme.stop = start + byteCount piece.text := by
      rw [stop_eq, String.toList_ofList]
    have hbehind (as : List Char) (hus : us = piece.text ++ as) (hrest : piece.rest = as ++ c :: vs) :
        ∃ l ∈ lexeme :: scanFrom lexeme.stop piece.rest, l.Covers (start + byteCount us) := by
      obtain ⟨l, hl, hcovers⟩ := ih as hrest
      refine ⟨l, List.mem_cons_of_mem _ hl, ?_⟩
      rwa [hus, byteCount_append, ← Nat.add_assoc, ← hstop]
    rw [← Piece.first_text_append_rest d cs, List.append_eq_append_iff] at h
    -- The character stands behind the first lexeme or within it.
    rcases h with ⟨as, hus, hrest⟩ | ⟨bs, htext, hbs⟩
    · exact hbehind as hus hrest
    · cases bs with
      | nil => exact hbehind [] (by simpa using htext.symm) hbs.symm
      | cons b bs =>
        refine ⟨lexeme, List.mem_cons_self, Nat.le_add_right _ _, ?_⟩
        have hpos := byteCount_pos (List.cons_ne_nil b bs)
        rw [hstop, htext, byteCount_append]
        omega

end Scan

section Place

theorem prefix_of_byteCount_le (hu : us <+: cs) (hv : vs <+: cs) (h : byteCount us ≤ byteCount vs) :
    us <+: vs := by
  rcases List.prefix_or_prefix_of_prefix hu hv with h' | ⟨ws, rfl⟩
  · exact h'
  · rw [byteCount_append] at h
    have hnil : ws = [] := by
      by_contra hne
      have hpos := byteCount_pos hne
      omega
    simp [hnil]

theorem exists_of_covered (h : us ++ c :: vs = us' ++ (ts ++ vs'))
    (hle : byteCount us' ≤ byteCount us) (hlt : byteCount us < byteCount us' + byteCount ts) :
    ∃ ds ds', us = us' ++ ds ∧ ts = ds ++ c :: ds' := by
  obtain ⟨ds, rfl⟩ := prefix_of_byteCount_le ⟨ts ++ vs', h.symm⟩ (List.prefix_append us _) hle
  rw [List.append_assoc, List.append_cancel_left_eq] at h
  rw [byteCount_append, Nat.add_lt_add_iff_left] at hlt
  obtain ⟨es, rfl⟩ := prefix_of_byteCount_le (List.prefix_append ds _) ⟨vs', h.symm⟩ (Nat.le_of_lt hlt)
  rw [List.append_assoc, List.append_cancel_left_eq] at h
  cases es with
  | nil =>
    rw [List.append_nil] at hlt
    exact absurd hlt (Nat.lt_irrefl _)
  | cons e es =>
    obtain ⟨rfl, -⟩ := List.cons.inj h
    exact ⟨ds, es, rfl, rfl⟩

theorem eq_of_covers {ls : List Lexeme} {place : ℕ} (h : ls.Pairwise fun l m => l.stop ≤ m.start)
    (hl : l ∈ ls) (hm : m ∈ ls) (hlp : l.Covers place) (hmp : m.Covers place) : l = m := by
  obtain ⟨i, hi, rfl⟩ := List.getElem_of_mem hl
  obtain ⟨j, hj, rfl⟩ := List.getElem_of_mem hm
  have hlt {i j : ℕ} (hi : i < ls.length) (hj : j < ls.length) (hip : ls[i].Covers place)
      (hjp : ls[j].Covers place) : ¬ i < j := by
    intro hij
    have hbehind := List.pairwise_iff_getElem.mp h i j hi hj hij
    exact Nat.lt_irrefl place (Nat.lt_of_lt_of_le hip.2 (Nat.le_trans hbehind hjp.1))
  obtain rfl : i = j :=
    Nat.le_antisymm (Nat.not_lt.mp (hlt hj hi hmp hlp)) (Nat.not_lt.mp (hlt hi hj hlp hmp))
  rfl

end Place

section Tiling

theorem exists_longest_of_mem (h : l ∈ scan source) : ∃ us vs,
    source.toList = us ++ (l.text.toList ++ vs) ∧ l.start = byteCount us ∧
      Longest l.item l.text.toList vs := by
  obtain ⟨us, c, rest, hsource, hc, hstart, htext, hitem⟩ := exists_first_of_mem h
  refine ⟨us, (Piece.first c rest).rest, ?_, by rw [hstart, Nat.zero_add], ?_⟩
  · rw [htext, Piece.first_text_append_rest, hsource]
  · rw [htext, hitem]
    exact longest_first hc rest

theorem exists_covers_of_not_space (h : source.toList = us ++ c :: vs) (hc : isSpace c = false) :
    ∃ l ∈ scan source, l.Covers (byteCount us) := by
  obtain ⟨l, hl, hcovers⟩ := exists_covers hc 0 source.toList us h
  rw [Nat.zero_add] at hcovers
  exact ⟨l, hl, hcovers⟩

theorem start_lt_stop (h : l ∈ scan source) : l.start < l.stop := by
  obtain ⟨-, c, rest, -, -, -, htext, -⟩ := exists_first_of_mem h
  have hpos := byteCount_pos (Piece.first_text_ne_nil c rest)
  rw [stop_eq, htext]
  omega

theorem not_isNumber_of_rejected (h : ⟨byteCount us, .singleton c, .rejected c⟩ ∈ scan source)
    (hl : l ∈ scan source) (hcovers : l.Covers (byteCount us)) : ¬ l.IsNumber := by
  have hplace : Lexeme.Covers ⟨byteCount us, .singleton c, .rejected c⟩ (byteCount us) :=
    ⟨Nat.le_refl _, start_lt_stop h⟩
  obtain rfl := eq_of_covers (pairwise_scanFrom 0 _) hl h hcovers hplace
  rintro ⟨x, hx⟩
  cases hx

theorem rejected_mem (h : source.toList = us ++ c :: vs) (hspace : isSpace c = false)
    (hdigit : c.isDigit = false) (hletter : isLetter c = false) (hsymbol : c ∉ symbols)
    (hpoint : ¬ (c = '.' ∧ ∃ l ∈ scan source, l.IsNumber ∧ l.Covers (byteCount us))) :
    ⟨byteCount us, .singleton c, .rejected c⟩ ∈ scan source := by
  obtain ⟨l, hl, hcovers⟩ := exists_covers_of_not_space h hspace
  obtain ⟨us', vs', hsource, hstart, hlongest⟩ := exists_longest_of_mem hl
  have hle := hcovers.1
  have hlt := hcovers.2
  rw [stop_eq, hstart] at hlt
  rw [hstart] at hle
  obtain ⟨ds, ds', rfl, htext⟩ := exists_of_covered (h.symm.trans hsource) hle hlt
  have hc : c ∈ l.text.toList := by
    rw [htext]
    exact List.mem_append_cons_self
  rcases hlongest.eq_of_mem hc hdigit hletter hsymbol with ⟨hdot, hnumber⟩ | ⟨hitem, hone⟩
  · exact absurd ⟨hdot, l, hl, hnumber, hcovers⟩ hpoint
  · obtain ⟨rfl, -⟩ : ds = [] ∧ ds' = [] := by
      simpa [hone, List.cons_eq_append_iff] using htext
    have htext : l.text = .singleton c :=
      String.toList_injective (hone.trans (String.toList_singleton c).symm)
    rwa [List.append_nil, ← hstart, ← htext, ← hitem]

/-- The lexemes of every source tile it. -/
theorem tiling_scan (source : String) : Tiling source (scan source) where
  nonempty _ := start_lt_stop
  increasing := pairwise_scanFrom 0 source.toList
  longest _ := exists_longest_of_mem
  covered _ _ _ := exists_covers_of_not_space
  rejected_iff us c vs h := by
    constructor
    · intro hmem
      obtain ⟨-, rest, -, -, hlongest⟩ := exists_longest_of_mem hmem
      rw [String.toList_singleton] at hlongest
      have hpoint : ¬ (c = '.' ∧ ∃ l ∈ scan source, l.IsNumber ∧ l.Covers (byteCount us)) := by
        rintro ⟨-, l, hl, hnumber, hcovers⟩
        exact not_isNumber_of_rejected hmem hl hcovers hnumber
      cases hlongest with
      | rejected hspace hdigit hletter hsymbol =>
        exact ⟨hspace, hdigit, hletter, hsymbol, hpoint⟩
    · rintro ⟨hspace, hdigit, hletter, hsymbol, hpoint⟩
      exact rejected_mem h hspace hdigit hletter hsymbol hpoint

example : (scan "é1.2.3").map (fun l => (l.start, l.text)) =
    [(0, "é"), (2, "1.2"), (5, "."), (6, "3")] := by
  decide +kernel

end Tiling

end Token

end Reckon
