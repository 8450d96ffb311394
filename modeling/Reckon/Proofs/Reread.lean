import Reckon.Proofs.RoundTrip
import Reckon.Proofs.Token.Tiling

/-! # Parsed expressions are read back

A parsed tree holds no literal with a sign and no name but those of variables, so its text is parsed
as the tree again, however powers group. The exception is a literal too large for a finite number:
its text is a name, and that is read as a variable.
-/

namespace Reckon

open Binary64

namespace Decimal

theorem word_le (d : Decimal) : d.word ≤ infinity :=
  Nat.min_le_left _ _

theorem isNegative_toFloat (d : Decimal) : isNegative d.toFloat = false :=
  isNegative_ofWord d.word_le

theorem word_toFloat (d : Decimal) : Binary64.word d.toFloat = d.word :=
  word_ofWord d.word_le

end Decimal

namespace Token

variable {us vs : List Char} {t : Token} {ts : List Token}

/-- What a source can consist of: numbers nearest to a decimal, names of letters, and symbols. -/
inductive Legible : Token → Prop
  | number (d : Decimal) : Legible (.number d.toFloat)
  | name {n : String} (hne : n.toList ≠ []) (h : ∀ c ∈ n.toList, isLetter c = true) :
      Legible (.name n)
  | operator (op : Operator) : Legible (.operator op)
  | opening : Legible .opening
  | closing : Legible .closing

theorem Longest.legible (h : Longest (.token t) us vs) : t.Legible := by
  cases h with
  | whole => exact .number _
  | fraction => exact .number _
  | name hne hl =>
    constructor
    · rwa [String.toList_ofList]
    · rwa [String.toList_ofList]
  | operator op => exact .operator op
  | opening => exact .opening
  | closing => exact .closing

theorem legible_of_mem {source : String} (hts : tokens? source = some ts) (ht : t ∈ ts) :
    t.Legible := by
  have hi : Item.token t ∈ items source := by
    rw [tokens?_eq_some_iff.mp hts]
    exact List.mem_map_of_mem ht
  obtain ⟨l, hl, h⟩ := List.mem_map.mp hi
  obtain ⟨us, vs, -, -, hlongest⟩ := exists_longest_of_mem hl
  rw [h] at hlongest
  exact hlongest.legible

end Token

namespace Expr

open Token

variable {options options' : Options} {source : String} {e l r : Expr} {op : Operator}

/-- The tree with each literal that is not finite as the variable of the name that is its text. -/
def reread : Expr → Expr
  | literal x => if x.isFinite then literal x else var "inf"
  | var n => var n
  | binary op l r => binary op l.reread r.reread
  | negate e => negate e.reread
  | call f e => call f e.reread

def HasLegibleLeaves (e : Expr) : Prop :=
  ∀ t ∈ e.leaves, t.isOperand = true ∧ t.Legible

theorem hasLegibleLeaves_binary :
    (binary op l r).HasLegibleLeaves ↔ l.HasLegibleLeaves ∧ r.HasLegibleLeaves :=
  List.forall_mem_append

theorem exists_of_hasLegibleLeaves {x : Float} (h : (literal x).HasLegibleLeaves) :
    ∃ d : Decimal, x = d.toFloat := by
  cases (h (.number x) (by simp [leaves])).2 with
  | number d => exact ⟨d, rfl⟩

theorem isVariable_of_hasLegibleLeaves {n : String} (h : (var n).HasLegibleLeaves) :
    isVariable n = true := by
  obtain ⟨ho, hl⟩ := h (.name n) (by simp [leaves])
  cases hl with
  | name hne hall => exact isVariable_iff.mpr ⟨hne, hall, by simpa [isOperand] using ho⟩

theorem isPrintable_reread (h : e.HasLegibleLeaves) : e.reread.isPrintable = true := by
  induction e with
  | literal x =>
    rw [reread]
    split
    · assumption
    · decide +kernel
  | var n => exact isVariable_of_hasLegibleLeaves h
  | binary op l r ihl ihr =>
    obtain ⟨hl, hr⟩ := hasLegibleLeaves_binary.mp h
    exact Bool.and_eq_true_iff.mpr ⟨ihl hl, ihr hr⟩
  | negate e ih => exact ih h
  | call f e ih => exact ih h

theorem text_reread (h : e.HasLegibleLeaves) : e.reread.text = e.text := by
  induction e with
  | literal x =>
    obtain ⟨d, rfl⟩ := exists_of_hasLegibleLeaves h
    rw [reread]
    split
    · rfl
    · next hf =>
      have hw : d.word = infinity := by
        rw [isFinite_iff, d.word_toFloat] at hf
        exact le_antisymm d.word_le (not_lt.mp hf)
      simp [text, Number.text, Number.render, d.word_toFloat, d.isNegative_toFloat, hw]
  | var n => rfl
  | binary op l r ihl ihr =>
    obtain ⟨hl, hr⟩ := hasLegibleLeaves_binary.mp h
    rw [reread, text, text, ihl hl, ihr hr]
  | negate e ih => rw [reread, text, text, ih h]
  | call f e ih => rw [reread, text, text, ih h]

theorem signless_reread (h : e.HasLegibleLeaves) : e.reread.signless = e.reread := by
  induction e with
  | literal x =>
    obtain ⟨d, rfl⟩ := exists_of_hasLegibleLeaves h
    rw [reread]
    split
    · rw [signless, d.isNegative_toFloat]
      rfl
    · rfl
  | var n => rfl
  | binary op l r ihl ihr =>
    obtain ⟨hl, hr⟩ := hasLegibleLeaves_binary.mp h
    rw [reread, signless, ihl hl, ihr hr]
  | negate e ih => rw [reread, signless, ih h]
  | call f e ih => rw [reread, signless, ih h]

theorem reread_eq_self_iff : e.reread = e ↔ ∀ x, .number x ∈ e.leaves → x.isFinite = true := by
  induction e with
  | literal x => simp [reread, leaves]
  | var n => simp [reread, leaves]
  | binary op l r ihl ihr => simp [reread, leaves, ihl, ihr, or_imp, forall_and]
  | negate e ih => simpa [reread, leaves] using ih
  | call f e ih => simpa [reread, leaves] using ih

theorem hasLegibleLeaves_of_parse (h : parse options source = .ok e) :
    e.HasLegibleLeaves ∧ ∃ ts, tokens? source = some ts ∧
      ∀ x, .number x ∈ e.leaves ↔ .number x ∈ ts := by
  obtain ⟨ts, hts, d, hp, hd⟩ := parse_eq_ok_iff.mp h
  rw [HasLegibleLeaves, hp.leaves_of_finish hd]
  refine ⟨fun t ht => ?_, ts, hts, fun x => by simp [isOperand]⟩
  obtain ⟨hm, ho⟩ := List.mem_filter.mp ht
  exact ⟨ho, legible_of_mem hts hm⟩

/-- A parsed tree is parsed back from its text exactly if all numbers of its source are finite. Each
one that is not comes back as a variable, which has the same text. -/
theorem parse_text_of_parse (h : parse options source = .ok e) :
    ∃ ts, tokens? source = some ts ∧ e.reread.text = e.text ∧ ∀ options',
      parse options' e.text = .ok e.reread ∧
      (parse options' e.text = .ok e ↔ ∀ x, .number x ∈ ts → x.isFinite = true) := by
  obtain ⟨hl, ts, hts, hn⟩ := hasLegibleLeaves_of_parse h
  refine ⟨ts, hts, text_reread hl, fun options' => ?_⟩
  have hp : parse options' e.text = .ok e.reread := by
    rw [← text_reread hl, parse_text_eq options' (isPrintable_reread hl), signless_reread hl]
  refine ⟨hp, ?_⟩
  rw [hp, Except.ok.injEq, reread_eq_self_iff]
  simp only [hn]

theorem parse_text_of_parse_spaced :
    parse {} " sin ((-007.50 )) ^2^x_y" = .ok (binary .pow (binary .pow
      (call .sin (negate (literal 7.5))) (literal 2)) (var "x_y")) ∧
    parse { power := .right } "((sin(-7.5) ^ 2) ^ x_y)" = .ok (binary .pow (binary .pow
      (call .sin (negate (literal 7.5))) (literal 2)) (var "x_y")) := by
  have h : parse {} " sin ((-007.50 )) ^2^x_y" = .ok (binary .pow (binary .pow
      (call .sin (negate (literal 7.5))) (literal 2)) (var "x_y")) := by decide +kernel
  have ht : (binary .pow (binary .pow (call .sin (negate (literal 7.5))) (literal 2))
      (var "x_y")).text = "((sin(-7.5) ^ 2) ^ x_y)" := by decide +kernel
  have htokens : tokens? " sin ((-007.50 )) ^2^x_y" = some [.name "sin", .opening, .opening,
      .operator .sub, .number 7.5, .closing, .closing, .operator .pow, .number 2,
      .operator .pow, .name "x_y"] := by decide +kernel
  obtain ⟨ts, hts, -, hp⟩ := parse_text_of_parse h
  obtain rfl := Option.some.inj (hts.symm.trans htokens)
  refine ⟨h, ht ▸ (hp _).2.mpr fun x hx => ?_⟩
  obtain rfl | rfl : x = 7.5 ∨ x = 2 := by simpa using hx
  · decide +kernel
  · decide +kernel

/-- Ten to the power of 309 is parsed as infinity, whose text is parsed as a variable. -/
theorem not_forall_parse_text : ¬ ∀ options source e, parse options source = .ok e →
    ∀ options', parse options' e.text = .ok e := by
  intro h
  have hp : parse {} (.ofList ('1' :: List.replicate 309 '0')) =
      .ok (literal (ofWord infinity)) := by
    -- The evaluation is slow where it has to find the characters of a long text by their bytes.
    rw [parse, items, scan, String.toList_ofList]
    decide +kernel
  have ht : (literal (ofWord infinity)).text = "inf" := by decide +kernel
  have hv : parse {} "inf" = .ok (var "inf") := by decide +kernel
  have := h _ _ _ hp {}
  rw [ht, hv] at this
  simp at this

end Expr

end Reckon
