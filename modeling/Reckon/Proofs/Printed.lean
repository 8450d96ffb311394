import Reckon.Expr.Text
import Reckon.Proofs.Binary64
import Reckon.Proofs.Text.Blank
import Reckon.Proofs.Token.Scan

/-! # Printed expressions

The tokens of the text of a tree. Every binary operation and every argument of a call stands in
parentheses, and a negative literal is a sign before its magnitude.
-/

namespace Reckon

open Binary64

def Token.isVariable (name : String) : Bool :=
  !name.toList.isEmpty && name.toList.all isLetter && (Function.ofName? name).isNone

namespace Decimal

variable {d : Decimal} {c : Char}

theorem isDigit_or_eq_of_mem_text (h : c ∈ d.text) : c.isDigit = true ∨ c = '.' := by
  simp only [text] at h
  split at h
  · exact .inl (isDigit_of_mem_digits h)
  · rcases List.mem_append.mp h with h | h
    · exact .inl (isDigit_of_mem_digits (List.mem_of_mem_take h))
    · rcases List.mem_cons.mp h with rfl | h
      · exact .inr rfl
      · exact .inl (isDigit_of_mem_digits (List.mem_of_mem_drop h))

theorem text_ne_nil (d : Decimal) : d.text ≠ [] := by
  have := d.length_digits
  simp only [text]
  split
  · exact List.ne_nil_of_length_pos (by omega)
  · simp

end Decimal

theorem Token.isVariable_iff {name : String} : isVariable name = true ↔ name.toList ≠ [] ∧
    (∀ c ∈ name.toList, isLetter c = true) ∧ Function.ofName? name = none := by
  simp [isVariable, and_assoc]

namespace Expr

/-- Whether the literals are finite and the names are those of variables. -/
def isPrintable : Expr → Bool
  | literal x => x.isFinite
  | var name => Token.isVariable name
  | binary _ l r => l.isPrintable && r.isPrintable
  | negate e | call _ e => e.isPrintable

/-- The tree with each negative literal as the negation of its magnitude. -/
def signless : Expr → Expr
  | literal x => if isNegative x then negate (literal (ofWord (word x))) else literal x
  | var name => var name
  | binary op l r => binary op l.signless r.signless
  | negate e => negate e.signless
  | call f e => call f e.signless

def opens : Expr → Bool
  | binary _ _ _ => true
  | literal _ | var _ | negate _ | call _ _ => false

def tokens : Expr → List Token
  | literal x =>
    if isNegative x then [.operator .sub, .number (ofWord (word x))] else [.number x]
  | var name => [.name name]
  | binary op l r => Token.enclosed (l.tokens ++ .operator op :: r.tokens)
  | negate e => .operator .sub :: e.tokens
  | call f e => .name f.name :: if e.opens then e.tokens else Token.enclosed e.tokens

variable {e : Expr} {x : Float} {name : String}

theorem toList_text_literal (h : x.isFinite = true) : (literal x).text.toList =
    if isNegative x then '-' :: (Decimal.shortest (word x)).text
    else (Decimal.shortest (word x)).text := by
  have hw := isFinite_iff.mp h
  rw [text, Number.text, Number.render, if_neg (by omega), if_neg (by omega), String.toList_ofList]

theorem toList_text_binary (op : Operator) (l r : Expr) : (binary op l r).text.toList =
    '(' :: (l.text.toList ++ ' ' :: (op.symbol.toList ++ ' ' :: r.text.toList) ++ [')']) := by
  simp [text]

theorem toList_text_negate (e : Expr) : (negate e).text.toList = '-' :: e.text.toList := by
  simp [text]

theorem toList_text_call (f : Function) (e : Expr) : (call f e).text.toList =
    f.name.toList ++ if e.text.toList.head? = some '(' then e.text.toList
      else '(' :: (e.text.toList ++ [')']) := by
  rw [text]
  split <;> simp

theorem isLetter_of_mem_name (f : Function) : ∀ c ∈ f.name.toList, Token.isLetter c = true := by
  cases f <;> simp [Function.name, Token.isLetter]

theorem scans_function (f : Function) : Token.Scans f.name.toList [.name f.name] :=
  Token.scans_name (by cases f <;> simp [Function.name]) (isLetter_of_mem_name f)

theorem head?_text_eq_iff (h : e.isPrintable = true) :
    e.text.toList.head? = some '(' ↔ e.opens = true := by
  cases e with
  | literal x =>
    have hd (d : Decimal) : d.text.head? ≠ some '(' := fun hc => by
      rcases Decimal.isDigit_or_eq_of_mem_text (List.mem_of_head? hc) with h | h <;> simp at h
    rw [toList_text_literal h]
    split <;> simp [opens, hd]
  | var name =>
    simp only [text, opens, Bool.false_eq_true, iff_false]
    intro hc
    have := (Token.isVariable_iff.mp h).2.1 _ (List.mem_of_head? hc)
    simp [Token.isLetter] at this
  | binary op l r => simp [toList_text_binary, opens]
  | negate e => simp [toList_text_negate, opens]
  | call f e => cases f <;> simp [toList_text_call, opens, Function.name]

/-- The text of a tree is scanned as its tokens. -/
theorem scans_text (h : e.isPrintable = true) : Token.Scans e.text.toList e.tokens := by
  induction e with
  | literal x =>
    rw [toList_text_literal h, tokens]
    have hs := Token.scans_decimal (Decimal.shortest (word x))
    rw [Decimal.toFloat, Decimal.word_shortest (isFinite_iff.mp h)] at hs
    split
    · exact hs.symbol rfl
    · next hn => rwa [ofWord_word (by simpa using hn)] at hs
  | var name =>
    obtain ⟨hne, hall, -⟩ := Token.isVariable_iff.mp h
    exact Token.scans_name hne hall
  | binary op l r ihl ihr =>
    obtain ⟨hl, hr⟩ := Bool.and_eq_true_iff.mp h
    have hop : Token.Scans (op.symbol.toList ++ ' ' :: r.text.toList)
        (.operator op :: r.tokens) := by
      cases op <;> exact (ihr hr).space.symbol rfl
    rw [toList_text_binary, tokens]
    exact ((ihl hl).append hop.space rfl).enclosed
  | negate e ih =>
    rw [toList_text_negate]
    exact (ih h).symbol rfl
  | call f e ih =>
    have hs := ih h
    rw [toList_text_call, tokens]
    by_cases ho : e.text.toList.head? = some '('
    · obtain ⟨cs, hcs⟩ := List.head?_eq_some_iff.mp ho
      rw [if_pos ho, if_pos ((head?_text_eq_iff (e := e) h).mp ho), hcs]
      exact (scans_function f).append (hcs ▸ hs) rfl
    · rw [if_neg ho, if_neg fun h' => ho ((head?_text_eq_iff (e := e) h).mpr h')]
      exact (scans_function f).append hs.enclosed rfl

theorem isBlank_eq_false_of_isLetter {c : Char} (h : Token.isLetter c = true) :
    Text.isBlank c = false := by
  rw [Token.isLetter_iff] at h
  rw [Bool.eq_false_iff, ne_eq, Text.isBlank_iff]
  simp only [Text.blankRanges, List.mem_cons, List.not_mem_nil, or_false, exists_eq_or_imp,
    exists_eq_left]
  omega

theorem isBlank_eq_false_of_isDigit {c : Char} (h : c.isDigit = true) : Text.isBlank c = false := by
  rw [Token.isDigit_iff] at h
  rw [Bool.eq_false_iff, ne_eq, Text.isBlank_iff]
  simp only [Text.blankRanges, List.mem_cons, List.not_mem_nil, or_false, exists_eq_or_imp,
    exists_eq_left]
  omega

theorem isBlank_eq_false_of_mem_text {d : Decimal} {c : Char} (h : c ∈ d.text) :
    Text.isBlank c = false := by
  rcases Decimal.isDigit_or_eq_of_mem_text h with h | rfl
  · exact isBlank_eq_false_of_isDigit h
  · decide

theorem solid_text (h : e.isPrintable = true) : Text.Solid e.text.toList := by
  have hopen : Text.Solid ['('] := ⟨⟨'(', rfl, by decide +kernel⟩, '(', rfl, by decide +kernel⟩
  have hclose : Text.Solid [')'] := ⟨⟨')', rfl, by decide +kernel⟩, ')', rfl, by decide +kernel⟩
  induction e with
  | literal x =>
    have hd := Text.solid_of_forall (Decimal.text_ne_nil (Decimal.shortest (word x)))
      fun c => isBlank_eq_false_of_mem_text
    rw [toList_text_literal h]
    split
    · exact hd.cons rfl
    · exact hd
  | var name =>
    obtain ⟨hne, hall, -⟩ := Token.isVariable_iff.mp h
    exact Text.solid_of_forall hne fun c hc => isBlank_eq_false_of_isLetter (hall c hc)
  | binary op l r =>
    have hs := hopen.append
      (l.text.toList ++ ' ' :: (op.symbol.toList ++ ' ' :: r.text.toList)) hclose
    simpa [toList_text_binary] using hs
  | negate e ih =>
    rw [toList_text_negate]
    exact (ih h).cons rfl
  | call f e ih =>
    have hf : Text.Solid f.name.toList := Text.solid_of_forall (by cases f <;> simp [Function.name])
      fun c hc => isBlank_eq_false_of_isLetter (isLetter_of_mem_name f c hc)
    rw [toList_text_call]
    split
    · exact hf.append [] (ih h)
    · exact hf.append ('(' :: e.text.toList) hclose

end Expr

end Reckon
