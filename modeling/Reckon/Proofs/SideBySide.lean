import Reckon.Expr.Evaluation
import Reckon.Proofs.Reading.Balance
import Reckon.Proofs.Reading.Sound
import Reckon.Proofs.Statement

/-! # Operands side by side

Operands side by side are not rejected as such: an operator that lacks an operand takes them. They
are rejected wherever no operand is missing, and otherwise unless the tokens read as one tree.
-/

namespace Reckon.Expr

open Token

variable {options : Options} {source : String} {e : Expr} {ts : List Token}

theorem missing_eq_surplus_of_parse (h : parse options source = .ok e)
    (hts : tokens? source = some ts) : missing ts = surplus ts := by
  obtain ⟨us, hus, hr⟩ := parse_eq_ok_iff_reads.mp h
  obtain rfl := Option.some.inj (hts.symm.trans hus)
  simpa [Nat.add_comm] using hr.balance

/-- The tree is read from the tokens although some operand is missing, since as many stand side by
side. -/
structure Balances (power : Associativity) (ts : List Token) (e : Expr) : Prop where
  reads : Reads power (.phrase .sum) [] ts [e]
  pos : 0 < missing ts
  eq : missing ts = surplus ts

/-- Operands side by side are parsed, also in an assignment, exactly if an operand is missing for
each of them and the tokens read as one tree. -/
theorem parse_eq_ok_iff_of_sideBySide (h : ∀ ts, tokens? source = some ts → SideBySide ts) :
    (∀ e, parse options source = .ok e ↔
      ∃ ts, tokens? source = some ts ∧ Balances options.power ts e) ∧
    ∀ line left right s, Text.cutEquals line = some (left, right) → Text.trim right = source →
      (Statement.parse options line = .ok s ↔ isConstant (Text.trim left) = false ∧
        Statement.isTarget (Text.trim left) = true ∧ s.target = Text.trim left ∧
        ∃ ts, tokens? source = some ts ∧ Balances options.power ts s.expr) := by
  have hparse (e : Expr) : parse options source = .ok e ↔
      ∃ ts, tokens? source = some ts ∧ Balances options.power ts e := by
    constructor
    · intro hp
      obtain ⟨ts, hts, hr⟩ := parse_eq_ok_iff_reads.mp hp
      have heq := missing_eq_surplus_of_parse hp hts
      exact ⟨ts, hts, hr, heq ▸ surplus_pos_iff.mpr (h ts hts), heq⟩
    · rintro ⟨ts, hts, hr, -, -⟩
      exact parse_eq_ok_iff_reads.mpr ⟨ts, hts, hr⟩
  refine ⟨hparse, ?_⟩
  rintro line left right s hcut rfl
  rw [Statement.parse_eq_ok_iff_of_cutEquals hcut, hparse]

/-- The operand missing before the plus is the one in front of the parenthesis. -/
theorem parse_eq_ok_iff_of_sideBySide_before :
    (∀ ts, tokens? "2 (+ x)" = some ts → SideBySide ts) ∧
    ∃ ts, tokens? "2 (+ x)" = some ts ∧
      Balances .left ts (.binary .add (.literal 2) (.var "x")) := by
  have h : ∀ ts ∈ tokens? "2 (+ x)", SideBySide ts := by decide +kernel
  have hp : parse {} "2 (+ x)" = .ok (.binary .add (.literal 2) (.var "x")) := by decide +kernel
  exact ⟨h, ((parse_eq_ok_iff_of_sideBySide h).1 _).mp hp⟩

/-- Operands side by side are not always rejected, neither in an expression nor in an assignment,
which then gives its target a value. -/
theorem not_forall_error_of_sideBySide :
    (¬ ∀ options source ts, tokens? source = some ts → SideBySide ts →
      ∃ f, parse options source = .error f) ∧
    ∃ s, Statement.parse {} "x = 2 3 +" = .ok s ∧
      ∀ store, ∃ value, s.expr.eval {} store = .ok value := by
  constructor
  · intro h
    obtain ⟨f, hf⟩ := h {} "2 3 +" [.number 2, .number 3, .operator .add] (by decide +kernel)
      (by decide +kernel)
    have hp : parse {} "2 3 +" = .ok (.binary .add (.literal 2) (.literal 3)) := by decide +kernel
    simp [hp] at hf
  · exact ⟨⟨"x", .binary .add (.literal 2) (.literal 3)⟩, by decide +kernel, fun _ => ⟨_, rfl⟩⟩

end Reckon.Expr
