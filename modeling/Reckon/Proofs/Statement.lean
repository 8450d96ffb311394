import Reckon.Proofs.Text.Split
import Reckon.Statement.Parser

/-! # Parsed statements

A line with an equals sign is an assignment exactly if what is before the first one is a name that
may be assigned to and what is behind it is an expression. A line without one is a lookup exactly if
it is a name. White space at the ends of a line does not matter.
-/

namespace Reckon.Statement

variable {options : Options} {line left right : String} {s : Statement}

theorem parse_eq_ok_iff_of_cutEquals (h : Text.cutEquals line = some (left, right)) :
    parse options line = .ok s ↔ isConstant (Text.trim left) = false ∧
      isTarget (Text.trim left) = true ∧ s.target = Text.trim left ∧
      Expr.parse options (Text.trim right) = .ok s.expr := by
  obtain ⟨target, e⟩ := s
  simp only [parse, h, parseTarget]
  cases hc : isConstant (Text.trim left) with
  | true => simp
  | false =>
    cases ht : isTarget (Text.trim left) with
    | false => simp [bind, Except.bind]
    | true =>
      cases hr : Expr.parse options (Text.trim right) with
      | error f => simp [bind, Except.bind]
      | ok e' => simp [bind, Except.bind, pure, Except.pure, eq_comm]

theorem parse_eq_ok_iff_of_cutEquals_eq_none (h : Text.cutEquals line = none) :
    parse options line = .ok s ↔ isTarget (Text.trim line) = true ∧ s = lookup (Text.trim line) := by
  simp only [parse, h, parseTarget]
  cases isTarget (Text.trim line) <;> simp [bind, Except.bind, pure, Except.pure, eq_comm]

theorem parseTarget_trim (text : String) : parseTarget (Text.trim text) = parseTarget text := by
  rw [parseTarget, Text.trim_trim, parseTarget]

theorem parse_trim (options : Options) (line : String) :
    parse options (Text.trim line) = parse options line := by
  have h := Text.map_trim_cutEquals_trim line
  cases hc : Text.cutEquals line with
  | none =>
    rw [hc, Option.map_none, Option.map_eq_none_iff] at h
    simp only [parse, hc, h, parseTarget_trim]
  | some parts =>
    obtain ⟨left, right⟩ := parts
    rw [hc, Option.map_some, Option.map_eq_some_iff] at h
    obtain ⟨⟨left', right'⟩, hc', hp⟩ := h
    obtain ⟨hl, hr⟩ : Text.trim left' = Text.trim left ∧ Text.trim right' = Text.trim right := by
      simpa using hp
    simp only [parse, hc, hc', parseTarget, hl, hr]

end Reckon.Statement
