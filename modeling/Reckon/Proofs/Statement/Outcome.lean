import Reckon.Proofs.RoundTrip
import Reckon.Proofs.Token.Gap

/-! # What a line comes to

What stands before the first equals sign of a line is a target if it is, trimmed, a name of a variable
that is not protected. A protected name is reported before all else, a bad one before the expression
is read. White space at the ends of either side does not matter, and no expression holds an equals
sign.
-/

namespace Reckon

namespace Token

variable {c : Char} {cs : List Char} {item : Item} {source : String} {ts : List Token}

theorem isBlank_of_isSpace (h : isSpace c = true) : Text.isBlank c = true := by
  rcases isSpace_iff.mp h with rfl | rfl | rfl | rfl | rfl <;> decide

theorem itemsOf_eq_nil_iff : itemsOf cs = [] ↔ ∀ c ∈ cs, isSpace c = true := by
  induction cs with
  | nil => simp
  | cons c cs ih =>
    rw [List.forall_mem_cons]
    cases hc : isSpace c with
    | true => rw [itemsOf_space hc, ih, and_iff_right rfl]
    | false => simp [itemsOf_cons hc]

theorem longest_of_itemsOf (h : itemsOf cs = [item]) (hs : Text.Solid cs) : Longest item cs [] := by
  obtain ⟨⟨c, hc, hhead⟩, d, hd, hlast⟩ := hs
  obtain ⟨cs, rfl⟩ := List.head?_eq_some_iff.mp hc
  have hspace : isSpace c = false :=
    Bool.eq_false_iff.mpr fun hs => Bool.eq_false_iff.mp hhead (isBlank_of_isSpace hs)
  rw [itemsOf_cons hspace, List.cons.injEq, itemsOf_eq_nil_iff] at h
  obtain ⟨rfl, hrest⟩ := h
  have hl := longest_first hspace cs
  have htext := Piece.first_text_append_rest c cs
  -- What is behind the item would be white space up to the end.
  have hnil : (Piece.first c cs).rest = [] := by
    by_contra hne
    rw [← htext, List.getLast?_append_of_ne_nil _ hne] at hd
    have hb := isBlank_of_isSpace (hrest d (List.mem_of_getLast? hd))
    exact Bool.eq_false_iff.mp hlast hb
  rw [hnil, List.append_nil] at htext
  rwa [hnil, htext] at hl

theorem mem_class_of_tokens? (h : tokens? source = some ts) (hc : c ∈ source.toList) :
    isSpace c = true ∨ c.isDigit = true ∨ isLetter c = true ∨ c ∈ symbols ∨ c = '.' := by
  by_contra hnot
  simp only [not_or, Bool.not_eq_true] at hnot
  obtain ⟨hspace, hdigit, hletter, hsymbol, hpoint⟩ := hnot
  obtain ⟨us, vs, hsource⟩ := List.append_of_mem hc
  have hmem := rejected_mem hsource hspace hdigit hletter hsymbol fun h => hpoint h.1
  have hitem : Item.rejected c ∈ items source := List.mem_map.mpr ⟨_, hmem, rfl⟩
  rw [tokens?_eq_some_iff.mp h] at hitem
  simp at hitem

end Token

namespace Statement

open Token

variable {options : Options} {line left right left' right' name : String}
  {r : Except ParseError Statement}

theorem isVariable_of_isConstant (h : isConstant name = true) : isVariable name = true := by
  have hall : ["pi", "PI", "e", "E"].all isVariable = true := by decide +kernel
  exact List.all_eq_true.mp hall name ((isConstant_iff name).mp h)

theorem isConstant_eq_false (h : isVariable name = false) : isConstant name = false :=
  Bool.eq_false_iff.mpr fun hc => Bool.eq_false_iff.mp h (isVariable_of_isConstant hc)

/-- The scan would pass over white space at the ends of a target, but none is left there. -/
theorem isTarget_trim (text : String) : isTarget (Text.trim text) = isVariable (Text.trim text) := by
  rw [Bool.eq_iff_iff]
  refine ⟨fun h => ?_, isTarget_of_isVariable⟩
  unfold isTarget at h
  split at h
  case h_2 => cases h
  case h_1 name hitems =>
    have hne : Text.trim text ≠ "" := by
      intro hnil
      have hempty : items "" = [] := by decide +kernel
      rw [hnil, hempty] at hitems
      cases hitems
    have hl := longest_of_itemsOf hitems (Text.solid_trim hne)
    generalize hcs : (Text.trim text).toList = cs at hl
    cases hl with
    | name hne hall =>
      rw [← hcs, String.ofList_toList] at h
      rw [← hcs] at hne hall
      exact isVariable_iff.mpr ⟨hne, hall, Option.isNone_iff_eq_none.mp h⟩

/-- What a line comes to, by what stands before and behind its first equals sign. -/
inductive Outcome (options : Options) : String → Except ParseError Statement → Prop
  | lookup {line : String} (hline : '=' ∉ line.toList)
      (hname : isVariable (Text.trim line) = true) :
      Outcome options line (.ok ⟨Text.trim line, .var (Text.trim line)⟩)
  | unnamed {line : String} (hline : '=' ∉ line.toList)
      (hname : isVariable (Text.trim line) = false) :
      Outcome options line (.error (.invalidExpression (Text.trim line)))
  | assignment {left right : String} {e : Expr} (hleft : '=' ∉ left.toList)
      (hname : isVariable (Text.trim left) = true) (hconstant : isConstant (Text.trim left) = false)
      (hexpr : Expr.parse options (Text.trim right) = .ok e) :
      Outcome options (left ++ "=" ++ right) (.ok ⟨Text.trim left, e⟩)
  | constant {left right : String} (hleft : '=' ∉ left.toList)
      (hconstant : isConstant (Text.trim left) = true) :
      Outcome options (left ++ "=" ++ right) (.error (.assignToConstant (Text.trim left)))
  | misnamed {left right : String} (hleft : '=' ∉ left.toList)
      (hname : isVariable (Text.trim left) = false) :
      Outcome options (left ++ "=" ++ right) (.error (.invalidExpression (Text.trim left)))
  | faulty {left right : String} {f : ParseError} (hleft : '=' ∉ left.toList)
      (hname : isVariable (Text.trim left) = true) (hconstant : isConstant (Text.trim left) = false)
      (hexpr : Expr.parse options (Text.trim right) = .error f) :
      Outcome options (left ++ "=" ++ right) (.error f)

theorem parseTarget_eq (text : String) : parseTarget text =
    if isVariable (Text.trim text) then .ok (Text.trim text)
    else .error (.invalidExpression (Text.trim text)) := by
  rw [parseTarget, isTarget_trim]

theorem parse_append_congr (options : Options) (h : '=' ∉ left.toList) (h' : '=' ∉ left'.toList)
    (hl : Text.trim left = Text.trim left') (hr : Text.trim right = Text.trim right') :
    parse options (left ++ "=" ++ right) = parse options (left' ++ "=" ++ right') := by
  simp only [parse, Text.cutEquals_append h, Text.cutEquals_append h', parseTarget, hl, hr]

theorem Outcome.parse_eq (h : Outcome options line r) : parse options line = r := by
  cases h with
  | lookup hline hname =>
    rw [parse, Text.cutEquals_eq_none hline, parseTarget_eq, if_pos hname]
    rfl
  | unnamed hline hname =>
    rw [parse, Text.cutEquals_eq_none hline, parseTarget_eq, if_neg (Bool.eq_false_iff.mp hname)]
    rfl
  | assignment hleft hname hconstant hexpr =>
    simp only [parse, Text.cutEquals_append hleft, hconstant, parseTarget_eq, hname, hexpr]
    rfl
  | constant hleft hconstant =>
    simp only [parse, Text.cutEquals_append hleft, hconstant, if_true]
  | misnamed hleft hname =>
    simp only [parse, Text.cutEquals_append hleft, isConstant_eq_false hname, parseTarget_eq, hname]
    rfl
  | faulty hleft hname hconstant hexpr =>
    simp only [parse, Text.cutEquals_append hleft, hconstant, parseTarget_eq, hname, hexpr]
    rfl

theorem exists_outcome (options : Options) (line : String) : ∃ r, Outcome options line r := by
  by_cases hline : '=' ∈ line.toList
  · obtain ⟨left, right, rfl, hleft⟩ := Text.exists_eq_append_of_mem hline
    cases hname : isVariable (Text.trim left) with
    | false => exact ⟨_, .misnamed hleft hname⟩
    | true =>
      cases hconstant : isConstant (Text.trim left) with
      | true => exact ⟨_, .constant hleft hconstant⟩
      | false =>
        cases hexpr : Expr.parse options (Text.trim right) with
        | ok e => exact ⟨_, .assignment hleft hname hconstant hexpr⟩
        | error f => exact ⟨_, .faulty hleft hname hconstant hexpr⟩
  · cases hname : isVariable (Text.trim line) with
    | false => exact ⟨_, .unnamed hline hname⟩
    | true => exact ⟨_, .lookup hline hname⟩

theorem parse_eq_iff_outcome : parse options line = r ↔ Outcome options line r := by
  constructor
  · rintro rfl
    obtain ⟨r, h⟩ := exists_outcome options line
    rwa [h.parse_eq]
  · exact Outcome.parse_eq

theorem isVariable_target_of_parse {st : Statement} (h : parse options line = .ok st) :
    isVariable st.target = true := by
  cases parse_eq_iff_outcome.mp h with
  | lookup _ hname => exact hname
  | assignment _ hname => exact hname

theorem exists_error_of_equals_mem (hleft : '=' ∉ left.toList) (hright : '=' ∈ right.toList) :
    ∃ f, parse options (left ++ "=" ++ right) = .error f := by
  cases hp : parse options (left ++ "=" ++ right) with
  | error f => exact ⟨f, rfl⟩
  | ok s =>
    obtain ⟨-, -, -, hexpr⟩ := (parse_eq_ok_iff_of_cutEquals (Text.cutEquals_append hleft right)).mp hp
    obtain ⟨ts, hts, -⟩ := Expr.parse_eq_ok_iff_reads.mp hexpr
    obtain ⟨bs, bs', hb, hb', htext⟩ := Text.exists_blank_append_trim right
    have hblank : Text.isBlank '=' = false := by decide
    have hmem : '=' ∈ (Text.trim right).toList := by
      rw [htext] at hright
      rcases List.mem_append.mp hright with h | h
      · exact absurd (hb _ h) (Bool.eq_false_iff.mp hblank)
      · rcases List.mem_append.mp h with h | h
        · exact h
        · exact absurd (hb' _ h) (Bool.eq_false_iff.mp hblank)
    exact absurd (mem_class_of_tokens? hts hmem) (by decide)

/-- The outcome of a line is one, it does not depend on white space at the ends of the line or around
its first equals sign, and it is an error where there is a second one. -/
theorem parse_outcome (options : Options) :
    (∀ line r, parse options line = r ↔ Outcome options line r) ∧
    (∀ u v : String, (∀ c ∈ u.toList, Text.isBlank c = true) →
      (∀ c ∈ v.toList, Text.isBlank c = true) →
      (∀ line, parse options (u ++ line ++ v) = parse options line) ∧
      ∀ left right : String, '=' ∉ left.toList →
        parse options (left ++ u ++ "=" ++ v ++ right) = parse options (left ++ "=" ++ right)) ∧
    ∀ line : String, 2 ≤ line.toList.count '=' → ∃ f, parse options line = .error f := by
  refine ⟨fun line r => parse_eq_iff_outcome, fun u v hu hv => ⟨fun line => ?_, ?_⟩, ?_⟩
  · rw [← parse_trim, Text.trim_white_append hu hv, parse_trim]
  · intro left right hleft
    have hu' : '=' ∉ u.toList := fun h => absurd (hu _ h) (by decide)
    have hempty : ∀ c ∈ "".toList, Text.isBlank c = true := by simp
    have hl := Text.trim_white_append hempty hu left
    have hr := Text.trim_white_append hv hempty right
    rw [String.empty_append] at hl
    rw [String.append_empty] at hr
    have hleft' : '=' ∉ (left ++ u).toList := by
      rw [String.toList_append]
      exact fun h => (List.mem_append.mp h).elim hleft hu'
    rw [String.append_assoc]
    exact parse_append_congr options hleft' hleft hl hr
  · intro line hcount
    have hline : '=' ∈ line.toList := List.count_pos_iff.mp (by omega)
    obtain ⟨left, right, rfl, hleft⟩ := Text.exists_eq_append_of_mem hline
    apply exists_error_of_equals_mem hleft
    have hcount' : 0 < right.toList.count '=' := by
      simpa [List.count_eq_zero.mpr hleft] using hcount
    exact List.count_pos_iff.mp hcount'

/-- A protected name is reported whatever the rest of the line is, with any white space around it. -/
theorem parse_outcome_protected : (∀ c ∈ "\u3000 ".toList, Text.isBlank c = true) ∧
    (∀ c ∈ "\t".toList, Text.isBlank c = true) ∧ '=' ∉ "pi".toList ∧
    2 ≤ "pi=)=".toList.count '=' ∧
    parse {} "\u3000 pi=)=\t" = .error (.assignToConstant "pi") ∧
    parse {} "pi\u3000 =\t)=" = .error (.assignToConstant "pi") ∧
    ∃ f, parse {} "pi=)=" = .error f := by
  have hu : ∀ c ∈ "\u3000 ".toList, Text.isBlank c = true :=
    List.all_eq_true.mp (by decide +kernel)
  have hv : ∀ c ∈ "\t".toList, Text.isBlank c = true := List.all_eq_true.mp (by decide +kernel)
  have hleft : '=' ∉ "pi".toList := by decide
  have hcount : 2 ≤ "pi=)=".toList.count '=' := by decide
  obtain ⟨hiff, hwhite, htwo⟩ := parse_outcome {}
  obtain ⟨hends, haround⟩ := hwhite _ _ hu hv
  have hparse : parse {} "pi=)=" = .error (.assignToConstant "pi") :=
    (hiff _ _).mpr (@Outcome.constant {} "pi" ")=" hleft (by decide +kernel))
  exact ⟨hu, hv, hleft, hcount, (hends "pi=)=").trans hparse,
    (haround "pi" ")=" hleft).trans hparse, htwo _ hcount⟩

end Statement

end Reckon
