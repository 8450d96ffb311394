import Reckon.Expr.Evaluation
import Reckon.Proofs.Draft.Conservation
import Reckon.Proofs.Printed
import Reckon.Proofs.Reading.Sound
import Reckon.Proofs.Statement

/-! # Printed expressions are read back

The text of a tree is parsed as the tree, however powers group, and the text of a statement as the
statement. A negative literal comes back as the negation of its magnitude, which has the same
value.
-/

namespace Reckon

open Binary64 Reckon.Expr Token

variable {power : Associativity} {options : Options} {c : Category} {e : Expr} {t : Token}
  {σ σ' τ : List Expr} {ts us : List Token} {w : List Pending}

theorem Reads.phrase_of_row (h : Reads power (.row []) σ ts τ) (c : Category) :
    Reads power (.phrase c) σ ts τ :=
  (Reads.bare h).loosen c.tier_le_four

theorem Reads.operand_of_signs (h : Reads power (.row w) σ ts τ) (he : t.Denotes e)
    (hw : ∀ p ∈ w, p = .negation) : Reads power (.row []) σ (ts ++ [t]) (wrap w e :: τ) := by
  rw [← List.append_nil w] at h
  exact .operand h he hw (by simp)

namespace Expr

theorem due_tokens (h : e.isPrintable = true) : due e.tokens = false := by
  induction e with
  | literal x =>
    rw [tokens]
    split <;> rfl
  | var name => simp [tokens, due, awaits, (isVariable_iff.mp h).2.2]
  | binary op l r => exact due_append_enclosed [] _
  | negate e ih => exact (due_append_cons rfl [] _).trans (ih h)
  | call f e ih =>
    rw [tokens]
    refine (due_append_cons (by simp [awaits]) [] _).trans ?_
    split
    · exact ih h
    · exact due_append_enclosed [] _

/-- Behind a row of signs, and where the text opens with a parenthesis also behind one with
functions, the tokens of a tree are read as the tree under the row. -/
theorem reads_tokens (h : e.isPrintable = true) (hr : Reads power (.row w) σ us τ)
    (hd : due us = true) (hw : e.opens = false → ∀ p ∈ w, p = .negation) :
    Reads power (.row []) σ (us ++ e.tokens) (wrap w e.signless :: τ) := by
  induction e generalizing w σ us τ with
  | literal x =>
    rw [tokens, signless]
    split
    · have hsign : Reads power (.row (.negation :: w)) σ (us ++ [.operator .sub]) τ :=
        .unary hr rfl fun _ => hd
      rw [List.append_cons]
      exact hsign.operand_of_signs (.number _) (by simpa using hw rfl)
    · exact hr.operand_of_signs (.number x) (hw rfl)
  | var name => exact hr.operand_of_signs (.name (isVariable_iff.mp h).2.2) (hw rfl)
  | binary op l r ihl ihr =>
    obtain ⟨hl, hr'⟩ := Bool.and_eq_true_iff.mp h
    have hchain : Reads power (.phrase op.category) τ (l.tokens ++ .operator op :: r.tokens)
        (binary op l.signless r.signless :: τ) :=
      .chain ((ihl hl .nil rfl (by simp)).phrase_of_row _) (fun _ => due_tokens hl)
        ((ihr hr' .nil rfl (by simp)).phrase_of_row _)
    refine .group hr (hchain.loosen (Category.tier_sum_le _)) ?_
    exact (due_append_cons rfl _ _).trans (due_tokens hr')
  | negate e ih =>
    have hsign : Reads power (.row (.negation :: w)) σ (us ++ [.operator .sub]) τ :=
      .unary hr rfl fun _ => hd
    rw [tokens, List.append_cons]
    exact ih h hsign (due_concat _ _) fun _ => by simpa using hw rfl
  | call f e ih =>
    have hcall : Reads power (.row (.function f :: w)) σ (us ++ [.name f.name]) τ :=
      .unary hr rfl (by simp)
    have hd' : due (us ++ [.name f.name]) = true := by rw [due_concat]; simp [awaits]
    rw [tokens, List.append_cons]
    split
    · next ho => exact ih h hcall hd' (by simp [ho])
    · have hg := Reads.group hcall ((ih h .nil rfl (by simp)).phrase_of_row _) (due_tokens h)
      exact hg

theorem tokens?_text (h : e.isPrintable = true) : tokens? e.text = some e.tokens := by
  rw [← String.ofList_toList (s := e.text), tokens?_ofList_eq_some_iff]
  exact (scans_text h).itemsOf_eq

theorem parse_text_eq (options : Options) (h : e.isPrintable = true) :
    parse options e.text = .ok e.signless := by
  have hr : Reads options.power (.row []) [] e.tokens [e.signless] :=
    reads_tokens h .nil rfl (by simp)
  exact parse_eq_ok_iff_reads.mpr ⟨e.tokens, tokens?_text h, hr.phrase_of_row .sum⟩

theorem eval_signless (options : Options) (store : Store) (h : e.isPrintable = true) :
    e.signless.eval options store = e.eval options store := by
  induction e with
  | literal x =>
    rw [signless]
    split
    · next hn => exact congrArg Except.ok (neg_ofWord_word hn)
    · rfl
  | var name => rfl
  | binary op l r ihl ihr =>
    obtain ⟨hl, hr⟩ := Bool.and_eq_true_iff.mp h
    rw [signless, eval, eval, ihl hl, ihr hr]
  | negate e ih => rw [signless, eval, eval, ih h]
  | call f e ih => rw [signless, eval, eval, ih h]

theorem signless_eq_self (h : ∀ x, .number x ∈ e.leaves → isNegative x = false) :
    e.signless = e := by
  induction e with
  | literal x => rw [signless, if_neg (by simp [h x (by simp [leaves])])]
  | var name => rfl
  | binary op l r ihl ihr =>
    rw [signless, ihl fun x hx => h x (List.mem_append_left _ hx),
      ihr fun x hx => h x (List.mem_append_right _ hx)]
  | negate e ih => rw [signless, ih h]
  | call f e ih => rw [signless, ih h]

end Expr

namespace Statement

variable {target : String}

theorem cutEquals_text (h : isVariable target = true) (e : Expr) :
    Text.cutEquals (Statement.text ⟨target, e⟩) = some (target ++ " ", " " ++ e.text) := by
  have hne : '=' ∉ (target ++ " ").toList := by
    intro hm
    rw [String.toList_append, List.mem_append] at hm
    rcases hm with hm | hm
    · have := (isVariable_iff.mp h).2.1 _ hm
      simp [isLetter] at this
    · simp at hm
  have htext : Statement.text ⟨target, e⟩ = target ++ " " ++ "=" ++ (" " ++ e.text) := by
    apply String.toList_injective
    simp [Statement.text]
  rw [htext, Text.cutEquals_append hne]

theorem isTarget_of_isVariable (h : isVariable target = true) : isTarget target = true := by
  obtain ⟨hne, hall, hf⟩ := isVariable_iff.mp h
  have hitems : items target = [.token (.name target)] := by
    rw [items, scan]
    exact (scans_name hne hall).itemsOf_eq
  simp [isTarget, hitems, hf]

theorem parse_text_eq (options : Options) (ht : isVariable target = true)
    (hc : isConstant target = false) (h : e.isPrintable = true) :
    parse options (Statement.text ⟨target, e⟩) = .ok ⟨target, e.signless⟩ := by
  obtain ⟨hne, hall, -⟩ := isVariable_iff.mp ht
  have hsolid : Text.Solid target.toList :=
    Text.solid_of_forall hne fun c hc => isBlank_eq_false_of_isLetter (hall c hc)
  have hspace : ∀ c ∈ " ".toList, Text.isBlank c = true :=
    List.all_eq_true.mp (by decide +kernel)
  have hempty : ∀ c ∈ "".toList, Text.isBlank c = true := by simp
  have hleft : Text.trim (target ++ " ") = target := by
    have htrim := Text.trim_white_append hempty hspace target
    rwa [String.empty_append, hsolid.trim_eq] at htrim
  have hright : Text.trim (" " ++ e.text) = e.text := by
    have htrim := Text.trim_white_append hspace hempty e.text
    rwa [String.append_empty, (solid_text h).trim_eq] at htrim
  rw [parse_eq_ok_iff_of_cutEquals (cutEquals_text ht e), hleft, hright]
  exact ⟨hc, isTarget_of_isVariable ht, rfl, Expr.parse_text_eq options h⟩

end Statement

/-- A tree with finite literals and names of variables is parsed back from its text, up to the signs
of negative literals, which keeps its value; a statement with it is, too. -/
theorem Expr.parse_text (h : e.isPrintable = true) :
    (∀ options, parse options e.text = .ok e.signless) ∧
    ((∀ x, .number x ∈ e.leaves → isNegative x = false) → e.signless = e) ∧
    (∀ options store, e.signless.eval options store = e.eval options store) ∧
    ∀ target, isVariable target = true → isConstant target = false → ∀ options,
      Statement.parse options (Statement.text ⟨target, e⟩) = .ok ⟨target, e.signless⟩ :=
  ⟨fun options => parse_text_eq options h, signless_eq_self,
    fun options store => eval_signless options store h,
    fun _ ht hc options => Statement.parse_text_eq options ht hc h⟩

/-- The signs of literals, that of a zero too, come back as negations. -/
theorem Expr.parse_text_negative :
    (binary .sub (negate (literal (-2.5)))
      (call .sin (binary .pow (var "x") (literal (-0.0))))).isPrintable = true ∧
    ∀ options, Statement.parse options "y = (--2.5 - sin(x ^ -0))" =
      .ok ⟨"y", binary .sub (negate (negate (literal 2.5)))
        (call .sin (binary .pow (var "x") (negate (literal 0))))⟩ := by
  have h : (binary .sub (negate (literal (-2.5)))
      (call .sin (binary .pow (var "x") (literal (-0.0))))).isPrintable = true := by decide +kernel
  refine ⟨h, fun options => ?_⟩
  have hp := (parse_text h).2.2.2 "y" (by decide +kernel) (by decide +kernel) options
  have ht : Statement.text ⟨"y", binary .sub (negate (literal (-2.5)))
      (call .sin (binary .pow (var "x") (literal (-0.0))))⟩ = "y = (--2.5 - sin(x ^ -0))" := by
    decide +kernel
  have hs : (binary .sub (negate (literal (-2.5)))
      (call .sin (binary .pow (var "x") (literal (-0.0))))).signless =
      binary .sub (negate (negate (literal 2.5)))
        (call .sin (binary .pow (var "x") (negate (literal 0)))) := by decide +kernel
  rwa [ht, hs] at hp

end Reckon
