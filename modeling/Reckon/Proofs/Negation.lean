import Reckon.Proofs.Grammar
import Reckon.Proofs.Reading.Group
import Reckon.Proofs.Token.Gap

/-! # Signs before operands

A sign is applied as soon as a number, a variable or a parenthesised group behind it is complete, but
a function without parentheses waits for what follows its operand. A sign that stands before such a
function is met while the functions are built, and nothing builds it.
-/

namespace Reckon

open Reckon.Expr Draft

@[simp] theorem Pending.tokens_concat (w : List Pending) (p : Pending) :
    tokens (w ++ [p]) = p.token :: tokens w := by
  simp [tokens]

namespace Token

variable {ts us us' vs : List Token} {t : Token} {op : Operator} {w : List Pending}

/-- A number, a variable or a group in parentheses, behind any minuses and names of functions. -/
inductive UnaryOperand : List Token → Prop
  | atom {w : List Pending} {t : Token} (hw : ∀ p ∈ w, p.isUnary = true)
      (ht : t.isOperand = true) : UnaryOperand (Pending.tokens w ++ [t])
  | group {w : List Pending} {us : List Token} (hw : ∀ p ∈ w, p.isUnary = true)
      (hus : Balanced us) : UnaryOperand (Pending.tokens w ++ enclosed us)

/-- Whether a sign before the operand is applied to it: a group is complete where it closes, and a
number or a variable where it stands, unless a function waits for more. -/
def TakesSign (ts : List Token) : Prop :=
  ts.getLast? = some .closing ∨ ∀ t ∈ ts, t.isFunction = false

instance : DecidablePred TakesSign :=
  fun ts => inferInstanceAs (Decidable (ts.getLast? = some .closing ∨ ∀ t ∈ ts, t.isFunction = false))

theorem getLast?_append_enclosed (ts us : List Token) :
    (ts ++ enclosed us).getLast? = some .closing := by
  rw [enclosed, ← List.append_assoc]
  exact List.getLast?_concat

theorem append_enclosed_inj (h : ts ++ enclosed us = vs ++ enclosed us') (hts : .opening ∉ ts)
    (hus : Balanced us) (hus' : us'.count .closing = us'.count .opening) : ts = vs ∧ us = us' := by
  have h' : ts ++ .opening :: us = vs ++ .opening :: us' := by
    have hlast : (ts ++ .opening :: us) ++ [.closing] = (vs ++ .opening :: us') ++ [.closing] := by
      simpa [enclosed] using h
    exact List.append_cancel_right hlast
  rcases List.append_eq_append_iff.mp h' with ⟨as, rfl, has⟩ | ⟨bs, rfl, hbs⟩
  · cases as with
    | nil => exact ⟨(List.append_nil ts).symm, (List.cons.inj has).2⟩
    | cons a as =>
      have htail : us = as ++ .opening :: us' := (List.cons.inj has).2
      have hle := hus.count_le as ⟨_, htail.symm⟩
      have heq := hus.count_eq
      have hne : Token.opening ≠ .closing := by decide
      rw [htail, List.count_append, List.count_append, List.count_cons_of_ne hne,
        List.count_cons_self, hus'] at heq
      omega
  · cases bs with
    | nil => exact ⟨List.append_nil vs, (List.cons.inj hbs).2.symm⟩
    | cons b bs =>
      obtain ⟨rfl, -⟩ := List.cons.inj hbs
      exact absurd (List.mem_append_cons_self) hts

theorem eq_sub_of_tokens (hw : ∀ p ∈ w, p.isUnary = true)
    (h : Pending.tokens w = us ++ .operator op :: vs) : op = .sub ∧ due us = true := by
  have hmem : (due us, .operator op) ∈ places (Pending.tokens w) :=
    mem_places_iff.mpr ⟨us, vs, h, rfl⟩
  rw [places_tokens] at hmem
  obtain ⟨p, hp, he⟩ := List.mem_map.mp hmem
  obtain ⟨hd, ht⟩ := Prod.mk.inj he
  rcases Pending.eq_of_isUnary (hw p (List.mem_reverse.mp hp)) with rfl | ⟨f, rfl⟩
  · exact ⟨(Token.operator.inj ht).symm, hd.symm⟩
  · cases ht

theorem exists_append_of_tokens (hw : ∀ p ∈ w, p.isUnary = true)
    (h : us ++ .operator op :: vs = Pending.tokens w ++ ts) :
    (op = .sub ∧ due us = true) ∨ ∃ as, ts = as ++ .operator op :: vs := by
  rcases List.append_eq_append_iff.mp h with ⟨as, htokens, has⟩ | ⟨bs, -, hbs⟩
  · cases as with
    | nil => exact .inr ⟨[], has.symm⟩
    | cons a as =>
      obtain ⟨rfl, -⟩ := List.cons.inj has
      exact .inl (eq_sub_of_tokens hw htokens)
  · exact .inr ⟨bs, hbs⟩

theorem Balanced.count_ne (h : Balanced us) (hts : enclosed us = ts ++ .operator op :: vs) :
    vs.count .closing ≠ vs.count .opening := by
  have hlt := h.count_lt_of_enclosed (by simp) (by simp) hts
  have heq := (balanced_enclosed h).count_eq
  rw [hts, List.count_append, List.count_append, List.count_cons_of_ne (by simp),
    List.count_cons_of_ne (by simp)] at heq
  omega

theorem UnaryOperand.eq_sub_of_append (h : UnaryOperand (us ++ .operator op :: vs))
    (hvs : vs.count .closing = vs.count .opening) : op = .sub ∧ due us = true := by
  generalize hts : us ++ .operator op :: vs = ts at h
  cases h with
  | atom hw ht =>
    rcases exists_append_of_tokens hw hts with h | ⟨as, has⟩
    · exact h
    · have hmem : Token.operator op ∈ as ++ .operator op :: vs := List.mem_append_cons_self
      rw [← has, List.mem_singleton] at hmem
      subst hmem
      cases ht
  | group hw hus =>
    rcases exists_append_of_tokens hw hts with h | ⟨as, has⟩
    · exact h
    · exact absurd hvs (hus.count_ne has)

end Token

namespace Reads

open Token

variable {power : Associativity} {part : Part} {c : Category} {σ σ' τ : List Expr}
  {ts us : List Token} {t : Token} {v w : List Pending} {e x : Expr}

/-- Operands further down are neither seen nor changed. -/
theorem frame (h : Reads power part σ ts σ') (τ : List Expr) :
    Reads power part (σ ++ τ) ts (σ' ++ τ) := by
  induction h with
  | nil => exact .nil
  | operand _ he hn hw ih => exact .operand ih he hn hw
  | unary _ hp hd ih => exact .unary ih hp hd
  | group _ _ hd ih ihg => exact .group ih ihg hd
  | bare _ ih => exact .bare ih
  | applied _ hw ih => exact .applied ih hw
  | link _ ih => exact .link ih
  | chain _ hd _ ihl ihr => exact .chain ihl hd ihr

theorem exists_row (h : Reads power (.phrase c) σ ts (e :: τ))
    (hts : ∀ us op vs, ts = us ++ .operator op :: vs → vs.count .closing = vs.count .opening →
      op = .sub ∧ due us = true) :
    ∃ w x, Reads power (.row w) σ ts (x :: τ) ∧ e = wrap w x := by
  generalize hq : Part.phrase c = q at h
  generalize hσ : e :: τ = σ' at h
  induction h generalizing c with
  | nil | operand | unary | group => cases hq
  | bare h =>
    subst hσ
    exact ⟨[], e, h, rfl⟩
  | applied h =>
    obtain ⟨rfl, rfl⟩ := List.cons.inj hσ
    exact ⟨_, _, h, rfl⟩
  | link _ ih => exact ih hts rfl hσ
  | chain _ hd hr =>
    obtain ⟨hop, hdue⟩ := hts _ _ _ rfl hr.balanced.count_eq
    rw [hd hop] at hdue
    cases hdue

theorem of_denotes (he : t.Denotes e) (hv : ∀ p ∈ v, p = .negation)
    (hw : ∀ p ∈ w, p.isUnary = true) (hhead : w.head? ≠ some .negation) (σ : List Expr) :
    Reads power (.row w) σ (Pending.tokens (v ++ w) ++ [t]) (wrap v e :: σ) := by
  have hrow : ∀ p ∈ v ++ w, p.isUnary = true := by
    intro p hp
    rcases List.mem_append.mp hp with hp | hp
    · exact hv p hp ▸ rfl
    · exact hw p hp
  exact .operand (reads_row hrow σ) he hv hhead

theorem of_tokens (h : Reads power (.row w) σ (Pending.tokens v) σ')
    (hv : ∀ p ∈ v, p.isUnary = true) : σ' = σ ∧ Pending.tokens v = Pending.tokens w := by
  have hplaces : ∀ m ∈ places (Pending.tokens v), isSurplus m = false ∧ isMissing m = false := by
    intro m hm
    rw [places_tokens] at hm
    obtain ⟨p, hp, rfl⟩ := List.mem_map.mp hm
    rcases Pending.eq_of_isUnary (hv p (List.mem_reverse.mp hp)) with rfl | ⟨f, rfl⟩
    · exact ⟨rfl, rfl⟩
    · exact ⟨rfl, rfl⟩
  exact (h.phrased hplaces).1 (due_tokens v)

theorem of_atom (h : Reads power (.row w) σ (Pending.tokens v ++ [t]) σ')
    (hv : ∀ p ∈ v, p.isUnary = true) (ht : t.isOperand = true) :
    ∃ ns e, t.Denotes e ∧ (∀ p ∈ ns, p = .negation) ∧ w.head? ≠ some .negation ∧
      (∀ p ∈ w, p.isUnary = true) ∧ σ' = wrap ns e :: σ ∧
      Pending.tokens v = Pending.tokens (ns ++ w) := by
  generalize hts : Pending.tokens v ++ [t] = ts at h
  cases h with
  | nil => simp at hts
  | operand hr he hn hw =>
    obtain ⟨rfl, hlast⟩ := List.append_inj' hts rfl
    obtain rfl := (List.cons.inj hlast).1
    obtain ⟨rfl, htokens⟩ := hr.of_tokens hv
    exact ⟨_, _, he, hn, hw, fun p hp => hr.isUnary_of_mem p (List.mem_append_right _ hp), rfl,
      htokens⟩
  | unary hr hp =>
    obtain ⟨-, hlast⟩ := List.append_inj' hts rfl
    obtain rfl := (List.cons.inj hlast).1
    rcases Pending.eq_of_isUnary hp with rfl | ⟨f, rfl⟩
    · cases ht
    · simp [Pending.token, isOperand] at ht
  | group =>
    have hlast := congrArg List.getLast? hts
    rw [getLast?_append_enclosed, List.getLast?_concat, Option.some.injEq] at hlast
    subst hlast
    cases ht

theorem of_group (h : Reads power (.row w) σ (Pending.tokens v ++ enclosed us) σ')
    (hv : ∀ p ∈ v, p.isUnary = true) (hus : Balanced us) :
    w = [] ∧ ∃ u e τ, Reads power (.phrase .sum) σ us (e :: τ) ∧ due us = false ∧
      (∀ p ∈ u, p.isUnary = true) ∧ σ' = wrap u e :: τ ∧
      Pending.tokens v = Pending.tokens u := by
  have hopening : .opening ∉ Pending.tokens v := by
    intro hm
    obtain ⟨p, hp, he⟩ := List.mem_map.mp hm
    rcases Pending.eq_of_isUnary (hv p (List.mem_reverse.mp hp)) with rfl | ⟨f, rfl⟩ <;> cases he
  generalize hts : Pending.tokens v ++ enclosed us = ts at h
  have hlast := congrArg List.getLast? hts
  cases h with
  | nil => simp [enclosed] at hts
  | operand _ he =>
    rw [getLast?_append_enclosed, List.getLast?_concat, Option.some.injEq] at hlast
    subst hlast
    cases he
  | unary _ hp =>
    rw [getLast?_append_enclosed, List.getLast?_concat, Option.some.injEq] at hlast
    rcases Pending.eq_of_isUnary hp with rfl | ⟨f, rfl⟩ <;> cases hlast
  | group hr hg hd =>
    obtain ⟨rfl, rfl⟩ := append_enclosed_inj hts hopening hus hg.balanced.count_eq
    obtain ⟨rfl, htokens⟩ := hr.of_tokens hv
    exact ⟨rfl, _, _, _, hg, hd, hr.isUnary_of_mem, rfl, htokens⟩

end Reads

namespace Token

variable {t : Token} {w : List Pending}

theorem takesSign_tokens_concat (ht : t.isOperand = true) :
    TakesSign (Pending.tokens w ++ [t]) ↔ ∀ p ∈ w, p.token.isFunction = false := by
  have hclosing : t ≠ .closing := by
    rintro rfl
    cases ht
  have hfunction : t.isFunction = false := by
    cases t with
    | name n => simpa [isFunction, isOperand] using ht
    | number x | operator op | opening | closing => rfl
  simp [TakesSign, hclosing, hfunction, Pending.tokens, or_imp, forall_and]

/-- What a sign before the tokens of a tree comes to: it is applied to the tree, or it waits behind a
function. -/
inductive Signed (power : Associativity) (σ : List Expr) (ts : List Token) (e : Expr) : Prop
  | applied (h : TakesSign ts)
      (hr : Reads power (.row []) σ (.operator .sub :: ts) (.negate e :: σ))
  | waiting {w : List Pending} {x : Expr} (h : ¬ TakesSign ts) (hw : .negation ∈ w)
      (hr : Reads power (.row w) σ (.operator .sub :: ts) (x :: σ))

variable {power : Associativity} {us : List Token} {v : List Pending} {e x : Expr}

theorem signed_atom (h : Reads power (.row w) [] (Pending.tokens v ++ [t]) [x])
    (hv : ∀ p ∈ v, p.isUnary = true) (ht : t.isOperand = true) (σ : List Expr) :
    Signed power σ (Pending.tokens v ++ [t]) (wrap w x) := by
  obtain ⟨ns, e, he, hn, hhead, hw, hx, htokens⟩ := h.of_atom hv ht
  obtain ⟨rfl, -⟩ := List.cons.inj hx
  rw [htokens]
  cases w with
  | nil =>
    have hsigns : ∀ p ∈ ns ++ [.negation], p = .negation := by
      simpa [or_imp, forall_and] using hn
    have hr : Reads power (.row []) σ (Pending.tokens (ns ++ [.negation] ++ []) ++ [t]) _ :=
      .of_denotes he hsigns (by simp) (by simp) σ
    rw [List.append_nil, Pending.tokens_concat, wrap_append] at hr
    rw [List.append_nil]
    exact .applied ((takesSign_tokens_concat ht).mpr fun p hp => hn p hp ▸ rfl) hr
  | cons p w =>
    have hsigned : ∀ q ∈ p :: w ++ [.negation], q.isUnary = true := by
      simpa [or_imp, forall_and, Pending.isUnary] using hw
    have hr : Reads power _ σ (Pending.tokens (ns ++ (p :: w ++ [.negation])) ++ [t]) _ :=
      .of_denotes he hn hsigned hhead σ
    rw [← List.append_assoc, Pending.tokens_concat] at hr
    refine .waiting (fun hsign => ?_) (List.mem_append_right _ (List.mem_singleton_self _)) hr
    have hp := (takesSign_tokens_concat ht).mp hsign p (by simp)
    rcases Pending.eq_of_isUnary (hw p List.mem_cons_self) with rfl | ⟨f, rfl⟩
    · exact hhead rfl
    · simp [Pending.token, isFunction] at hp

theorem signed_group (h : Reads power (.row w) [] (Pending.tokens v ++ enclosed us) [x])
    (hv : ∀ p ∈ v, p.isUnary = true) (hus : Balanced us) (σ : List Expr) :
    Signed power σ (Pending.tokens v ++ enclosed us) (wrap w x) := by
  obtain ⟨rfl, u, e, τ, hg, hd, hu, hx, htokens⟩ := h.of_group hv hus
  obtain ⟨rfl, rfl⟩ := List.cons.inj hx
  have hsigned : ∀ p ∈ u ++ [.negation], p.isUnary = true := by
    simpa [or_imp, forall_and, Pending.isUnary] using hu
  have hr := Reads.group (reads_row hsigned σ) (hg.frame σ) hd
  rw [Pending.tokens_concat, wrap_append, ← htokens] at hr
  exact .applied (.inl (getLast?_append_enclosed _ _)) hr

theorem UnaryOperand.signed {ts : List Token} (h : UnaryOperand ts)
    (hr : Reads power (.phrase .sum) [] ts [e]) (σ : List Expr) : Signed power σ ts e := by
  obtain ⟨w, x, hrow, rfl⟩ := hr.exists_row fun us op vs hts => (hts ▸ h).eq_sub_of_append
  cases h with
  | atom hv ht => exact signed_atom hrow hv ht σ
  | group hv hus => exact signed_group hrow hv hus σ

end Token

namespace Draft

variable {options : Options} {w π : List Pending} {ρ : List Expr} {b : Bool}

theorem finish_of_negation_mem (hw : ∀ p ∈ w, p.isUnary = true) (h : .negation ∈ w) :
    finish ⟨ρ, w ++ π, b⟩ = .error .malformed := by
  rw [finish]
  split
  · next hr =>
    rcases exists_of_reduce_row (Nat.zero_le 4) hw hr with rfl | ⟨hn, -⟩
    · cases h
    · exact absurd rfl (hn _ h)
  · rfl

end Draft

namespace Expr

open Token

variable {options : Options} {source before : String} {σ ρ : List Expr} {π w : List Pending}
  {ts us : List Token} {t : Token} {op : Operator} {e e' l : Expr}

theorem parse_eq_of_row (hts : tokens? source = some (us ++ ts))
    (hp : Pushes options empty us ⟨σ, π, true⟩) (hπ : Below 4 π)
    (hr : Reads options.power (.row w) σ ts ρ) :
    parse options source = (finish ⟨ρ, w ++ π, due ts⟩).mapError (Fault.toError source) := by
  have hpush := pushItems_eq_ok_iff.mpr ⟨_, tokens?_eq_some_iff.mp hts, pushes_append.mpr
    ⟨_, hp, hr.taken π hπ⟩⟩
  rw [parse, ofItems, hpush]
  rfl

theorem parse_signed (hu : UnaryOperand ts) (hr : Reads options.power (.phrase .sum) [] ts [e])
    (hts : tokens? source = some (us ++ .operator .sub :: ts))
    (hp : Pushes options empty us ⟨σ, π, true⟩) (hπ : Below 4 π)
    (hf : ∀ b, finish ⟨.negate e :: σ, π, b⟩ = .ok e') :
    parse options source =
      if TakesSign ts then .ok e' else .error (.invalidExpression source) := by
  cases hu.signed hr σ with
  | applied hsign hrow =>
    rw [if_pos hsign, parse_eq_of_row hts hp hπ hrow, List.nil_append, hf]
    rfl
  | waiting hsign hmem hrow =>
    rw [if_neg hsign, parse_eq_of_row hts hp hπ hrow,
      finish_of_negation_mem hrow.isUnary_of_mem hmem]
    rfl

theorem tokens?_sub_append (hb : tokens? before = some us) (hs : tokens? source = some ts) :
    tokens? (before ++ "-" ++ source) = some (us ++ .operator .sub :: ts) := by
  have hsource : before ++ "-" ++ source = .ofList (before.toList ++ '-' :: source.toList) := by
    apply String.toList_injective
    simp
  rw [← String.ofList_toList (s := before), tokens?_ofList_eq_some_iff] at hb
  rw [← String.ofList_toList (s := source), tokens?_ofList_eq_some_iff] at hs
  have hstops : ∀ d ∈ ('-' :: source.toList).head?, stops d = true := by
    rintro d ⟨rfl⟩
    exact stops_of_symbol? (t := .operator .sub) rfl
  rw [hsource, tokens?_ofList_eq_some_iff, itemsOf_append _ hstops,
    itemsOf_symbol (t := .operator .sub) rfl, hb, hs, List.map_append]
  rfl

theorem pushes_operator (options : Options) (op : Operator) (he : t.Denotes l) :
    Pushes options empty [t, .operator op] ⟨[l], [.binary op], true⟩ := by
  have hoperand : Step options empty t ⟨[l], [], false⟩ := step_pushOperand options empty he
  have hoperator : Step options ⟨[l], [], false⟩ (.operator op) ⟨[l], [.binary op], true⟩ :=
    .operator (fun _ => rfl) rfl
  exact pushes_cons.mpr ⟨_, hoperand, pushes_cons.mpr ⟨_, hoperator, pushes_nil.mpr rfl⟩⟩

/-- A sign before a unary operand, at the start or behind an operator, is applied to the tree of the
operand exactly if the operand takes it; if a function waits before a number or a variable, the
source with the sign is no expression. -/
theorem parse_sub_append (hp : parse options source = .ok e) (hts : tokens? source = some ts)
    (hu : UnaryOperand ts) :
    (parse options ("-" ++ source) =
      if TakesSign ts then .ok (.negate e) else .error (.invalidExpression ("-" ++ source))) ∧
    ∀ before t op l, tokens? before = some [t, .operator op] → t.Denotes l →
      parse options (before ++ "-" ++ source) =
        if TakesSign ts then .ok (.binary op l (.negate e))
        else .error (.invalidExpression (before ++ "-" ++ source)) := by
  obtain ⟨ts', hts', hr⟩ := parse_eq_ok_iff_reads.mp hp
  obtain rfl := Option.some.inj (hts'.symm.trans hts)
  constructor
  · have htokens : tokens? ("" ++ "-" ++ source) = some ([] ++ .operator .sub :: ts') :=
      tokens?_sub_append (by decide +kernel) hts
    rw [String.empty_append] at htokens
    exact parse_signed hu hr htokens (pushes_nil.mpr rfl) (below_nil 4) fun _ => rfl
  · intro before t op l hb he
    have hbelow : Below 4 [.binary op] := below_cons.mpr (by cases op <;> decide)
    exact parse_signed hu hr (tokens?_sub_append hb hts) (pushes_operator options op he) hbelow
      fun _ => by cases op <;> rfl

/-- A group takes a sign through all that is before it. -/
theorem parse_sub_append_group :
    parse {} "sin -cos(x - 2)" = .ok (.call .sin (.negate (.call .cos
      (.binary .sub (.var "x") (.literal 2))))) ∧
    tokens? "sin -cos(x - 2)" = some [.name "sin", .operator .sub, .name "cos", .opening,
      .name "x", .operator .sub, .number 2, .closing] ∧
    UnaryOperand [.name "sin", .operator .sub, .name "cos", .opening, .name "x", .operator .sub,
      .number 2, .closing] ∧
    parse {} "-sin -cos(x - 2)" = .ok (.negate (.call .sin (.negate (.call .cos
      (.binary .sub (.var "x") (.literal 2)))))) ∧
    parse {} "3 ^ -sin -cos(x - 2)" = .ok (.binary .pow (.literal 3) (.negate (.call .sin
      (.negate (.call .cos (.binary .sub (.var "x") (.literal 2))))))) := by
  have hp : parse {} "sin -cos(x - 2)" = .ok (.call .sin (.negate (.call .cos
      (.binary .sub (.var "x") (.literal 2))))) := by decide +kernel
  have hts : tokens? "sin -cos(x - 2)" = some [.name "sin", .operator .sub, .name "cos", .opening,
      .name "x", .operator .sub, .number 2, .closing] := by decide +kernel
  have hu : UnaryOperand [.name "sin", .operator .sub, .name "cos", .opening, .name "x",
      .operator .sub, .number 2, .closing] :=
    @UnaryOperand.group [.function .cos, .negation, .function .sin]
      [.name "x", .operator .sub, .number 2] (by decide) (by decide +kernel)
  obtain ⟨hsign, hbehind⟩ := parse_sub_append hp hts hu
  have htakes : TakesSign [.name "sin", .operator .sub, .name "cos", .opening, .name "x",
      .operator .sub, .number 2, .closing] := .inl rfl
  rw [if_pos htakes] at hsign
  have hbefore := hbehind "3 ^ " (.number 3) .pow (.literal 3) (by decide +kernel) (.number 3)
  rw [if_pos htakes] at hbefore
  exact ⟨hp, hts, hu, hsign, hbefore⟩

/-- A function without parentheses takes no sign, neither at the start nor behind an operator. -/
theorem not_forall_parse_sub_append :
    (¬ ∀ options source ts e, parse options source = .ok e → tokens? source = some ts →
      UnaryOperand ts → parse options ("-" ++ source) = .ok (.negate e)) ∧
    ¬ ∀ options source ts e, parse options source = .ok e → tokens? source = some ts →
      UnaryOperand ts → ∀ before t op l, tokens? before = some [t, .operator op] → t.Denotes l →
        parse options (before ++ "-" ++ source) = .ok (.binary op l (.negate e)) := by
  have hp : parse {} "sin 2" = .ok (.call .sin (.literal 2)) := by decide +kernel
  have hts : tokens? "sin 2" = some [.name "sin", .number 2] := by decide +kernel
  have hu : UnaryOperand [.name "sin", .number 2] :=
    @UnaryOperand.atom [.function .sin] (.number 2) (by decide) rfl
  constructor
  · intro h
    have hsign := h {} "sin 2" _ _ hp hts hu
    have herr : parse {} ("-" ++ "sin 2") = .error (.invalidExpression "-sin 2") := by
      decide +kernel
    rw [herr] at hsign
    cases hsign
  · intro h
    have hsign := h {} "sin 2" _ _ hp hts hu "x + " (.name "x") .add (.var "x") (by decide +kernel)
      (.name (by decide +kernel))
    have herr : parse {} ("x + " ++ "-" ++ "sin 2") = .error (.invalidExpression "x + -sin 2") := by
      decide +kernel
    rw [herr] at hsign
    cases hsign

end Expr

end Reckon
