import Mathlib.Data.List.TakeWhile
import Reckon.Expr.Parser
import Reckon.Proofs.Token.Place

/-! # Steps of a draft

A token that a draft takes does one of five things: it stands as an operand, it waits as a unary
entry, it opens or closes a parenthesis, or it waits as an operator after what binds tighter has
been built. A source is parsed if its tokens take the empty draft to one that can be finished.
-/

namespace Reckon

def Expr.under (e : Expr) : Pending → Expr
  | .negation => .negate e
  | .function f => .call f e
  | .binary _ | .opening => e

/-- The tree with unary entries applied to it, that at the head first. -/
def Expr.wrap (w : List Pending) (e : Expr) : Expr :=
  w.foldl Expr.under e

@[simp] theorem Expr.wrap_cons (p : Pending) (w : List Pending) (e : Expr) :
    wrap (p :: w) e = wrap w (e.under p) := rfl

theorem Expr.wrap_append (ns w : List Pending) (e : Expr) :
    wrap (ns ++ w) e = wrap w (wrap ns e) :=
  List.foldl_append

namespace Draft

open Reckon.Expr

variable {options : Options} {d d' : Draft} {e : Expr} {t : Token} {ts us : List Token}
  {p : Pending} {σ : List Expr} {π w ns : List Pending} {k : ℕ}

theorem tier_le_four (options : Options) (op : Operator) : tier options op ≤ 4 := by
  unfold tier
  split <;> cases op <;> decide

/-- Whether the entry at the head, if there is one, is of lower precedence than `k`. -/
def Below (k : ℕ) (π : List Pending) : Prop :=
  ∀ p ∈ π.head?, p.precedence < k

theorem below_nil (k : ℕ) : Below k [] := by simp [Below]

@[simp] theorem below_cons : Below k (p :: π) ↔ p.precedence < k := by simp [Below]

theorem below_four_iff : Below 4 π ↔ ∀ p ∈ π.head?, p.isUnary = false := by
  cases π with
  | nil => simp [Below]
  | cons p π => cases p with
    | binary op => cases op <;> simp [Pending.precedence, Operator.precedence, Pending.isUnary]
    | negation | function f | opening => simp [Pending.precedence, Pending.isUnary]

theorem Below.head?_append_ne_negation (h : Below 4 π) (hw : w.head? ≠ some .negation) :
    (w ++ π).head? ≠ some .negation := by
  cases w with
  | nil => exact fun he => by simpa [Pending.isUnary] using below_four_iff.mp h _ he
  | cons p w => exact hw

theorem applyNegations_append (hn : ∀ p ∈ ns, p = .negation) (hw : w.head? ≠ some .negation) :
    applyNegations e (ns ++ w) = (wrap ns e, w) := by
  induction ns generalizing e with
  | nil =>
    cases w with
    | nil => rfl
    | cons p w => cases p <;> simp_all [applyNegations, wrap]
  | cons p ns ih =>
    obtain ⟨rfl, hns⟩ := List.forall_mem_cons.mp hn
    exact ih hns

theorem exists_negations (π : List Pending) : ∃ ns w, π = ns ++ w ∧
    (∀ p ∈ ns, p = .negation) ∧ w.head? ≠ some .negation := by
  refine ⟨π.takeWhile (· = .negation), π.dropWhile (· = .negation),
    List.takeWhile_append_dropWhile.symm, ?_, ?_⟩
  · intro p hp
    simpa using List.mem_takeWhile_imp hp
  · intro h
    simpa [h] using List.head?_dropWhile_not (· = .negation) π

theorem applyUnary_append (hw : ∀ p ∈ w, p.isUnary = true) (hπ : Below 4 π) :
    applyUnary e (w ++ π) = (wrap w e, π) := by
  induction w generalizing e with
  | nil =>
    rw [below_four_iff] at hπ
    cases π with
    | nil => rfl
    | cons p π => cases p <;> simp_all [applyUnary, wrap, Pending.isUnary]
  | cons p w ih =>
    obtain ⟨hp, hw'⟩ := List.forall_mem_cons.mp hw
    rcases Pending.eq_of_isUnary hp with rfl | ⟨f, rfl⟩ <;> exact ih hw'

theorem exists_unary (π : List Pending) : ∃ w π', π = w ++ π' ∧
    (∀ p ∈ w, p.isUnary = true) ∧ Below 4 π' := by
  refine ⟨π.takeWhile Pending.isUnary, π.dropWhile Pending.isUnary,
    List.takeWhile_append_dropWhile.symm, fun _ => List.mem_takeWhile_imp, ?_⟩
  rw [below_four_iff]
  intro p hp
  have h := List.head?_dropWhile_not Pending.isUnary π
  rw [Option.mem_def.mp hp] at h
  simpa using h

/-- What a token does to a draft that takes it. -/
inductive Step (options : Options) : Draft → Token → Draft → Prop
  | operand {t e ns π σ b} (he : t.Denotes e) (hn : ∀ p ∈ ns, p = .negation)
      (hπ : π.head? ≠ some .negation) :
      Step options ⟨σ, ns ++ π, b⟩ t ⟨wrap ns e :: σ, π, false⟩
  | unary {p π σ b} (hp : p.isUnary = true) (hb : p = .negation → b = true) :
      Step options ⟨σ, π, b⟩ p.token ⟨σ, p :: π, true⟩
  | opening {π σ b} : Step options ⟨σ, π, b⟩ .opening ⟨σ, .opening :: π, true⟩
  | operator {op π π' σ σ' b} (hb : op = .sub → b = false)
      (hr : reduce (tier options op) σ π = .ok (σ', π')) :
      Step options ⟨σ, π, b⟩ (.operator op) ⟨σ', .binary op :: π', true⟩
  | closing {e w π π' σ σ'} (hr : reduce 1 σ π = .ok (e :: σ', .opening :: (w ++ π')))
      (hw : ∀ p ∈ w, p.isUnary = true) (hπ : Below 4 π') :
      Step options ⟨σ, π, false⟩ .closing ⟨wrap w e :: σ', π', false⟩

theorem step_pushOperand (options : Options) (d : Draft) (h : t.Denotes e) :
    Step options d t (d.pushOperand e) := by
  obtain ⟨σ, π, b⟩ := d
  obtain ⟨ns, w, rfl, hn, hw⟩ := exists_negations π
  rw [pushOperand, applyNegations_append hn hw]
  exact .operand h hn hw

theorem step_of_pushOperator {op : Operator} (h : d.pushOperator options op = .ok d') :
    Step options d (.operator op) d' := by
  obtain ⟨σ, π, b⟩ := d
  rw [pushOperator] at h
  split at h
  · next hs =>
    obtain ⟨rfl, hb⟩ := hs
    obtain rfl := Except.ok.inj h
    exact .unary (p := .negation) rfl fun _ => hb
  · next hs =>
    cases hr : reduce (tier options op) σ π with
    | error f => simp [hr, bind, Except.bind] at h
    | ok r =>
      simp only [hr, bind, Except.bind, pure, Except.pure, Except.ok.injEq] at h
      subst h
      exact .operator (by simpa using hs) hr

theorem step_of_close (h : d.close = .ok d') : Step options d .closing d' := by
  obtain ⟨σ, π, b⟩ := d
  cases b with
  | true => simp [close] at h
  | false =>
    cases hr : reduce 1 σ π with
    | error f => simp [close, hr, bind, Except.bind] at h
    | ok r =>
      simp only [close, hr, bind, Except.bind, Bool.false_eq_true, ↓reduceIte] at h
      split at h
      · next e σ' π' =>
        obtain ⟨w, π', rfl, hw, hπ⟩ := exists_unary π'
        rw [applyUnary_append hw hπ] at h
        obtain rfl := Except.ok.inj h
        exact .closing hr hw hπ
      · simp at h
      · simp at h

theorem pushToken_eq_ok_iff : d.pushToken options t = .ok d' ↔ Step options d t d' := by
  constructor
  · intro h
    cases t with
    | number x =>
      obtain rfl := Except.ok.inj h
      exact step_pushOperand options d (.number x)
    | name n =>
      cases hf : Function.ofName? n with
      | none =>
        simp only [pushToken, hf, Except.ok.injEq] at h
        exact h ▸ step_pushOperand options d (.name hf)
      | some f =>
        simp only [pushToken, hf, Except.ok.injEq] at h
        obtain rfl := (Function.ofName?_eq_some_iff n f).mp hf
        exact h ▸ .unary (p := .function f) rfl (by simp)
    | operator op => exact step_of_pushOperator h
    | opening =>
      obtain rfl := Except.ok.inj h
      exact .opening
    | closing => exact step_of_close h
  · intro h
    cases h with
    | @operand t e ns π σ b he hn hπ =>
      have ho : (⟨σ, ns ++ π, b⟩ : Draft).pushOperand e = ⟨wrap ns e :: σ, π, false⟩ := by
        rw [pushOperand, applyNegations_append hn hπ]
      cases he with
      | number x => exact congrArg Except.ok ho
      | name hf => simp only [pushToken, hf, ho]
    | @unary p π σ b hp hb =>
      rcases Pending.eq_of_isUnary hp with rfl | ⟨f, rfl⟩
      · simp [pushToken, Pending.token, pushOperator, pushPending, hb rfl]
      · simp [pushToken, Pending.token, pushPending]
    | opening => rfl
    | @operator op π π' σ σ' b hb hr =>
      have hs : ¬ (op = .sub ∧ b = true) := by
        rintro ⟨ho, rfl⟩
        exact absurd (hb ho) (by simp)
      simp [pushToken, pushOperator, hs, hr, bind, Except.bind, pure, Except.pure]
    | closing hr hw hπ =>
      simp [pushToken, close, hr, bind, Except.bind, pure, Except.pure, applyUnary_append hw hπ]

variable {σ' : List Expr} {π' : List Pending} {x : List Expr × List Pending}

theorem Below.mono {m : ℕ} (h : Below k π) (hk : k ≤ m) : Below m π :=
  fun p hp => (h p hp).trans_le hk

theorem reduce_of_below (h : Below k π) : reduce k σ π = .ok (σ, π) := by
  cases π with
  | nil => rfl
  | cons p π => rw [reduce, if_pos (below_cons.mp h)]

theorem reduce_of_build {τ : List Expr} (hk : k ≤ p.precedence) (hb : build p σ = .ok τ) :
    reduce k σ (p :: π) = reduce k τ π := by
  rw [reduce, if_neg (not_lt.mpr hk), hb]
  rfl

theorem exists_build_of_reduce (hk : k ≤ p.precedence) (h : reduce k σ (p :: π) = .ok x) :
    ∃ τ, build p σ = .ok τ ∧ reduce k τ π = .ok x := by
  rw [reduce, if_neg (not_lt.mpr hk)] at h
  cases hb : build p σ with
  | error f => simp [hb, bind, Except.bind] at h
  | ok τ => exact ⟨τ, rfl, by simpa [hb, bind, Except.bind] using h⟩

/-- Reducing builds entries one by one, and leaves none at the head that it should build. -/
theorem reduce_preserves {P : List Expr → List Pending → Prop}
    (hP : ∀ p σ τ π, build p σ = .ok τ → P σ (p :: π) → P τ π)
    (h : reduce k σ π = .ok (σ', π')) (h₀ : P σ π) : P σ' π' ∧ Below k π' := by
  induction π generalizing σ with
  | nil =>
    obtain ⟨rfl, rfl⟩ := Prod.mk.inj (Except.ok.inj h)
    exact ⟨h₀, below_nil k⟩
  | cons p π ih =>
    by_cases hp : p.precedence < k
    · rw [reduce_of_below (below_cons.mpr hp)] at h
      obtain ⟨rfl, rfl⟩ := Prod.mk.inj (Except.ok.inj h)
      exact ⟨h₀, below_cons.mpr hp⟩
    · obtain ⟨τ, hb, hr⟩ := exists_build_of_reduce (not_lt.mp hp) h
      exact ih hr (hP p σ τ π hb h₀)

theorem reduce_zero (h : reduce 0 σ π = .ok (σ', π')) : π' = [] := by
  obtain ⟨-, hb⟩ := reduce_preserves (P := fun _ _ => True) (fun _ _ _ _ _ => id) h trivial
  cases π' with
  | nil => rfl
  | cons p π' => exact absurd (below_cons.mp hb) (Nat.not_lt_zero _)

theorem finish_eq_ok_iff :
    d.finish = .ok e ↔ reduce 0 d.operands d.pending = .ok ([e], []) := by
  constructor
  · intro h
    rw [finish] at h
    split at h
    · next e' π' hr =>
      obtain rfl := Except.ok.inj h
      rw [hr, reduce_zero hr]
    · simp at h
  · intro h
    rw [finish, h]

def Pushes (options : Options) (d : Draft) (ts : List Token) (d' : Draft) : Prop :=
  ts.foldlM (pushToken options) d = .ok d'

theorem pushes_nil : Pushes options d [] d' ↔ d = d' := by
  simp [Pushes, pure, Except.pure]

theorem pushes_cons :
    Pushes options d (t :: ts) d' ↔ ∃ c, Step options d t c ∧ Pushes options c ts d' := by
  simp only [Pushes, List.foldlM_cons, ← pushToken_eq_ok_iff]
  cases d.pushToken options t <;> simp [bind, Except.bind]

theorem pushes_append :
    Pushes options d (ts ++ us) d' ↔ ∃ c, Pushes options d ts c ∧ Pushes options c us d' := by
  induction ts generalizing d with
  | nil => simp [pushes_nil]
  | cons t ts ih => grind [pushes_cons]

theorem pushes_concat :
    Pushes options d (ts ++ [t]) d' ↔ ∃ c, Pushes options d ts c ∧ Step options c t d' := by
  simp [pushes_append, pushes_cons, pushes_nil]

theorem pushItems_eq_ok_iff {items : List Item} : d.pushItems options items = .ok d' ↔
    ∃ ts, items = ts.map Item.token ∧ Pushes options d ts d' := by
  induction items generalizing d with
  | nil => simp [pushItems, Pushes]
  | cons i items ih =>
    cases i with
    | token t =>
      simp only [pushItems, List.foldlM_cons, pushItem] at ih ⊢
      constructor
      · intro h
        cases hc : d.pushToken options t with
        | error f => simp [hc, bind, Except.bind] at h
        | ok c =>
          obtain ⟨ts, rfl, hp⟩ := ih.mp (by simpa [hc, bind, Except.bind] using h)
          exact ⟨t :: ts, rfl, pushes_cons.mpr ⟨c, pushToken_eq_ok_iff.mp hc, hp⟩⟩
      · rintro ⟨ts, hts, hp⟩
        cases ts with
        | nil => simp at hts
        | cons u us =>
          simp only [List.map_cons, List.cons.injEq, Item.token.injEq] at hts
          obtain ⟨rfl, hts⟩ := hts
          obtain ⟨c, hc, hp⟩ := pushes_cons.mp hp
          rw [pushToken_eq_ok_iff.mpr hc]
          exact ih.mpr ⟨us, hts, hp⟩
    | rejected c =>
      simp only [pushItems, List.foldlM_cons, pushItem, bind, Except.bind, reduceCtorEq, false_iff]
      rintro ⟨ts, hts, -⟩
      cases ts <;> simp at hts

end Draft

namespace Expr

open Draft

theorem parse_eq_ok_iff {options : Options} {source : String} {e : Expr} :
    parse options source = .ok e ↔ ∃ ts, Token.tokens? source = some ts ∧
      ∃ d, Pushes options Draft.empty ts d ∧ d.finish = .ok e := by
  have hm : parse options source = .ok e ↔ ofItems options (Token.items source) = .ok e := by
    cases h : ofItems options (Token.items source) <;> simp [parse, h, Except.mapError]
  simp only [hm, ofItems, Token.tokens?_eq_some_iff]
  constructor
  · intro h
    cases hp : Draft.empty.pushItems options (Token.items source) with
    | error f => simp [hp, bind, Except.bind] at h
    | ok d =>
      obtain ⟨ts, hts, hp'⟩ := pushItems_eq_ok_iff.mp hp
      exact ⟨ts, hts, d, hp', by simpa [hp, bind, Except.bind] using h⟩
  · rintro ⟨ts, hts, d, hp, hd⟩
    rw [pushItems_eq_ok_iff.mpr ⟨ts, hts, hp⟩]
    exact hd

end Expr

end Reckon
