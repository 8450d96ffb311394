import Reckon.Proofs.Draft.Conservation
import Reckon.Proofs.Evaluation

/-! # Unbound variables

An expression has a value exactly if all its variables are bound, and otherwise fails on the first one
from the left that is not. Parsing leaves the operands in the order of the source, so this is also the
first unbound variable of the source.
-/

namespace Reckon

namespace Store

variable {s : Store} {names us vs : List String} {name : String}

/-- The name is the first of the names that the store does not bind. -/
def FirstUnbound (s : Store) (names : List String) (name : String) : Prop :=
  ∃ us vs, names = us ++ name :: vs ∧ (∀ n ∈ us, s.contains n = true) ∧ s.contains name = false

theorem firstUnbound_iff_find? :
    s.FirstUnbound names name ↔ names.find? (fun n => !s.contains n) = some name := by
  rw [List.find?_eq_some_iff_append]
  constructor
  · rintro ⟨us, vs, rfl, hus, hname⟩
    exact ⟨by simp [hname], us, vs, rfl, by simpa using hus⟩
  · rintro ⟨hname, us, vs, rfl, hus⟩
    exact ⟨us, vs, rfl, by simpa using hus, by simpa using hname⟩

theorem firstUnbound_append_iff : s.FirstUnbound (us ++ vs) name ↔
    s.FirstUnbound us name ∨ (∀ n ∈ us, s.contains n = true) ∧ s.FirstUnbound vs name := by
  simp only [firstUnbound_iff_find?, List.find?_append, Option.or_eq_some_iff, List.find?_eq_none,
    Bool.not_eq_true', Bool.not_eq_false]

theorem FirstUnbound.of_singleton {n : String} (h : s.FirstUnbound [n] name) :
    n = name ∧ s.contains n = false := by
  obtain ⟨us, vs, hn, -, hname⟩ := h
  obtain ⟨-, rfl, -⟩ : us = [] ∧ name = n ∧ vs = [] := by
    simpa [List.singleton_eq_append_iff] using hn
  exact ⟨rfl, hname⟩

theorem forall_contains_or_firstUnbound (s : Store) (names : List String) :
    (∀ n ∈ names, s.contains n = true) ∨ ∃ name, s.FirstUnbound names name := by
  simp only [firstUnbound_iff_find?]
  cases h : names.find? fun n => !s.contains n with
  | none => exact .inl (by simpa using h)
  | some name => exact .inr ⟨name, rfl⟩

end Store

namespace Token

def vars (ts : List Token) : List String :=
  (ts.filter isOperand).filterMap fun
    | name n => some n
    | number _ | operator _ | opening | closing => none

end Token

namespace Expr

open Token

variable {options : Options} {s : Store} {e : Expr} {n : String} {source : String}

theorem exists_eval_eq_ok (options : Options) (h : ∀ n ∈ e.vars, s.contains n = true) :
    ∃ x, e.eval options s = .ok x := by
  induction e with
  | literal x => exact ⟨x, rfl⟩
  | var n => exact Store.contains_iff.mp (h n List.mem_cons_self)
  | binary op l r ihl ihr =>
    obtain ⟨hl, hr⟩ := List.forall_mem_append.mp h
    obtain ⟨x, hx⟩ := ihl hl
    obtain ⟨y, hy⟩ := ihr hr
    exact ⟨op.apply x y, by simp [eval, hx, hy, bind, Except.bind, pure, Except.pure]⟩
  | negate e ih =>
    obtain ⟨x, hx⟩ := ih h
    exact ⟨-x, by simp [eval, hx, bind, Except.bind, pure, Except.pure]⟩
  | call f e ih =>
    obtain ⟨x, hx⟩ := ih h
    exact ⟨f.apply options.snapTrig x, by simp [eval, hx, bind, Except.bind, pure, Except.pure]⟩

/-- The operand on the left is evaluated first, so that the one on the right fails only if the other
has a value. -/
theorem eval_eq_error (options : Options) (h : s.FirstUnbound e.vars n) :
    e.eval options s = .error (.unknownVariable n) := by
  induction e with
  | literal x =>
    obtain ⟨us, vs, hn, -⟩ := h
    exact absurd hn.symm (List.append_ne_nil_of_right_ne_nil us (List.cons_ne_nil n vs))
  | var m =>
    obtain ⟨rfl, hm⟩ := h.of_singleton
    rw [eval, Store.get_eq_error_iff]
    exact ⟨rfl, by simpa [Store.contains] using hm⟩
  | binary op l r ihl ihr =>
    rcases Store.firstUnbound_append_iff.mp h with hl | ⟨hl, hr⟩
    · rw [eval, ihl hl]
      rfl
    · obtain ⟨x, hx⟩ := exists_eval_eq_ok options hl
      rw [eval, hx, ihr hr]
      rfl
  | negate e ih =>
    rw [eval, ih h]
    rfl
  | call f e ih =>
    rw [eval, ih h]
    rfl

theorem vars_eq_of_parse (h : parse options source = .ok e) :
    ∃ ts, tokens? source = some ts ∧ e.vars = Token.vars ts := by
  have hvars (e : Expr) : e.vars = e.leaves.filterMap fun
      | .name n => some n
      | .number _ | .operator _ | .opening | .closing => none := by
    induction e <;> simp_all [vars, leaves]
  obtain ⟨ts, hts, d, hp, hd⟩ := parse_eq_ok_iff.mp h
  exact ⟨ts, hts, by rw [hvars, hp.leaves_of_finish hd, Token.vars]⟩

theorem eval_eq_error_iff {f : EvalError} :
    e.eval options s = .error f ↔ ∃ n, s.FirstUnbound e.vars n ∧ f = .unknownVariable n := by
  constructor
  · intro h
    rcases s.forall_contains_or_firstUnbound e.vars with hall | ⟨n, hn⟩
    · obtain ⟨x, hx⟩ := exists_eval_eq_ok options hall
      cases h.symm.trans hx
    · exact ⟨n, hn, Except.error.inj (h.symm.trans (eval_eq_error options hn))⟩
  · rintro ⟨n, hn, rfl⟩
    exact eval_eq_error options hn

/-- Evaluation fails exactly on the first variable of the tree that is not bound. If the tree has been
parsed this is the first one in the source. -/
theorem eval_eq_ok_or_firstUnbound (options : Options) (s : Store) (e : Expr) :
    ((∃ x, e.eval options s = .ok x) ↔ ∀ n ∈ e.vars, s.contains n = true) ∧
    (∀ f, e.eval options s = .error f ↔
      ∃ n, s.FirstUnbound e.vars n ∧ f = .unknownVariable n) ∧
    ∀ options' source, parse options' source = .ok e → ∃ ts, tokens? source = some ts ∧
      ∀ f, e.eval options s = .error f ↔
        ∃ n, s.FirstUnbound (Token.vars ts) n ∧ f = .unknownVariable n := by
  refine ⟨⟨?_, exists_eval_eq_ok options⟩, fun f => eval_eq_error_iff, ?_⟩
  · rintro ⟨x, hx⟩
    rcases s.forall_contains_or_firstUnbound e.vars with hall | ⟨n, hn⟩
    · exact hall
    · cases hx.symm.trans (eval_eq_error options hn)
  · intro options' source hp
    obtain ⟨ts, hts, hvars⟩ := vars_eq_of_parse hp
    exact ⟨ts, hts, fun f => hvars ▸ eval_eq_error_iff⟩

/-- Under either grouping of powers the variable that is read first is reported. -/
theorem eval_eq_ok_or_firstUnbound_powers :
    parse { power := .right } "a ^ sin(y) ^ -x + y" = .ok (.binary .add (.binary .pow (.var "a")
      (.binary .pow (.call .sin (.var "y")) (.negate (.var "x")))) (.var "y")) ∧
    (Expr.binary .add (.binary .pow (.var "a")
      (.binary .pow (.call .sin (.var "y")) (.negate (.var "x")))) (.var "y")).eval {}
        (.ofBindings [("a", 1)]) = .error (.unknownVariable "y") := by
  have hp : parse { power := .right } "a ^ sin(y) ^ -x + y" = .ok (.binary .add (.binary .pow
      (.var "a") (.binary .pow (.call .sin (.var "y")) (.negate (.var "x")))) (.var "y")) := by
    decide +kernel
  have htokens : (tokens? "a ^ sin(y) ^ -x + y").map Token.vars = some ["a", "y", "x", "y"] := by
    decide +kernel
  refine ⟨hp, ?_⟩
  obtain ⟨ts, hts, h⟩ :=
    (eval_eq_ok_or_firstUnbound {} (.ofBindings [("a", 1)]) _).2.2 _ _ hp
  rw [hts] at htokens
  refine (h _).mpr ⟨"y", ⟨["a"], ["x", "y"], Option.some.inj htokens, ?_, ?_⟩, rfl⟩
  · decide +kernel
  · decide +kernel

end Expr

end Reckon
