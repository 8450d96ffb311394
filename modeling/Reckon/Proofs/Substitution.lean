import Reckon.Proofs.Independence

/-! # Substitution

A store that gives each variable the value of some tree can be written into an expression: the
expression with its variables replaced by these trees evaluates alike. So an assignment that succeeds
can be written into the statement behind it, also where the two share variables or targets.
-/

namespace Reckon

namespace Expr

variable {options : Options} {s t : Store} {a e : Expr} {name : String} {value : Float}
  {σ : String → Expr}

def subst (σ : String → Expr) : Expr → Expr
  | literal x => literal x
  | var n => σ n
  | binary op l r => binary op (l.subst σ) (r.subst σ)
  | negate e => negate (e.subst σ)
  | call f e => call f (e.subst σ)

def replace (e : Expr) (name : String) (a : Expr) : Expr :=
  e.subst fun n => if n = name then a else var n

theorem eval_subst (h : ∀ n ∈ e.vars, (σ n).eval options s = t.get n) :
    (e.subst σ).eval options s = e.eval options t := by
  induction e with
  | literal x => rfl
  | var n => exact h n List.mem_cons_self
  | binary op l r ihl ihr =>
    obtain ⟨hl, hr⟩ := List.forall_mem_append.mp h
    rw [subst, eval, eval, ihl hl, ihr hr]
  | negate e ih => rw [subst, eval, eval, ih h]
  | call f e ih => rw [subst, eval, eval, ih h]

theorem eval_replace (h : a.eval options s = .ok value) (name : String) (e : Expr) :
    (e.replace name a).eval options s = e.eval options (s.set name value) := by
  apply eval_subst
  intro n _
  rw [Store.get, Store.get?_set]
  split
  · exact h
  · rfl

end Expr

namespace Session

variable {s : Session} {st : Statement} {a : Expr} {value : Float}

theorem run_of_outcome (h : s.outcome st = .ok value) : s.run st = .ok (value, s.after st) := by
  rw [after_of_ok h]
  exact run_eq_ok_iff.mpr ⟨(outcome_eq s st).symm.trans h, rfl⟩

theorem get?_after_of_ok (h : s.outcome st = .ok value) (name : String) :
    (s.after st).store.get? name = if name = st.target then some value else s.store.get? name := by
  rw [after_of_ok h, Store.get?_set]

/-- Behind an assignment that succeeds an expression has the value, or the error, that it has with the
variable replaced. A statement then does the same as the one with the variable replaced does by
itself, except that this leaves the variable as it was. -/
theorem outcome_replace (h : a.eval s.options s.store = .ok value) (name : String) (e : Expr) :
    (e.replace name a).eval s.options s.store = e.eval s.options (s.store.set name value) ∧
    s.run ⟨name, a⟩ = .ok (value, s.after ⟨name, a⟩) ∧
    ∀ target, (s.after ⟨name, a⟩).outcome ⟨target, e⟩ = s.outcome ⟨target, e.replace name a⟩ ∧
      ∀ result, s.outcome ⟨target, e.replace name a⟩ = .ok result →
        ((s.after ⟨name, a⟩).after ⟨target, e⟩).store.get? target = some result ∧
        ∀ other, other = target ∨ other ≠ name →
          ((s.after ⟨name, a⟩).after ⟨target, e⟩).store.get? other =
            (s.after ⟨target, e.replace name a⟩).store.get? other := by
  have heval := Expr.eval_replace h name e
  have hfirst : s.outcome ⟨name, a⟩ = .ok value := (outcome_eq s _).trans h
  refine ⟨heval, run_of_outcome hfirst, fun target => ?_⟩
  have hsecond : (s.after ⟨name, a⟩).outcome ⟨target, e⟩ = s.outcome ⟨target, e.replace name a⟩ := by
    rw [after_of_ok hfirst, outcome_eq, outcome_eq, heval]
  refine ⟨hsecond, fun result hresult => ?_⟩
  have hboth := hsecond.trans hresult
  refine ⟨by rw [get?_after_of_ok hboth, if_pos rfl], fun other hother => ?_⟩
  rw [get?_after_of_ok hboth, get?_after_of_ok hresult, get?_after_of_ok hfirst]
  split
  · rfl
  · next ho => rw [if_neg (hother.resolve_left ho)]

/-- The variable is its own target and occurs in both trees. -/
theorem outcome_replace_self :
    (Expr.binary .add (.var "x") (.var "y")).eval {} (.ofBindings [("x", 3), ("y", 2)]) = .ok 5 ∧
    (Expr.binary .mul (.var "x") (.var "y")).replace "x" (.binary .add (.var "x") (.var "y")) =
      .binary .mul (.binary .add (.var "x") (.var "y")) (.var "y") ∧
    ((start {} [("x", 3), ("y", 2)]).after ⟨"x", .binary .add (.var "x") (.var "y")⟩).outcome
      ⟨"x", .binary .mul (.var "x") (.var "y")⟩ = .ok 10 := by
  have h : (Expr.binary .add (.var "x") (.var "y")).eval (start {} [("x", 3), ("y", 2)]).options
      (start {} [("x", 3), ("y", 2)]).store = .ok 5 := by decide +kernel
  obtain ⟨-, -, hbehind⟩ := outcome_replace h "x" (.binary .mul (.var "x") (.var "y"))
  refine ⟨h, by decide +kernel, ?_⟩
  rw [(hbehind "x").1]
  decide +kernel

end Session

end Reckon
