import Reckon.Expr.Evaluation
import Reckon.Proofs.Store

/-! # Evaluation depends on variables

An expression has the same value, or the same error, in all stores that agree on its variables.
-/

namespace Reckon.Expr

variable {s t : Store} {e : Expr} {name : String}

def vars : Expr → List String
  | literal _ => []
  | var name => [name]
  | binary _ l r => l.vars ++ r.vars
  | negate e | call _ e => e.vars

theorem eval_congr (options : Options) (h : ∀ name ∈ e.vars, s.get? name = t.get? name) :
    e.eval options s = e.eval options t := by
  induction e with
  | literal x => rfl
  | var name =>
    rw [eval, eval, Store.get, Store.get, h name List.mem_cons_self]
  | binary op l r ihl ihr =>
    obtain ⟨hl, hr⟩ := List.forall_mem_append.mp h
    rw [eval, eval, ihl hl, ihr hr]
  | negate e ih => rw [eval, eval, ih h]
  | call f e ih => rw [eval, eval, ih h]

theorem eval_set_of_not_mem (options : Options) (h : name ∉ e.vars) (s : Store)
    (value : Float) : e.eval options (s.set name value) = e.eval options s := by
  apply eval_congr
  intro other ho
  have hne : other ≠ name := by
    rintro rfl
    exact h ho
  rw [Store.get?_set, if_neg hne]

end Reckon.Expr
