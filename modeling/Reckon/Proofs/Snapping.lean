import Reckon.Proofs.Binary64
import Reckon.Proofs.Unbound

/-! # Snapped results

The results of the trigonometric functions are snapped at a quarter turn and its negation, and nowhere
else. So an expression has the same value with and without snapping unless a call comes upon one of
these two arguments, and it fails alike in any case. How powers group does not matter to its value.
-/

namespace Reckon

open Binary64

namespace Function

variable {f : Function} {x : Float}

def isTrigonometric : Function → Bool
  | sin | cos | tan => true
  | log | ln | sqrt => false

def Snaps (f : Function) (x : Float) : Prop :=
  f.isTrigonometric = true ∧ (x = quarterTurn ∨ x = -quarterTurn)

instance (f : Function) (x : Float) : Decidable (f.Snaps x) :=
  inferInstanceAs (Decidable (_ ∧ _))

theorem abs_beq_quarterTurn_iff :
    (x.abs == quarterTurn) = true ↔ x = quarterTurn ∨ x = -quarterTurn := by
  constructor
  · intro h
    have hword : ofWord (word x) = quarterTurn := by
      rw [← abs_eq_ofWord]
      exact eq_of_beq h (by decide)
    cases hn : isNegative x with
    | false => exact .inl ((ofWord_word hn).symm.trans hword)
    | true => exact .inr (by rw [← neg_ofWord_word hn, hword])
  · rintro (rfl | rfl) <;> decide +kernel

theorem snapped?_eq_none_iff : f.snapped? x = none ↔ ¬ f.Snaps x := by
  rw [Snaps, ← abs_beq_quarterTurn_iff]
  unfold snapped?
  cases f <;> simp [isTrigonometric]

theorem apply_of_not_snaps (h : ¬ f.Snaps x) (snap : Bool) : f.apply snap x = f.compute x := by
  cases snap with
  | false => rfl
  | true => rw [apply, if_pos rfl, snapped?_eq_none_iff.mpr h, Option.getD_none]

end Function

namespace Expr

variable {options : Options} {s : Store} {e : Expr}

/-- The calls that an evaluation makes one after another, each with the argument that it receives. -/
def calls (options : Options) (s : Store) : Expr → List (Function × Float)
  | literal _ | var _ => []
  | binary _ l r =>
    match l.eval options s with
    | .error _ => l.calls options s
    | .ok _ => l.calls options s ++ r.calls options s
  | negate e => e.calls options s
  | call f e =>
    match e.eval options s with
    | .error _ => e.calls options s
    | .ok x => e.calls options s ++ [(f, x)]

theorem eval_eq_error_iff_of_options (options options' : Options) {f : EvalError} :
    e.eval options s = .error f ↔ e.eval options' s = .error f :=
  eval_eq_error_iff.trans eval_eq_error_iff.symm

/-- The arguments are the same in both evaluations, so it is enough to look at one of them. -/
theorem eval_eq_of_not_snaps
    (h : ∀ c ∈ e.calls { options with snapTrig := false } s, ¬ c.1.Snaps c.2) :
    e.eval { options with snapTrig := true } s = e.eval { options with snapTrig := false } s := by
  induction e with
  | literal x => rfl
  | var name => rfl
  | binary op l r ihl ihr =>
    rw [calls] at h
    rw [eval, eval]
    cases hl : l.eval { options with snapTrig := false } s with
    | error f =>
      rw [hl] at h
      rw [ihl h, hl]
      rfl
    | ok x =>
      rw [hl] at h
      obtain ⟨hcl, hcr⟩ := List.forall_mem_append.mp h
      rw [ihl hcl, hl, ihr hcr]
  | negate e ih => rw [eval, eval, ih h]
  | call f e ih =>
    rw [calls] at h
    rw [eval, eval]
    cases he : e.eval { options with snapTrig := false } s with
    | error f =>
      rw [he] at h
      rw [ih h, he]
      rfl
    | ok x =>
      rw [he] at h
      obtain ⟨hcalls, hcall⟩ := List.forall_mem_append.mp h
      have hx : ¬ f.Snaps x := hcall _ (List.mem_singleton_self (f, x))
      have happly := (Function.apply_of_not_snaps hx true).trans
        (Function.apply_of_not_snaps hx false).symm
      rw [ih hcalls, he]
      exact congrArg Except.ok happly

theorem eval_power (power : Associativity) (options : Options) (s : Store) (e : Expr) :
    e.eval { options with power } s = e.eval options s := by
  induction e with
  | literal x => rfl
  | var name => rfl
  | binary op l r ihl ihr => rw [eval, eval, ihl, ihr]
  | negate e ih => rw [eval, eval, ih]
  | call f e ih => rw [eval, eval, ih]

/-- Snapping does not change whether and how an expression fails, and it changes the value only if a
trigonometric function is called at plus or minus a quarter turn in the evaluation without it. The
grouping of powers changes neither. -/
theorem eval_snapTrig (options : Options) (s : Store) (e : Expr) :
    (∀ f, e.eval { options with snapTrig := true } s = .error f ↔
      e.eval { options with snapTrig := false } s = .error f) ∧
    ((∀ c ∈ e.calls { options with snapTrig := false } s, ¬ c.1.Snaps c.2) →
      e.eval { options with snapTrig := true } s = e.eval { options with snapTrig := false } s) ∧
    ∀ power, e.eval { options with power } s = e.eval options s :=
  ⟨fun _ => eval_eq_error_iff_of_options _ _, eval_eq_of_not_snaps,
    fun power => eval_power power options s e⟩

/-- The tangent of the root of a variable and the root of a quarter turn. -/
theorem eval_snapTrig_root :
    (binary .add (call .tan (call .sqrt (var "x")))
      (call .sqrt (literal Function.quarterTurn))).calls { snapTrig := false }
        (.ofBindings [("x", 4)]) = [(.sqrt, 4), (.tan, 2), (.sqrt, Function.quarterTurn)] ∧
    (∀ c ∈ [(Function.sqrt, 4), (Function.tan, 2), (Function.sqrt, Function.quarterTurn)],
      ¬ Function.Snaps c.1 c.2) ∧
    (binary .add (call .tan (call .sqrt (var "x")))
      (call .sqrt (literal Function.quarterTurn))).eval {} (.ofBindings [("x", 4)]) =
    (binary .add (call .tan (call .sqrt (var "x")))
      (call .sqrt (literal Function.quarterTurn))).eval { snapTrig := false }
        (.ofBindings [("x", 4)]) := by
  have hcalls : (binary .add (call .tan (call .sqrt (var "x")))
      (call .sqrt (literal Function.quarterTurn))).calls { snapTrig := false }
        (.ofBindings [("x", 4)]) =
      [(.sqrt, 4), (.tan, 2), (.sqrt, Function.quarterTurn)] := by decide +kernel
  have hnot : ∀ c ∈ [(Function.sqrt, 4), (Function.tan, 2), (Function.sqrt, Function.quarterTurn)],
      ¬ Function.Snaps c.1 c.2 := by decide +kernel
  exact ⟨hcalls, hnot, (eval_snapTrig {} (.ofBindings [("x", 4)]) _).2.1 (hcalls ▸ hnot)⟩

end Expr

end Reckon
