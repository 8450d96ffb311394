import Mathlib.Data.Nat.Notation
import Reckon.Proofs.Statement
import Reckon.Proofs.Store
import Reckon.Script

/-! # Runs of statements

A statement that runs binds its target to the value of its expression and changes nothing else.
Statements run one after another, each in the session that the one before it leaves behind, and the
lines of a script as long as none fails.
-/

namespace Reckon.Session

/-- All statements run in order, with these targets and values, and lead to the session `next`. -/
inductive Runs : Session → List Statement → List (String × Float) → Session → Prop
  | nil {s : Session} : Runs s [] [] s
  | cons {s mid next : Session} {st : Statement} {sts : List Statement} {value : Float}
      {results : List (String × Float)} (h : s.run st = .ok (value, mid))
      (hs : Runs mid sts results next) : Runs s (st :: sts) ((st.target, value) :: results) next

variable {s next : Session} {st : Statement} {sts : List (ℕ × Statement)} {value : Float}
  {e : EvalError} {results : List (String × Float)}

theorem run_eq_ok_iff : s.run st = .ok (value, next) ↔
    st.expr.eval s.options s.store = .ok value ∧
      next = { s with store := s.store.set st.target value } := by
  simp only [run, Statement.run]
  cases st.expr.eval s.options s.store with
  | error f => simp [bind, Except.bind]
  | ok x =>
    simp only [bind, Except.bind, pure, Except.pure, Except.ok.injEq, Prod.mk.injEq]
    constructor
    · rintro ⟨rfl, rfl⟩
      exact ⟨rfl, rfl⟩
    · rintro ⟨rfl, rfl⟩
      exact ⟨rfl, rfl⟩

theorem options_of_run (h : s.run st = .ok (value, next)) : next.options = s.options := by
  obtain ⟨-, rfl⟩ := run_eq_ok_iff.mp h
  rfl

theorem eq_of_run_lookup {name : String} (h : s.run (.lookup name) = .ok (value, next)) :
    next = s := by
  obtain ⟨he, rfl⟩ := run_eq_ok_iff.mp h
  rw [Statement.lookup, Expr.eval, Store.get_eq_ok_iff] at he
  rw [Statement.lookup, Store.set_of_get? he]

theorem runNumbered_of_error {n : ℕ} (h : s.run st = .error e) (vs : List (ℕ × Statement)) :
    s.runNumbered ((n, st) :: vs) =
      { results := [], session := s, error := some (.line n (.eval e)) } := by
  rw [runNumbered, h]
  rfl

theorem Runs.runNumbered_append (h : s.Runs (sts.map Prod.snd) results next)
    (vs : List (ℕ × Statement)) : s.runNumbered (sts ++ vs) =
      { next.runNumbered vs with results := results ++ (next.runNumbered vs).results } := by
  induction sts generalizing s results with
  | nil =>
    cases h
    rfl
  | cons p sts ih =>
    obtain ⟨n, st⟩ := p
    cases h with
    | cons hr hs =>
      rw [List.cons_append, runNumbered, hr]
      simp only [ih hs, List.cons_append]

theorem Runs.runNumbered_eq (h : s.Runs (sts.map Prod.snd) results next) :
    s.runNumbered sts = { results, session := next, error := none } := by
  have h := h.runNumbered_append []
  rwa [List.append_nil, runNumbered, List.append_nil] at h

theorem exists_runs (s : Session) (sts : List (ℕ × Statement)) : ∃ us vs results next,
    sts = us ++ vs ∧ s.Runs (us.map Prod.snd) results next ∧
      ∀ p ∈ vs.head?, ∃ e, next.run p.2 = .error e := by
  induction sts generalizing s with
  | nil => exact ⟨[], [], [], s, rfl, .nil, by simp⟩
  | cons p sts ih =>
    cases h : s.run p.2 with
    | error e => exact ⟨[], p :: sts, [], s, rfl, .nil, by simp [h]⟩
    | ok r =>
      obtain ⟨value, mid⟩ := r
      obtain ⟨us, vs, results, next, rfl, hr, hv⟩ := ih mid
      exact ⟨p :: us, vs, _, next, rfl, .cons h hr, hv⟩

theorem exists_runs_runNumbered (s : Session) (sts : List (ℕ × Statement)) : ∃ us, us <+: sts ∧
    s.Runs (us.map Prod.snd) (s.runNumbered sts).results (s.runNumbered sts).session := by
  obtain ⟨us, vs, results, next, rfl, hr, hv⟩ := exists_runs s sts
  refine ⟨us, List.prefix_append us vs, ?_⟩
  rw [hr.runNumbered_append]
  cases vs with
  | nil =>
    rw [runNumbered, List.append_nil]
    exact hr
  | cons p vs =>
    obtain ⟨e, he⟩ := hv p rfl
    rw [runNumbered_of_error he, List.append_nil]
    exact hr

theorem runLine_eq_ok_iff {line : String} {r : String × Float} : s.runLine line = .ok (r, next) ↔
    ∃ st value, Statement.parse s.options line = .ok st ∧ s.run st = .ok (value, next) ∧
      r = (st.target, value) := by
  rw [runLine]
  cases Statement.parse s.options line with
  | error e => simp
  | ok st =>
    cases h : s.run st with
    | error e => simp [h]
    | ok p =>
      obtain ⟨value, mid⟩ := p
      simp only [h, Except.ok.injEq, Prod.mk.injEq, exists_eq_left', exists_and_left]
      constructor
      · rintro ⟨rfl, rfl⟩
        exact ⟨value, ⟨rfl, rfl⟩, rfl⟩
      · rintro ⟨_, ⟨rfl, rfl⟩, rfl⟩
        exact ⟨rfl, rfl⟩

theorem runLine_eq_error_eval_iff : s.runLine line = .error (.eval e) ↔
    ∃ st, Statement.parse s.options line = .ok st ∧ s.run st = .error e := by
  rw [runLine]
  cases Statement.parse s.options line with
  | error f => simp
  | ok st =>
    cases h : s.run st with
    | error f => simp [h]
    | ok p => simp [h]

theorem runLine_trim (s : Session) (line : String) : s.runLine (Text.trim line) = s.runLine line := by
  rw [runLine, Statement.parse_trim, runLine]

end Reckon.Session
