import Mathlib.Data.List.Pairwise
import Mathlib.Data.List.Perm.Basic
import Reckon.Proofs.Evaluation
import Reckon.Proofs.Session

/-! # Independent statements

Statements are independent when they have different targets and neither has the target of the other
among its variables. Neither then changes what the other does, so independent statements can run in
any order, and each does what it would do by itself.
-/

namespace Reckon

/-- Neither statement writes what the other reads or writes. -/
structure Statement.Independent (a b : Statement) : Prop where
  target_ne : a.target ≠ b.target
  not_read_right : a.target ∉ b.expr.vars
  not_read_left : b.target ∉ a.expr.vars

namespace Statement

variable {a b : Statement}

theorem independent_iff : a.Independent b ↔
    a.target ≠ b.target ∧ a.target ∉ b.expr.vars ∧ b.target ∉ a.expr.vars :=
  ⟨fun ⟨h, hr, hl⟩ => ⟨h, hr, hl⟩, fun ⟨h, hr, hl⟩ => ⟨h, hr, hl⟩⟩

instance (a b : Statement) : Decidable (a.Independent b) :=
  decidable_of_iff _ independent_iff.symm

theorem Independent.symm (h : a.Independent b) : b.Independent a :=
  ⟨h.target_ne.symm, h.not_read_left, h.not_read_right⟩

end Statement

namespace Session

variable {s : Session} {a b st : Statement} {sts sts' : List Statement}

def outcome (s : Session) (st : Statement) : Except EvalError Float :=
  (s.run st).map Prod.fst

/-- The session behind a statement, also if it fails. -/
def after (s : Session) (st : Statement) : Session :=
  match s.run st with
  | .error _ => s
  | .ok (_, next) => next

/-- Runs statements one after another, goes on behind those that fail, and gives each with its
outcome. -/
def runEach (s : Session) : List Statement → List (Statement × Except EvalError Float) × Session
  | [] => ([], s)
  | st :: sts =>
    let (outcomes, last) := (s.after st).runEach sts
    ((st, s.outcome st) :: outcomes, last)

theorem outcome_eq (s : Session) (st : Statement) :
    s.outcome st = st.expr.eval s.options s.store := by
  unfold outcome run Statement.run
  cases st.expr.eval s.options s.store <;> rfl

theorem after_of_error {e : EvalError} (h : s.outcome st = .error e) : s.after st = s := by
  rw [outcome_eq] at h
  unfold after run Statement.run
  rw [h]
  rfl

theorem after_of_ok {value : Float} (h : s.outcome st = .ok value) :
    s.after st = { s with store := s.store.set st.target value } := by
  rw [outcome_eq] at h
  unfold after run Statement.run
  rw [h]
  rfl

theorem outcome_after_of_not_mem (h : a.target ∉ b.expr.vars) (s : Session) :
    (s.after a).outcome b = s.outcome b := by
  cases ha : s.outcome a with
  | error e => rw [after_of_error ha]
  | ok value =>
    rw [after_of_ok ha, outcome_eq, outcome_eq]
    exact Expr.eval_set_of_not_mem s.options h s.store value

theorem after_comm (h : a.Independent b) (s : Session) :
    (s.after a).after b = (s.after b).after a := by
  have hb := outcome_after_of_not_mem h.not_read_right s
  have ha := outcome_after_of_not_mem h.not_read_left s
  cases hoa : s.outcome a with
  | error e =>
    rw [hoa] at ha
    rw [after_of_error hoa, after_of_error ha]
  | ok value =>
    rw [hoa] at ha
    cases hob : s.outcome b with
    | error f =>
      rw [hob] at hb
      rw [after_of_error hob, after_of_error hb]
    | ok value' =>
      rw [hob] at hb
      rw [after_of_ok hb, after_of_ok ha, after_of_ok hoa, after_of_ok hob]
      simp only [Store.set_comm h.target_ne]

theorem runEach_snd (s : Session) (sts : List Statement) : (s.runEach sts).2 = sts.foldl after s := by
  induction sts generalizing s with
  | nil => rfl
  | cons st sts ih => exact ih (s.after st)

theorem runEach_fst (h : sts.Pairwise Statement.Independent) (s : Session) :
    (s.runEach sts).1 = sts.map fun st => (st, s.outcome st) := by
  induction sts generalizing s with
  | nil => rfl
  | cons a sts ih =>
    obtain ⟨ha, hsts⟩ := List.pairwise_cons.mp h
    have htail : sts.map (fun b => (b, (s.after a).outcome b)) =
        sts.map fun b => (b, s.outcome b) := by
      apply List.map_congr_left
      intro b hb
      rw [outcome_after_of_not_mem (ha b hb).not_read_right]
    calc (s.runEach (a :: sts)).1
        = (a, s.outcome a) :: ((s.after a).runEach sts).1 := rfl
      _ = (a :: sts).map fun b => (b, s.outcome b) := by rw [ih hsts, htail, List.map_cons]

theorem foldl_after_perm (h : sts.Pairwise Statement.Independent) (hp : sts.Perm sts')
    (s : Session) : sts.foldl after s = sts'.foldl after s := by
  have : Std.Symm Statement.Independent := ⟨fun _ _ => Statement.Independent.symm⟩
  refine hp.foldl_eq' ?_ s
  intro a ha b hb s
  by_cases hab : a = b
  · rw [hab]
  · exact after_comm (h.forall ha hb hab) s

/-- In whatever order independent statements run, each has the outcome that it has by itself, and they
lead to the same session. -/
theorem runEach_perm (h : sts.Pairwise Statement.Independent) (hp : sts.Perm sts') (s : Session) :
    (s.runEach sts).1 = sts.map (fun st => (st, s.outcome st)) ∧
      (s.runEach sts').1 = sts'.map (fun st => (st, s.outcome st)) ∧
      (s.runEach sts').2 = (s.runEach sts).2 := by
  have h' : sts'.Pairwise Statement.Independent :=
    (hp.pairwise_iff Statement.Independent.symm).mp h
  refine ⟨runEach_fst h s, runEach_fst h' s, ?_⟩
  rw [runEach_snd, runEach_snd, foldl_after_perm h hp]

/-- The first statement reads its own target, and the second fails. -/
theorem runEach_perm_failing :
    [⟨"x", .negate (.var "x")⟩, .lookup "y", ⟨"z", .literal 2⟩].Pairwise Statement.Independent ∧
    [⟨"x", .negate (.var "x")⟩, .lookup "y", ⟨"z", .literal 2⟩].Perm
      [⟨"z", .literal 2⟩, .lookup "y", (⟨"x", .negate (.var "x")⟩ : Statement)] ∧
    ((start {} [("x", 1)]).runEach [⟨"z", .literal 2⟩, .lookup "y", ⟨"x", .negate (.var "x")⟩]).1 =
      [(⟨"z", .literal 2⟩, .ok 2), (.lookup "y", .error (.unknownVariable "y")),
        (⟨"x", .negate (.var "x")⟩, .ok (-1))] ∧
    ((start {} [("x", 1)]).runEach [⟨"z", .literal 2⟩, .lookup "y", ⟨"x", .negate (.var "x")⟩]).2 =
      ((start {} [("x", 1)]).runEach
        [⟨"x", .negate (.var "x")⟩, .lookup "y", ⟨"z", .literal 2⟩]).2 := by
  have hi : [⟨"x", .negate (.var "x")⟩, .lookup "y", ⟨"z", .literal 2⟩].Pairwise
      Statement.Independent := by decide
  have hp : [⟨"x", .negate (.var "x")⟩, .lookup "y", ⟨"z", .literal 2⟩].Perm
      [⟨"z", .literal 2⟩, .lookup "y", (⟨"x", .negate (.var "x")⟩ : Statement)] := by
    decide +kernel
  obtain ⟨-, houtcomes, hlast⟩ := runEach_perm hi hp (start {} [("x", 1)])
  refine ⟨hi, hp, houtcomes.trans ?_, hlast⟩
  decide +kernel

end Session

end Reckon
