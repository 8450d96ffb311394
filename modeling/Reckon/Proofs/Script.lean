import Reckon.Proofs.Listing
import Reckon.Proofs.Session

/-! # Ends of scripts

A script ends in one of three ways: a line that cannot be parsed lets nothing run, a statement that
fails keeps what ran before it, or all statements have run. The main statement is that a run is what
the end of its lines says, and that it has no other.
-/

namespace Reckon.Session

open Statement

variable {s : Session} {text : String} {r : ScriptRun}
  {outcome : Except Error (List (String × Float))}

/-- How a script of these lines ends: what it has reported, the session it leaves behind and its
error, and what is returned when the results are collected. -/
inductive Ends (s : Session) (lines : List String) :
    ScriptRun → Except Error (List (String × Float)) → Prop
  | unparsed {n : ℕ} {e : ParseError} (h : FirstFault s.options lines n e) :
      Ends s lines { results := [], session := s, error := some (.line n (.parse e)) }
        (.error (.line n (.parse e)))
  | stopped {us vs : List (ℕ × Statement)} {n : ℕ} {st : Statement} {name : String}
      {results : List (String × Float)} {next : Session}
      (hl : Listing s.options lines (us ++ (n, st) :: vs))
      (hr : s.Runs (us.map Prod.snd) results next)
      (he : next.run st = .error (.unknownVariable name)) :
      Ends s lines { results, session := next, error := some (.line n (.eval (.unknownVariable name))) }
        (.error (.line n (.eval (.unknownVariable name))))
  | completed {sts : List (ℕ × Statement)} {results : List (String × Float)} {next : Session}
      (hl : Listing s.options lines sts) (hr : s.Runs (sts.map Prod.snd) results next) :
      Ends s lines { results, session := next, error := none } (.ok results)

theorem runScript_of_listing {sts : List (ℕ × Statement)}
    (h : Listing s.options (Text.lines text) sts) : s.runScript text = s.runNumbered sts := by
  rw [runScript, parseLines_eq_ok_iff.mpr h]

theorem Ends.runScript_eq (h : s.Ends (Text.lines text) r outcome) :
    s.runScript text = r ∧ r.outcome = outcome := by
  cases h with
  | unparsed h =>
    rw [runScript, h.parseLines_eq]
    exact ⟨rfl, rfl⟩
  | stopped hl hr he =>
    refine ⟨?_, rfl⟩
    rw [runScript_of_listing hl, hr.runNumbered_append, runNumbered_of_error he, List.append_nil]
  | completed hl hr =>
    refine ⟨?_, rfl⟩
    rw [runScript_of_listing hl, hr.runNumbered_eq]

theorem exists_ends (s : Session) (lines : List String) : ∃ r outcome, s.Ends lines r outcome := by
  rcases parsed_or_firstFault s.options lines with hp | ⟨n, e, hf⟩
  · obtain ⟨sts, -, hl⟩ := exists_listing hp
    obtain ⟨us, vs, results, next, rfl, hr, hv⟩ := exists_runs s sts
    cases vs with
    | nil =>
      rw [List.append_nil] at hl
      exact ⟨_, _, .completed hl hr⟩
    | cons p vs =>
      obtain ⟨⟨name⟩, he⟩ := hv p rfl
      exact ⟨_, _, .stopped hl hr he⟩
  · exact ⟨_, _, .unparsed hf⟩

/-- A script is run, and its results collected, exactly as its lines let it end. -/
theorem runScript_eq_iff_ends :
    s.runScript text = r ∧ r.outcome = outcome ↔ s.Ends (Text.lines text) r outcome := by
  constructor
  · rintro ⟨rfl, rfl⟩
    obtain ⟨r, outcome, h⟩ := exists_ends s (Text.lines text)
    obtain ⟨rfl, rfl⟩ := h.runScript_eq
    exact h
  · exact Ends.runScript_eq

end Reckon.Session
