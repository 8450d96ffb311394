import Reckon.Proofs.Console.Decoding
import Reckon.Proofs.Session

/-! # Answers

A conversation over an input answers the lines of its text one after another. What is answered is
printed behind a prompt for each line.
-/

namespace Reckon.Console

variable {s next : Session} {line : String} {lines us vs answers : List String} {text : String}
  {bytes before : List UInt8}

def commands : List String :=
  ["exit", "env", "help"]

theorem respond_of_blank (h : Text.trim line = "") (s : Session) : respond s line = some (s, "") := by
  rw [respond, h]
  rfl

theorem respond_of_env (h : Text.trim line = "env") (s : Session) :
    respond s line = some (s, showResults s.store.entries) := by
  rw [respond, h]
  rfl

theorem respond_of_help (h : Text.trim line = "help") (s : Session) :
    respond s line = some (s, helpText) := by
  rw [respond, h]
  rfl

theorem exists_respond_of_mem (h : Text.trim line ∈ "" :: commands) (hx : Text.trim line ≠ "exit")
    (s : Session) : ∃ answer, respond s line = some (s, answer) := by
  simp only [commands, List.mem_cons, List.not_mem_nil, or_false] at h
  rcases h with h | h | h | h
  · exact ⟨"", respond_of_blank h s⟩
  · exact absurd h hx
  · exact ⟨_, respond_of_env h s⟩
  · exact ⟨_, respond_of_help h s⟩

def reply (s : Session) : Except Error ((String × Float) × Session) → Session × String
  | .ok ((name, value), next) => (next, showResult name value)
  | .error e => (s, e.message ++ "\n")

theorem respond_eq (hc : Text.trim line ∉ commands) (hb : Text.trim line ≠ "") (s : Session) :
    respond s line = some (reply s (s.runLine line)) := by
  simp only [commands, List.mem_cons, List.not_mem_nil, or_false, not_or] at hc
  obtain ⟨hexit, henv, hhelp⟩ := hc
  unfold respond
  split
  · next h => exact absurd h hexit
  · next h => exact absurd h henv
  · next h => exact absurd h hhelp
  · next h => exact absurd h hb
  · rw [Session.runLine_trim]
    cases s.runLine line <;> rfl

/-- A conversation answers the lines in order without ending. -/
inductive Answers : Session → List String → List String → Session → Prop
  | nil {s : Session} : Answers s [] [] s
  | cons {s mid next : Session} {line answer : String} {lines answers : List String}
      (h : respond s line = some (mid, answer)) (hs : Answers mid lines answers next) :
      Answers s (line :: lines) (answer :: answers) next

theorem Answers.converse_append (h : Answers s us answers next) (vs : List String) :
    converse s (us ++ vs) = { converse next vs with
      output := .join (answers.map (prompt ++ ·)) ++ (converse next vs).output } := by
  induction h with
  | nil => simp
  | cons h hs ih =>
    rw [List.cons_append, converse, h]
    simp only [ih, List.map_cons, String.join_cons, String.append_assoc]

theorem runInput_of_decode (h : decode bytes = some text) (s : Session) :
    runInput s bytes =
      { status := 0, stdout := (converse s (Text.lines text)).output, stderr := "" } := by
  rw [runInput, inputLines_of_decode h]
  rfl

/-- A conversation over an input takes its first line, and goes on over the others. -/
theorem runInput_append_cons (h : 10 ∉ before) (after : List UInt8) (s : Session) :
    runInput s (before ++ 10 :: after) = match turn s (before ++ [10]) with
      | .ended o => { o with stdout := prompt ++ o.stdout }
      | .answered next answer => { runInput next after with
          stdout := prompt ++ answer ++ (runInput next after).stdout } := by
  rw [runInput, turn, inputLines_append_cons h, inputLines_append_cons h]
  cases decode (Text.dropFinal 13 before) with
  | none => rfl
  | some line =>
    simp only [converse]
    rcases Option.eq_none_or_eq_some (respond s line) with hr | ⟨⟨next, answer⟩, hr⟩
    · simp [hr]
    · simp only [hr, runInput]
      split <;> rfl

end Reckon.Console
