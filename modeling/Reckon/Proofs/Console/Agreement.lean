import Reckon.Proofs.Console.Arguments
import Reckon.Proofs.Console.Conversation
import Reckon.Proofs.Script

/-! # Scripts and conversations agree

The lines of a text can be run as a script or held as a conversation. A script prints what the
conversation answers until a statement fails, and its error is the answer to the line that fails.
There the script ends, and the conversation goes on.
-/

namespace Reckon.Console

open Statement

variable {options : Options} {s next : Session} {e : EvalError} {line path text : String}
  {lines us vs answers arguments arguments' : List String} {bytes input : List UInt8}
  {readFile : String → Except String (List UInt8)}

structure Scriptable (options : Options) (lines : List String) : Prop where
  not_command : ∀ line ∈ lines, Text.trim line ∉ commands
  parsed : ∀ line ∈ lines, Text.trim line ≠ "" → ∃ st, parse options line = .ok st

/-- The statements of the lines all run, and these are the answers to the lines. -/
inductive Succeeds : Session → List String → List String → Session → Prop
  | nil {s : Session} : Succeeds s [] [] s
  | blank {s next : Session} {line : String} {lines answers : List String}
      (hb : Text.trim line = "") (hs : Succeeds s lines answers next) :
      Succeeds s (line :: lines) ("" :: answers) next
  | result {s mid next : Session} {line name : String} {value : Float} {lines answers : List String}
      (hb : Text.trim line ≠ "") (h : s.runLine line = .ok ((name, value), mid))
      (hs : Succeeds mid lines answers next) :
      Succeeds s (line :: lines) (showResult name value :: answers) next

/-- What a script and a conversation over the same lines lead to. -/
inductive Agree (s : Session) (lines : List String) : Outcome → Outcome → Prop
  | completed {answers : List String} {next : Session} (h : Succeeds s lines answers next) :
      Agree s lines
        { status := 0, stdout := .join answers, stderr := "" }
        { status := 0, stdout := .join (answers.map (prompt ++ ·)) ++ prompt, stderr := "" }
  /-- The statement of the line behind `us` is the first that fails. -/
  | stopped {us vs answers : List String} {line : String} {next : Session} {e : EvalError}
      (hl : lines = us ++ line :: vs) (h : Succeeds s us answers next)
      (he : next.runLine line = .error (.eval e)) :
      Agree s lines
        { status := 1
          stdout := .join answers
          stderr := "Error: line " ++ toString (us.length + 1) ++ ": " ++ e.message ++ "\n" }
        { status := 0
          stdout := .join (answers.map (prompt ++ ·)) ++ (prompt ++ (e.message ++ "\n")) ++
            (converse next vs).output
          stderr := "" }

theorem exists_succeeds (s : Session) (lines : List String)
    (hp : ∀ line ∈ lines, Text.trim line ≠ "" → ∃ st, parse s.options line = .ok st) :
    (∃ answers next, Succeeds s lines answers next) ∨ ∃ us line vs answers next e,
      lines = us ++ line :: vs ∧ Succeeds s us answers next ∧ Text.trim line ≠ "" ∧
        next.runLine line = .error (.eval e) := by
  induction lines generalizing s with
  | nil => exact .inl ⟨[], s, .nil⟩
  | cons line lines ih =>
    obtain ⟨hl, hp⟩ := List.forall_mem_cons.mp hp
    by_cases hb : Text.trim line = ""
    · rcases ih s hp with ⟨answers, next, h⟩ | ⟨us, l, vs, answers, next, e, rfl, h, he⟩
      · exact .inl ⟨_, next, .blank hb h⟩
      · exact .inr ⟨line :: us, l, vs, _, next, e, rfl, .blank hb h, he⟩
    · obtain ⟨st, hst⟩ := hl hb
      cases hr : s.run st with
      | error e =>
        have he : s.runLine line = .error (.eval e) :=
          Session.runLine_eq_error_eval_iff.mpr ⟨st, hst, hr⟩
        exact .inr ⟨[], line, lines, [], s, e, rfl, .nil, hb, he⟩
      | ok r =>
        obtain ⟨value, mid⟩ := r
        have hm : s.runLine line = .ok ((st.target, value), mid) :=
          Session.runLine_eq_ok_iff.mpr ⟨st, value, hst, hr, rfl⟩
        rw [← Session.options_of_run hr] at hp
        rcases ih mid hp with ⟨answers, next, h⟩ | ⟨us, l, vs, answers, next, e, rfl, h, he⟩
        · exact .inl ⟨_, next, .result hb hm h⟩
        · exact .inr ⟨line :: us, l, vs, _, next, e, rfl, .result hb hm h, he⟩

theorem Succeeds.toAnswers (h : Succeeds s lines answers next)
    (hc : ∀ line ∈ lines, Text.trim line ∉ commands) : Answers s lines answers next := by
  induction h with
  | nil => exact .nil
  | blank hb hs ih =>
    obtain ⟨-, hc⟩ := List.forall_mem_cons.mp hc
    exact .cons (respond_of_blank hb _) (ih hc)
  | result hb h hs ih =>
    obtain ⟨hl, hc⟩ := List.forall_mem_cons.mp hc
    refine .cons ?_ (ih hc)
    rw [respond_eq hl hb, h, reply]

theorem Succeeds.options_eq (h : Succeeds s lines answers next) : next.options = s.options := by
  induction h with
  | nil => rfl
  | blank hb hs ih => exact ih
  | result hb h hs ih =>
    obtain ⟨st, value, -, hr, -⟩ := Session.runLine_eq_ok_iff.mp h
    rw [ih, Session.options_of_run hr]

theorem Succeeds.exists_runs (h : Succeeds s lines answers next) (n : ℕ) : ∃ results,
    s.Runs ((listed s.options n lines).map Prod.snd) results next ∧
      showResults results = .join answers := by
  induction h generalizing n with
  | nil => exact ⟨[], .nil, rfl⟩
  | blank hb hs ih =>
    rw [listed_cons_of_blank hb]
    simpa using ih (n + 1)
  | result hb h hs ih =>
    obtain ⟨st, value, hst, hr, he⟩ := Session.runLine_eq_ok_iff.mp h
    obtain ⟨results, hruns, hshown⟩ := ih (n + 1)
    cases he
    rw [Session.options_of_run hr] at hruns
    rw [listed_cons_of_parse hb hst]
    refine ⟨_, .cons hr hruns, ?_⟩
    rw [showResults, List.map_cons, String.join_cons, String.join_cons, ← hshown]
    rfl

theorem Scriptable.listing (h : Scriptable options lines) :
    Listing options lines (listed options 1 lines) :=
  parseLines_eq_ok_iff.mp (parseLines_of_forall fun _ line hl => h.parsed line hl.mem hl.not_blank)

theorem runText_of_runScript {r : ScriptRun} (h : s.runScript text = r) :
    runText s text = match r.error with
      | none => { status := 0, stdout := showResults r.results, stderr := "" }
      | some e => failure (showResults r.results) e.message := by
  subst h
  rfl

theorem failure_line (stdout : String) (n : ℕ) (e : EvalError) :
    failure stdout (Error.line n (.eval e)).message =
      { status := 1, stdout, stderr := "Error: line " ++ toString n ++ ": " ++ e.message ++ "\n" } := by
  rw [failure, Error.message, Error.message]
  simp only [← String.append_assoc]
  rfl

theorem Succeeds.runText_eq (h : Succeeds s (Text.lines text) answers next)
    (hl : Scriptable s.options (Text.lines text)) :
    runText s text = { status := 0, stdout := .join answers, stderr := "" } := by
  obtain ⟨results, hruns, hshown⟩ := h.exists_runs 1
  rw [runText_of_runScript (Session.Ends.completed hl.listing hruns).runScript_eq.1, hshown]

theorem Succeeds.runText_eq_of_error (h : Succeeds s us answers next)
    (hl : Scriptable s.options (Text.lines text)) (hlines : Text.lines text = us ++ line :: vs)
    (hb : Text.trim line ≠ "") (he : next.runLine line = .error (.eval e)) :
    runText s text =
      { status := 1
        stdout := .join answers
        stderr := "Error: line " ++ toString (us.length + 1) ++ ": " ++ e.message ++ "\n" } := by
  obtain ⟨name⟩ := e
  obtain ⟨st, hst, hr⟩ := Session.runLine_eq_error_eval_iff.mp he
  rw [h.options_eq] at hst
  obtain ⟨results, hruns, hshown⟩ := h.exists_runs 1
  have hlisting := hl.listing
  rw [hlines, listed_append, listed_cons_of_parse hb hst, Nat.add_comm 1, ← hlines] at hlisting
  rw [runText_of_runScript (Session.Ends.stopped hlisting hruns hr).runScript_eq.1, hshown]
  exact failure_line ..

theorem Succeeds.converse_eq (h : Succeeds s lines answers next)
    (hc : ∀ line ∈ lines, Text.trim line ∉ commands) :
    (converse s lines).output = .join (answers.map (prompt ++ ·)) ++ prompt := by
  have h := (h.toAnswers hc).converse_append []
  rw [List.append_nil] at h
  rw [h, converse]

theorem Succeeds.converse_eq_of_error (h : Succeeds s us answers next)
    (hc : ∀ l ∈ us ++ line :: vs, Text.trim l ∉ commands) (hb : Text.trim line ≠ "")
    (he : next.runLine line = .error (.eval e)) :
    (converse s (us ++ line :: vs)).output =
      .join (answers.map (prompt ++ ·)) ++ (prompt ++ (e.message ++ "\n")) ++
        (converse next vs).output := by
  obtain ⟨hus, hvs⟩ := List.forall_mem_append.mp hc
  have hanswer : respond next line = some (next, e.message ++ "\n") := by
    rw [respond_eq (hvs line List.mem_cons_self) hb, he, reply, Error.message]
  rw [(h.toAnswers hus).converse_append, converse, hanswer, String.append_assoc]

theorem agree_runText (h : Scriptable s.options (Text.lines text)) :
    Agree s (Text.lines text) (runText s text)
      { status := 0, stdout := (converse s (Text.lines text)).output, stderr := "" } := by
  rcases exists_succeeds s (Text.lines text) h.parsed with
    ⟨answers, next, hs⟩ | ⟨us, line, vs, answers, next, e, hlines, hs, hb, he⟩
  · rw [hs.runText_eq h, hs.converse_eq h.not_command]
    exact .completed hs
  · have hc := hlines ▸ h.not_command
    rw [hs.runText_eq_of_error h hlines hb he, hlines, hs.converse_eq_of_error hc hb he]
    exact .stopped rfl hs he

/-- A text whose lines are statements or blank has the same results as a script and as a
conversation, up to the first statement that fails. -/
theorem agree_run (hs : parseArguments arguments = .ok (.script path [] options))
    (hc : parseArguments arguments' = .ok (.converse options)) (hr : readFile path = .ok bytes)
    (hd : decode bytes = some text) (hl : Scriptable options (Text.lines text)) :
    Agree (.start options []) (Text.lines text) (run arguments readFile input)
      (run arguments' readFile bytes) := by
  have hfile : run arguments readFile input = runText (.start options []) text := by
    rw [run, hs]
    simp only [runCommand, runFile, hr, hd]
  have htalk : run arguments' readFile bytes = runInput (.start options []) bytes := by
    rw [run, hc]
    rfl
  rw [hfile, htalk, runInput_of_decode hd]
  exact agree_runText hl

/-- The third line fails, behind a line that ends in a carriage return and a blank one. -/
theorem agree_run_halfway :
    Scriptable { power := .right, snapTrig := false } (Text.lines "x = 2\r\n \n y=x+q\nz = 1") ∧
    Agree (.start { power := .right, snapTrig := false } [])
      (Text.lines "x = 2\r\n \n y=x+q\nz = 1")
      (run ["--right-assoc-pow", "--no-trig-snap", "s"]
        (fun _ => .ok (encode "x = 2\r\n \n y=x+q\nz = 1")) [])
      (run ["--right-assoc-pow", "--no-trig-snap"]
        (fun _ => .ok (encode "x = 2\r\n \n y=x+q\nz = 1"))
        (encode "x = 2\r\n \n y=x+q\nz = 1")) := by
  have hlines : Text.lines "x = 2\r\n \n y=x+q\nz = 1" = ["x = 2", " ", " y=x+q", "z = 1"] := by
    decide +kernel
  have hscript : Scriptable { power := .right, snapTrig := false }
      (Text.lines "x = 2\r\n \n y=x+q\nz = 1") := by
    rw [hlines]
    refine ⟨by decide +kernel, fun line hl hb => ?_⟩
    have hp : ∀ line ∈ ["x = 2", " ", " y=x+q", "z = 1"], Text.trim line ≠ "" →
        (parse { power := .right, snapTrig := false } line).toOption.isSome = true := by
      decide +kernel
    cases h : parse { power := .right, snapTrig := false } line with
    | ok st => exact ⟨st, rfl⟩
    | error e =>
      have hsome := hp line hl hb
      rw [h] at hsome
      cases hsome
  exact ⟨hscript, agree_run
    (parseArguments_flags_path { power := .right, snapTrig := false } (by decide) (by decide))
    (parseArguments_flags { power := .right, snapTrig := false }) rfl (decode_eq_some_iff.mpr rfl)
    hscript⟩

example : run ["s"] (fun _ => .ok (encode "x = 2\r\n \n y=x+q\nz = 1")) [] =
    { status := 1, stdout := "x = 2.000000\n", stderr := "Error: line 3: unknown variable 'q'\n" } := by
  decide +kernel

example : run [] (fun _ => .error "") (encode "x = 2\r\n \n y=x+q\nz = 1") =
    { status := 0
      stdout := "> x = 2.000000\n> > unknown variable 'q'\n> z = 1.000000\n> "
      stderr := "" } := by
  decide +kernel

end Reckon.Console
