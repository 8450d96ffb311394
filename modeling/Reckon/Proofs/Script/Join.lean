import Reckon.Proofs.Script

/-! # Joined scripts

A script can be cut at any of its line feeds. The part before it and then, unless this is stopped, the
part behind it do what the script does, and only the numbers of the lines are counted anew.
-/

namespace Reckon

def Error.moved (d : ℕ) : Error → Error
  | line number cause => line (number + d) cause
  | e => e

namespace ScriptRun

def moved (d : ℕ) (r : ScriptRun) : ScriptRun :=
  { r with error := r.error.map (Error.moved d) }

/-- The run and, unless an error stopped it, the next one in the session that it left behind. -/
def followedBy (r : ScriptRun) (next : Session → ScriptRun) : ScriptRun :=
  match r.error with
  | some _ => r
  | none => { next r.session with results := r.results ++ (next r.session).results }

theorem followedBy_congr {r : ScriptRun} {next next' : Session → ScriptRun}
    (h : next r.session = next' r.session) : r.followedBy next = r.followedBy next' := by
  rw [followedBy, followedBy, h]

end ScriptRun

namespace Text

/-- The lines of a text are the same in a longer text, except that the last one loses a carriage return
and that it is there also if it is empty. -/
theorem exists_lines_append (a : String) : ∃ ls last last', ls.length = a.toList.count '\n' ∧
    lines a = ls ++ (if last = "" then [] else [last]) ∧ trim last' = trim last ∧
    ∀ b, lines (a ++ "\n" ++ b) = ls ++ last' :: lines b := by
  obtain ⟨xss, last, hlength, ha, happend⟩ := exists_stretches '\n' '\r' a.toList
  refine ⟨xss.map .ofList, .ofList last, .ofList (dropFinal '\r' last), ?_, ?_, ?_, fun b => ?_⟩
  · rw [List.length_map, hlength]
  · rw [lines, ha, List.map_append]
    cases last <;> simp
  · unfold dropFinal
    split
    · next hlast =>
      obtain ⟨cs, rfl⟩ := List.getLast?_eq_some_iff.mp hlast
      rw [List.dropLast_concat, trim_append_blank cs (List.forall_mem_singleton.mpr rfl)]
    · rfl
  · have hjoin : (a ++ "\n" ++ b).toList = a.toList ++ '\n' :: b.toList := by
      rw [String.toList_append, String.toList_append, List.append_assoc]
      rfl
    rw [lines, hjoin, happend, List.map_append, List.map_cons, lines]

end Text

namespace Statement

variable {options : Options} {line line' : String}

theorem listed_cons_congr (h : Text.trim line' = Text.trim line) (options : Options) (n : ℕ)
    (lines : List String) : listed options n (line' :: lines) = listed options n (line :: lines) := by
  rw [listed_cons, listed_cons, h, ← parse_trim options line', h, parse_trim]

/-- The statements of a text stay first and keep their numbers when it is continued behind a line
feed, and those of the other text are counted on. -/
theorem listed_lines_append (options : Options) (a b : String) :
    listed options 1 (Text.lines (a ++ "\n" ++ b)) = listed options 1 (Text.lines a) ++
      (listed options 1 (Text.lines b)).map fun p => (p.1 + (1 + a.toList.count '\n'), p.2) := by
  obtain ⟨ls, last, last', hlength, ha, htrim, happend⟩ := Text.exists_lines_append a
  have hlast : listed options (1 + ls.length) [last'] =
      listed options (1 + ls.length) (if last = "" then [] else [last]) := by
    rw [listed_cons_congr htrim]
    split
    · next h => exact listed_cons_of_blank (by rw [h]; rfl) options _ []
    · rfl
  have hb := listed_add options 1 (1 + ls.length) (Text.lines b)
  calc listed options 1 (Text.lines (a ++ "\n" ++ b))
      = listed options 1 (ls ++ [last'] ++ Text.lines b) := by
        rw [happend, List.append_assoc, List.singleton_append]
    _ = listed options 1 (Text.lines a) ++ listed options (1 + (1 + ls.length)) (Text.lines b) := by
        rw [listed_append, listed_append, hlast, ← listed_append, ← ha, List.length_append,
          List.length_singleton, Nat.add_comm ls.length]
    _ = _ := by rw [hb, hlength]

theorem exists_parse_of_mem_lines_append {a b : String}
    (ha : ∀ line ∈ Text.lines a, Text.trim line ≠ "" → ∃ st, parse options line = .ok st)
    (hb : ∀ line ∈ Text.lines b, Text.trim line ≠ "" → ∃ st, parse options line = .ok st) :
    ∀ line ∈ Text.lines (a ++ "\n" ++ b), Text.trim line ≠ "" →
      ∃ st, parse options line = .ok st := by
  obtain ⟨ls, last, last', -, hlines, htrim, happend⟩ := Text.exists_lines_append a
  rw [hlines, List.forall_mem_append] at ha
  rw [happend, List.forall_mem_append, List.forall_mem_cons]
  refine ⟨ha.1, fun hne => ?_, hb⟩
  rw [htrim] at hne
  have hlast : last ≠ "" := by
    rintro rfl
    exact hne rfl
  rw [if_neg hlast, List.forall_mem_singleton] at ha
  rw [← parse_trim, htrim, parse_trim]
  exact ha.2 hne

end Statement

namespace Session

open Statement

variable {s next : Session} {results : List (String × Float)} {a b : String}

theorem options_runNumbered (s : Session) (sts : List (ℕ × Statement)) :
    (s.runNumbered sts).session.options = s.options := by
  induction sts generalizing s with
  | nil => rfl
  | cons p sts ih =>
    rw [runNumbered]
    split
    · rfl
    · next hr => exact (ih _).trans (options_of_run hr)

theorem runNumbered_append (s : Session) (us vs : List (ℕ × Statement)) :
    s.runNumbered (us ++ vs) = (s.runNumbered us).followedBy fun t => t.runNumbered vs := by
  induction us generalizing s with
  | nil => rfl
  | cons p us ih =>
    rw [List.cons_append, runNumbered, runNumbered]
    cases s.run p.2 with
    | error e => rfl
    | ok r =>
      simp only [ih, ScriptRun.followedBy]
      split <;> rfl

theorem runNumbered_map_add (s : Session) (d : ℕ) (sts : List (ℕ × Statement)) :
    s.runNumbered (sts.map fun p => (p.1 + d, p.2)) = (s.runNumbered sts).moved d := by
  induction sts generalizing s with
  | nil => rfl
  | cons p sts ih =>
    rw [List.map_cons, runNumbered, runNumbered]
    cases s.run p.2 with
    | error e => rfl
    | ok r => simp only [ih, ScriptRun.moved]

theorem runScript_of_forall (h : ∀ line ∈ Text.lines a, Text.trim line ≠ "" →
    ∃ st, parse s.options line = .ok st) :
    s.runScript a = s.runNumbered (listed s.options 1 (Text.lines a)) := by
  rw [runScript, parseLines_of_forall fun _ line hl => h line hl.mem hl.not_blank]

theorem exists_line_of_error {text : String} {e : Error} (h : (s.runScript text).error = some e) :
    ∃ n cause, e = .line n cause := by
  obtain ⟨r, outcome, hends⟩ := exists_ends s (Text.lines text)
  rw [hends.runScript_eq.1] at h
  cases hends with
  | unparsed | stopped => exact ⟨_, _, (Option.some.inj h).symm⟩
  | completed => cases h

/-- Where all lines that are not blank are parsed, a script that is cut at a line feed does what its
parts do one after another, the second only if the first does not fail. An error of the second part
has the number of its line in the whole script. -/
theorem runScript_append_feed
    (ha : ∀ line ∈ Text.lines a, Text.trim line ≠ "" → ∃ st, parse s.options line = .ok st)
    (hb : ∀ line ∈ Text.lines b, Text.trim line ≠ "" → ∃ st, parse s.options line = .ok st) :
    s.runScript (a ++ "\n" ++ b) = (s.runScript a).followedBy
      (fun t => (t.runScript b).moved (1 + a.toList.count '\n')) ∧
    ∀ t e, (runScript t b).error = some e → ∃ n cause, e = .line n cause := by
  refine ⟨?_, fun t e => exists_line_of_error⟩
  have hopt := options_runNumbered s (listed s.options 1 (Text.lines a))
  rw [runScript_of_forall (exists_parse_of_mem_lines_append ha hb), listed_lines_append,
    runNumbered_append, runScript_of_forall ha]
  apply ScriptRun.followedBy_congr
  rw [runNumbered_map_add, runScript_of_forall (hopt.symm ▸ hb), hopt]

/-- The line that fails is the third behind the cut and the sixth of the script. -/
theorem runScript_append_feed_failing :
    (∀ line ∈ Text.lines "x = 2\n\n y = x * x\r", Text.trim line ≠ "" →
      ∃ st, parse {} line = .ok st) ∧
    (∀ line ∈ Text.lines "\nx = z\r\nw = q\nx", Text.trim line ≠ "" →
      ∃ st, parse {} line = .ok st) ∧
    (start {} [("z", 7)]).runScript ("x = 2\n\n y = x * x\r" ++ "\n" ++ "\nx = z\r\nw = q\nx") =
      { results := [("x", 2), ("y", 4), ("x", 7)]
        session := start {} [("z", 7), ("y", 4), ("x", 7)]
        error := some (.line 6 (.eval (.unknownVariable "q"))) } := by
  have hparse {line : String} (h : (parse {} line).toOption.isSome = true) :
      ∃ st, parse {} line = .ok st := by
    cases hp : parse {} line with
    | ok st => exact ⟨st, rfl⟩
    | error e =>
      rw [hp] at h
      cases h
  have hbefore : ∀ line ∈ Text.lines "x = 2\n\n y = x * x\r", Text.trim line ≠ "" →
      (parse {} line).toOption.isSome = true := by decide +kernel
  have hbehind : ∀ line ∈ Text.lines "\nx = z\r\nw = q\nx", Text.trim line ≠ "" →
      (parse {} line).toOption.isSome = true := by decide +kernel
  have ha := fun line hl hne => hparse (hbefore line hl hne)
  have hb := fun line hl hne => hparse (hbehind line hl hne)
  refine ⟨ha, hb, ?_⟩
  rw [(runScript_append_feed (s := start {} [("z", 7)]) ha hb).1]
  decide +kernel

end Session

end Reckon
