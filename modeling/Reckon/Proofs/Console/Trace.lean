import Reckon.Proofs.Console.Arguments
import Reckon.Proofs.Console.Conversation

/-! # Lines without a trace

A line of a conversation that is blank, that only shows something or that fails leaves the session as
it finds it. Without it the conversation prints the same but for the prompt and the answer of this
line. Behind a line that ends the conversation nothing counts.
-/

namespace Reckon.Console

variable {options : Options} {s : Session} {line : String} {lines us vs : List String}
  {arguments : List String} {bytes : List UInt8}

def IsTextOf (lines : List String) (bytes : List UInt8) : Prop :=
  ∃ text, decode bytes = some text ∧ Text.lines text = lines

theorem IsTextOf.exists_of_subset (h : IsTextOf lines bytes) (hs : us ⊆ lines) :
    ∃ bytes', IsTextOf us bytes' := by
  obtain ⟨text, -, rfl⟩ := h
  have hfeed : ∀ line ∈ us, '\n' ∉ line.toList := by
    intro line hl
    obtain ⟨cs, hcs, rfl⟩ := List.mem_map.mp (hs hl)
    rw [String.toList_ofList]
    exact Text.not_mem_of_mem_stretches hcs
  obtain ⟨text', h'⟩ := Text.exists_lines_eq hfeed
  exact ⟨encode text', text', decode_eq_some_iff.mpr rfl, h'⟩

inductive Traceless (s : Session) (line : String) : Prop
  | blank (h : Text.trim line = "")
  | help (h : Text.trim line = "help")
  | env (h : Text.trim line = "env")
  | lookup {name : String} (h : Statement.parse s.options line = .ok (.lookup name))
  | unparsed {e : ParseError} (h : Statement.parse s.options line = .error e)
  | failed {st : Statement} {e : EvalError} (hp : Statement.parse s.options line = .ok st)
      (hr : s.run st = .error e)

theorem respond_eq_none_iff : respond s line = none ↔ Text.trim line = "exit" := by
  unfold respond
  split
  · next h => simp [h]
  · next h => simp [h]
  · next h => simp [h]
  · next h => simp [h]
  · next hexit _ _ _ =>
    refine iff_of_false ?_ hexit
    split <;> simp

theorem exists_answers (s : Session) (h : ∀ line ∈ lines, Text.trim line ≠ "exit") :
    ∃ answers next, Answers s lines answers next := by
  induction lines generalizing s with
  | nil => exact ⟨[], s, .nil⟩
  | cons line lines ih =>
    obtain ⟨hl, hls⟩ := List.forall_mem_cons.mp h
    cases hr : respond s line with
    | none => exact absurd (respond_eq_none_iff.mp hr) hl
    | some r =>
      obtain ⟨mid, answer⟩ := r
      obtain ⟨answers, next, hs⟩ := ih mid hls
      exact ⟨answer :: answers, next, .cons hr hs⟩

theorem Traceless.reply_fst (h : Traceless s line) (hc : Text.trim line ∉ commands)
    (hb : Text.trim line ≠ "") : (reply s (s.runLine line)).1 = s := by
  cases hl : s.runLine line with
  | error e => rfl
  | ok r =>
    obtain ⟨⟨name, value⟩, next⟩ := r
    obtain ⟨st, value, hp, hr, -⟩ := Session.runLine_eq_ok_iff.mp hl
    cases h with
    | blank h => exact absurd h hb
    | help h => exact absurd (h ▸ by decide) hc
    | env h => exact absurd (h ▸ by decide) hc
    | lookup h =>
      obtain rfl := Except.ok.inj (hp.symm.trans h)
      exact Session.eq_of_run_lookup hr
    | unparsed h => cases hp.symm.trans h
    | failed hp' hr' =>
      obtain rfl := Except.ok.inj (hp.symm.trans hp')
      cases hr.symm.trans hr'

theorem Traceless.exists_respond (h : Traceless s line) (hx : Text.trim line ≠ "exit") :
    ∃ answer, respond s line = some (s, answer) := by
  by_cases hm : Text.trim line ∈ "" :: commands
  · exact exists_respond_of_mem hm hx s
  · obtain ⟨hb, hc⟩ : Text.trim line ≠ "" ∧ Text.trim line ∉ commands := by simpa using hm
    refine ⟨(reply s (s.runLine line)).2, ?_⟩
    rw [respond_eq hc hb]
    exact congrArg some (Prod.ext (h.reply_fst hc hb) rfl)

theorem run_of_isTextOf (readFile : String → Except String (List UInt8))
    (ha : parseArguments arguments = .ok (.converse options)) (hb : IsTextOf lines bytes) :
    run arguments readFile bytes =
      { status := 0, stdout := (converse (.start options []) lines).output, stderr := "" } := by
  obtain ⟨text, hd, rfl⟩ := hb
  rw [run, ha]
  exact runInput_of_decode hd _

/-- A conversation ends with the status 0, and what it prints depends on no line behind the first that
ends it. A line before that which leaves no trace adds to it a prompt and its own answer. -/
theorem run_traceless (readFile : String → Except String (List UInt8))
    (ha : parseArguments arguments = .ok (.converse options)) (hb : IsTextOf lines bytes) :
    (run arguments readFile bytes).status = 0 ∧
    (∀ us line vs, lines = us ++ line :: vs → (∀ l ∈ us, Text.trim l ≠ "exit") →
      Text.trim line = "exit" → ∀ vs' bytes', IsTextOf (us ++ line :: vs') bytes' →
        run arguments readFile bytes' = run arguments readFile bytes) ∧
    (∀ us line vs, lines = us ++ line :: vs → (∀ l ∈ us, Text.trim l ≠ "exit") →
      Text.trim line ≠ "exit" → ∃ answers mid, Answers (.start options []) us answers mid ∧
        (Traceless mid line → ∃ answer, respond mid line = some (mid, answer) ∧
          (run arguments readFile bytes).stdout = .join (answers.map (prompt ++ ·)) ++
            (prompt ++ answer) ++ (converse mid vs).output ∧
          (∃ bytes', IsTextOf (us ++ vs) bytes') ∧
          ∀ bytes', IsTextOf (us ++ vs) bytes' → (run arguments readFile bytes').stdout =
            .join (answers.map (prompt ++ ·)) ++ (converse mid vs).output)) := by
  refine ⟨by rw [run_of_isTextOf readFile ha hb], ?_, ?_⟩
  · rintro us line vs rfl hus hline vs' bytes' hb'
    obtain ⟨answers, mid, h⟩ := exists_answers (.start options []) hus
    have hstop : respond mid line = none := respond_eq_none_iff.mpr hline
    rw [run_of_isTextOf readFile ha hb, run_of_isTextOf readFile ha hb', h.converse_append, h.converse_append,
      converse, converse, hstop]
  · rintro us line vs rfl hus hline
    obtain ⟨answers, mid, h⟩ := exists_answers (.start options []) hus
    refine ⟨answers, mid, h, fun ht => ?_⟩
    obtain ⟨answer, hanswer⟩ := ht.exists_respond hline
    refine ⟨answer, hanswer, ?_, hb.exists_of_subset (by simp), ?_⟩
    · rw [run_of_isTextOf readFile ha hb, h.converse_append, converse, hanswer, String.append_assoc]
    · intro bytes' hb'
      rw [run_of_isTextOf readFile ha hb', h.converse_append]

/-- The second line looks up what is not bound, and the last one is behind the end. -/
theorem run_traceless_unbound :
    parseArguments ["--no-trig-snap"] = .ok (.converse { snapTrig := false }) ∧
    IsTextOf ["x = 2", " q", "y = x", "exit", "z"] (encode "x = 2\n q\r\ny = x\nexit\nz") ∧
    ∃ before after,
      (run ["--no-trig-snap"] (fun _ => .error "") (encode "x = 2\n q\r\ny = x\nexit\nz")).stdout =
        before ++ "> unknown variable 'q'\n" ++ after ∧
      (run ["--no-trig-snap"] (fun _ => .error "") (encode "x = 2\ny = x\nexit\nz\n")).stdout =
        before ++ after := by
  have ha : parseArguments ["--no-trig-snap"] = .ok (.converse { snapTrig := false }) :=
    parseArguments_flags { snapTrig := false }
  have hb : IsTextOf ["x = 2", " q", "y = x", "exit", "z"]
      (encode "x = 2\n q\r\ny = x\nexit\nz") :=
    ⟨_, decode_eq_some_iff.mpr rfl, by decide +kernel⟩
  have hb' : IsTextOf ["x = 2", "y = x", "exit", "z"] (encode "x = 2\ny = x\nexit\nz\n") :=
    ⟨_, decode_eq_some_iff.mpr rfl, by decide +kernel⟩
  refine ⟨ha, hb, ?_⟩
  obtain ⟨-, -, h⟩ := run_traceless (fun _ => .error "") ha hb
  obtain ⟨answers, mid, hus, h⟩ :=
    h ["x = 2"] " q" ["y = x", "exit", "z"] rfl (by decide +kernel) (by decide +kernel)
  have hmid : mid = .start { snapTrig := false } [("x", 2)] := by
    cases hus with
    | cons hr hs =>
      cases hs
      have hx : respond (.start { snapTrig := false } []) "x = 2" =
          some (.start { snapTrig := false } [("x", 2)], "x = 2.000000\n") := by decide +kernel
      cases hr.symm.trans hx
      rfl
  obtain rfl := hmid
  have hq : respond (.start { snapTrig := false } [("x", 2)]) " q" =
      some (.start { snapTrig := false } [("x", 2)], "unknown variable 'q'\n") := by decide +kernel
  have hlookup : Statement.parse { snapTrig := false } " q" = .ok (.lookup "q") := by decide +kernel
  obtain ⟨answer, hanswer, hwith, -, hwithout⟩ := h (.lookup hlookup)
  cases hanswer.symm.trans hq
  exact ⟨_, _, hwith, hwithout _ hb'⟩

end Reckon.Console
