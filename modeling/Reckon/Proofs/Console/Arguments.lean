import Reckon.Console.Arguments

/-! # Flags for options

Every choice of options has arguments that ask for it, with or without a script.
-/

namespace Reckon.Console

def flags (options : Options) : List String :=
  (if options.power = .right then ["--right-assoc-pow"] else []) ++
    if options.snapTrig then [] else ["--no-trig-snap"]

def Request.ofOptions (options : Options) : Request :=
  { rightAssocPow := options.power = .right, noTrigSnap := !options.snapTrig }

@[simp] theorem Request.options_ofOptions (options : Options) :
    (Request.ofOptions options).options = options := by
  obtain ⟨_ | _, _ | _⟩ := options <;> rfl

theorem parseFrom_flags_append (options : Options) (arguments : List String) :
    parseFrom {} (flags options ++ arguments) = parseFrom (.ofOptions options) arguments := by
  obtain ⟨_ | _, _ | _⟩ := options <;> rfl

theorem parseArguments_flags (options : Options) :
    parseArguments (flags options) = .ok (.converse options) := by
  have h := parseFrom_flags_append options []
  rw [List.append_nil, parseFrom, Request.command, Request.options_ofOptions] at h
  exact h

theorem parseArguments_flags_path {path : String} (options : Options) (hne : path ≠ "")
    (hdash : path.toList.head? ≠ some '-') :
    parseArguments (flags options ++ [path]) = .ok (.script path [] options) := by
  have hstep : step (.ofOptions options) path =
      .ok (.next { Request.ofOptions options with path := some path }) := by
    rw [step]
    split
    · next h => simp [h] at hdash
    · next h => simp [h] at hdash
    · simp [Request.addValue, Request.ofOptions, hne, Except.map]
  have hdashes : path ≠ "--" := by
    rintro rfl
    exact hdash rfl
  rw [parseArguments, parseFrom_flags_append, parseFrom, if_neg hdashes, hstep]
  exact congrArg (fun o => Except.ok (Command.script path [] o)) (Request.options_ofOptions options)

end Reckon.Console
