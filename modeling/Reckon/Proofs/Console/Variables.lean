import Reckon.Proofs.Console.Order
import Reckon.Proofs.Console.Trace
import Reckon.Proofs.Number
import Reckon.Proofs.Statement.Outcome
import Reckon.Proofs.Written

/-! # Variables on show

The line `env` shows the constants and what the lines before it have bound, each name once and with
the value that was written to it last. The names are in the order of their bytes, so it does not matter
in which order they were bound.
-/

namespace Reckon.Console

open Token

variable {options : Options} {s mid next : Session} {line : String} {lines us vs : List String}
  {answers arguments : List String} {answer name : String} {value : Float} {bytes : List UInt8}
  {entries : List (String × Float)}

/-- The targets and values of the lines that are run without a failure. -/
def results (s : Session) : List String → List (String × Float)
  | [] => []
  | line :: lines =>
    if Text.trim line ∈ "" :: commands then results s lines
    else
      match s.runLine line with
      | .error _ => results s lines
      | .ok (result, next) => result :: results next lines

section Lines

theorem eq_of_respond (h : respond s line = some (mid, answer))
    (hc : Text.trim line ∈ "" :: commands) : mid = s := by
  have hx : Text.trim line ≠ "exit" := by
    intro hx
    cases h.symm.trans (respond_eq_none_iff.mpr hx)
  obtain ⟨_, h'⟩ := exists_respond_of_mem hc hx s
  cases h.symm.trans h'
  rfl

theorem Answers.exists_runs (h : Answers s lines answers next) :
    ∃ sts, s.Runs sts (results s lines) next := by
  induction h with
  | nil => exact ⟨[], .nil⟩
  | @cons s mid next line answer lines answers h hs ih =>
    by_cases hc : Text.trim line ∈ "" :: commands
    · obtain rfl := eq_of_respond h hc
      rwa [results, if_pos hc]
    · obtain ⟨hb, hc'⟩ : Text.trim line ≠ "" ∧ Text.trim line ∉ commands := by simpa using hc
      rw [respond_eq hc' hb, Option.some.injEq] at h
      rw [results, if_neg hc]
      cases hl : s.runLine line with
      | error e =>
        rw [hl] at h
        cases h
        exact ih
      | ok r =>
        obtain ⟨result, mid⟩ := r
        rw [hl] at h
        cases h
        obtain ⟨st, value, -, hr, rfl⟩ := Session.runLine_eq_ok_iff.mp hl
        obtain ⟨sts, hsts⟩ := ih
        exact ⟨st :: sts, .cons hr hsts⟩

theorem isVariable_of_mem_results {entry : String × Float} (h : entry ∈ results s lines) :
    isVariable entry.1 = true := by
  induction lines generalizing s with
  | nil => cases h
  | cons line lines ih =>
    rw [results] at h
    split at h
    · exact ih h
    · split at h
      · exact ih h
      · next hl =>
        obtain ⟨st, value, hp, -, rfl⟩ := Session.runLine_eq_ok_iff.mp hl
        rcases List.mem_cons.mp h with rfl | h
        · exact Statement.isVariable_target_of_parse hp
        · exact ih h

end Lines

section Shown

def showVariable (name : String) (value : Float) : String :=
  name ++ " = " ++ Number.fixed shownPlaces value

theorem toList_showResults (entries : List (String × Float)) : (showResults entries).toList =
    (entries.map fun p => (showVariable p.1 p.2).toList).flatMap (· ++ ['\n']) := by
  induction entries with
  | nil => rfl
  | cons entry entries ih =>
    rw [showResults, List.map_cons, String.join_cons, String.toList_append, ← showResults, ih]
    simp [showResult, showVariable]

theorem not_mem_showVariable {c : Char} (hname : isVariable name = true) (hb : Text.isBlank c = true)
    (hc : c ≠ ' ') (value : Float) : c ∉ (showVariable name value).toList := by
  have hblank {d : Char} (h : Text.isBlank d = false) : c ≠ d := by
    rintro rfl
    cases hb.symm.trans h
  have hletters := (isVariable_iff.mp hname).2.1
  simp only [showVariable, String.toList_append, List.mem_append, not_or]
  refine ⟨⟨fun h => ?_, ?_⟩, fun h => ?_⟩
  · exact hblank (Expr.isBlank_eq_false_of_isLetter (hletters c h)) rfl
  · simp [hc, hblank (d := '=') (by decide)]
  · exact hblank (Number.isBlank_eq_false_of_mem_render h) rfl

theorem lines_showResults (h : ∀ p ∈ entries, isVariable p.1 = true) :
    Text.lines (showResults entries) = entries.map fun p => showVariable p.1 p.2 := by
  have hfeed : ∀ cs ∈ entries.map fun p => (showVariable p.1 p.2).toList, '\n' ∉ cs := by
    rw [List.forall_mem_map]
    exact fun p hp => not_mem_showVariable (h p hp) (by decide) (by decide) p.2
  rw [Text.lines, toList_showResults, Text.stretches_flatMap_concat '\r' hfeed, List.map_map,
    List.map_map]
  refine List.map_congr_left fun p hp => ?_
  have hback := not_mem_showVariable (c := '\r') (h p hp) (by decide) (by decide) p.2
  simp [Text.dropFinal_of_not_mem hback]

/-- The value that the last of the results for a name gives it, or that it has from the start. -/
def current? (name : String) (results : List (String × Float)) : Option Float :=
  (last? name results).or (constants.lookup name)

theorem current?_eq_none_iff {results : List (String × Float)} : current? name results = none ↔
    isConstant name = false ∧ name ∉ results.map Prod.fst := by
  have hnames : constants.map Prod.fst = ["pi", "PI", "e", "E"] := rfl
  rw [current?, Option.or_eq_none_iff, last?_eq_none_iff, ← last?_constants, last?_eq_none_iff, hnames,
    Bool.eq_false_iff, ne_eq, isConstant_iff, and_comm]

theorem Answers.get?_eq (h : Answers (.start options []) us answers mid) (name : String) :
    mid.store.get? name = current? name (results (.start options []) us) := by
  obtain ⟨sts, hr⟩ := h.exists_runs
  have hstart : (Session.start options []).store.get? name = constants.lookup name :=
    Store.get?_ofBindings [] name
  rw [hr.store_eq, Store.get?_setAll, hstart, current?]

/-- In whatever order the variables of a store come, there is one order by the bytes of the names. -/
theorem mergeSort_eq_entries {unsorted : List (String × Float)} (t : Store)
    (h : unsorted.Perm t.entries) :
    unsorted.mergeSort (fun p q => encode p.1 ≤ encode q.1) = t.entries := by
  have hperm := (List.mergeSort_perm unsorted fun p q => encode p.1 ≤ encode q.1).trans h
  have hsorted : (unsorted.mergeSort fun p q => encode p.1 ≤ encode q.1).Pairwise
      fun p q => decide (encode p.1 ≤ encode q.1) = true := by
    apply List.pairwise_mergeSort
    · intro p q r hpq hqr
      simp only [decide_eq_true_eq, encode_le_encode_iff] at hpq hqr ⊢
      exact String.le_trans hpq hqr
    · intro p q
      simpa [encode_le_encode_iff] using String.le_total p.1 q.1
  have hentries : t.entries.Pairwise fun p q => decide (encode p.1 ≤ encode q.1) = true := by
    refine (List.pairwise_map.mp t.increasing).imp fun hpq => ?_
    simpa [encode_le_encode_iff] using Std.le_of_lt hpq
  refine hperm.eq_of_pairwise (fun p q hp hq hpq hqp => ?_) hsorted hentries
  simp only [decide_eq_true_eq, encode_le_encode_iff] at hpq hqp
  exact List.inj_on_of_nodup_map t.nodup_names (hperm.mem_iff.mp hp) hq (String.le_antisymm hpq hqp)

/-- The text shows these entries on a line each, in the order of the bytes of their names. They are the
constants and the targets of the results, each with the value that it has in the end. -/
structure Shows (shown : String) (entries results : List (String × Float)) : Prop where
  shown_eq : shown = showResults entries
  lines_eq : Text.lines shown = entries.map fun p => showVariable p.1 p.2
  increasing : entries.Pairwise fun p q => encode p.1 < encode q.1
  /-- Entries in any order are put into this one by sorting them by the bytes of their names. -/
  sort_eq : ∀ unsorted : List (String × Float), unsorted.Perm entries →
    unsorted.mergeSort (fun p q => encode p.1 ≤ encode q.1) = entries
  mem_names_iff : ∀ name, name ∈ entries.map Prod.fst ↔
    isConstant name = true ∨ name ∈ results.map Prod.fst
  mem_iff : ∀ name value, (name, value) ∈ entries ↔ current? name results = some value

theorem shows_of_get? {results : List (String × Float)} (t : Store)
    (h : ∀ name, t.get? name = current? name results)
    (hresults : ∀ p ∈ results, isVariable p.1 = true) :
    Shows (showResults t.entries) t.entries results := by
  have hnames (name : String) : name ∈ t.names ↔
      isConstant name = true ∨ name ∈ results.map Prod.fst := by
    rw [Store.mem_names_iff, h, ne_eq, current?_eq_none_iff, Classical.not_and_iff_not_or_not, not_not,
      Bool.not_eq_false]
  have hvariables : ∀ p ∈ t.entries, isVariable p.1 = true := by
    intro p hp
    rcases (hnames p.1).mp (List.mem_map_of_mem hp) with hc | hr
    · exact Statement.isVariable_of_isConstant hc
    · obtain ⟨q, hq, hqp⟩ := List.mem_map.mp hr
      exact hqp ▸ hresults q hq
  constructor
  case shown_eq => rfl
  case lines_eq => exact lines_showResults hvariables
  case increasing => exact (List.pairwise_map.mp t.increasing).imp encode_lt_encode
  case sort_eq => exact fun _ => mergeSort_eq_entries t
  case mem_names_iff => exact hnames
  case mem_iff =>
    intro name value
    rw [Store.mem_entries_iff, h]

end Shown

/-- A line `env` shows the constants and the targets of the lines before it that did not fail, in the
order of the bytes of their names and with their last values. Other lines that leave the same values
behind, whatever their order is, lead to the same text. -/
theorem run_shows (readFile : String → Except String (List UInt8))
    (ha : parseArguments arguments = .ok (.converse options))
    (hb : IsTextOf (us ++ line :: vs) bytes) (hus : ∀ l ∈ us, Text.trim l ≠ "exit")
    (hline : Text.trim line = "env") :
    ∃ answers mid shown entries, Answers (.start options []) us answers mid ∧
      (run arguments readFile bytes).stdout = .join (answers.map (prompt ++ ·)) ++
        (prompt ++ shown) ++ (converse mid vs).output ∧
      Shows shown entries (results (.start options []) us) ∧
      ∀ options' us' answers' mid', Answers (.start options' []) us' answers' mid' →
        (∀ name, current? name (results (.start options' []) us') =
          current? name (results (.start options []) us)) →
        respond mid' line = some (mid', shown) := by
  obtain ⟨answers, mid, h⟩ := exists_answers (.start options []) hus
  refine ⟨answers, mid, showResults mid.store.entries, mid.store.entries, h, ?_, ?_, ?_⟩
  · rw [run_of_isTextOf readFile ha hb, h.converse_append, converse, respond_of_env hline,
      String.append_assoc]
  · exact shows_of_get? mid.store h.get?_eq fun _ => isVariable_of_mem_results
  · intro options' us' answers' mid' h' hcurrent
    have hstore : mid'.store = mid.store :=
      Store.eq_of_get? fun name => by rw [h'.get?_eq, h.get?_eq, hcurrent]
    rw [respond_of_env hline, hstore]

/-- One line fails and one is overwritten; the values that are left can also be bound in another order. -/
theorem run_shows_reassigned : parseArguments [] = .ok (.converse {}) ∧
    IsTextOf (["z = pi", "q = x", "a = 2", "z = 3"] ++ " env" :: ["a"])
      (encode "z = pi\nq = x\na = 2\nz = 3\n env\na") ∧
    (∀ l ∈ ["z = pi", "q = x", "a = 2", "z = 3"], Text.trim l ≠ "exit") ∧
    Text.trim " env" = "env" ∧
    ∃ before after,
      (run [] (fun _ => .error "") (encode "z = pi\nq = x\na = 2\nz = 3\n env\na")).stdout =
        before ++ (prompt ++ .join ["E = 2.718282\n", "PI = 3.141593\n", "a = 2.000000\n",
          "e = 2.718282\n", "pi = 3.141593\n", "z = 3.000000\n"]) ++ after := by
  have ha : parseArguments [] = .ok (.converse {}) := parseArguments_flags {}
  have hb : IsTextOf (["z = pi", "q = x", "a = 2", "z = 3"] ++ " env" :: ["a"])
      (encode "z = pi\nq = x\na = 2\nz = 3\n env\na") :=
    ⟨_, decode_eq_some_iff.mpr rfl, by decide +kernel⟩
  have hus : ∀ l ∈ ["z = pi", "q = x", "a = 2", "z = 3"], Text.trim l ≠ "exit" := by decide +kernel
  have hline : Text.trim " env" = "env" := by decide +kernel
  refine ⟨ha, hb, hus, hline, ?_⟩
  obtain ⟨answers, mid, shown, entries, -, hstdout, -, hsame⟩ :=
    run_shows (fun _ => .error "") ha hb hus hline
  have ha3 : respond (.start {} []) "z = 3" = some (.start {} [("z", 3)], "z = 3.000000\n") := by
    decide +kernel
  have ha2 : respond (.start {} [("z", 3)]) "a = 2" =
      some (.start {} [("z", 3), ("a", 2)], "a = 2.000000\n") := by
    decide +kernel
  have hleft : results (.start {} []) ["z = pi", "q = x", "a = 2", "z = 3"] =
      [("z", .ofBits 0x400921FB54442D18), ("a", 2), ("z", 3)] := by
    decide +kernel
  have hright : results (.start {} []) ["z = 3", "a = 2"] = [("z", 3), ("a", 2)] := by
    decide +kernel
  have hcurrent (name : String) : current? name (results (.start {} []) ["z = 3", "a = 2"]) =
      current? name (results (.start {} []) ["z = pi", "q = x", "a = 2", "z = 3"]) := by
    rw [hleft, hright]
    simp only [current?, last?_cons]
    by_cases hz : name = "z"
    · subst hz
      rfl
    · simp [hz, last?]
  have hshown := hsame {} _ _ _ (.cons ha3 (.cons ha2 .nil)) hcurrent
  have henv : respond (.start {} [("z", 3), ("a", 2)]) " env" =
      some (.start {} [("z", 3), ("a", 2)], .join ["E = 2.718282\n", "PI = 3.141593\n",
        "a = 2.000000\n", "e = 2.718282\n", "pi = 3.141593\n", "z = 3.000000\n"]) := by
    decide +kernel
  cases hshown.symm.trans henv
  exact ⟨_, _, hstdout⟩

end Reckon.Console
