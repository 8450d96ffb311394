import Reckon.Binding
import Reckon.Proofs.Number
import Reckon.Proofs.Text.Split

/-! # What an argument binds

An argument binds the name before its first equals sign to the number behind it, and white space around
either does not matter. A missing equals sign is reported before a missing name, and this before a
value that is no number. A name and the text of a number make up an argument that binds the one to the
other.
-/

namespace Reckon

variable {argument name p q r s : String} {x : Float}
  {result : Except BindingError (String × Float)}

/-- What an argument comes to, by what stands before and behind its first equals sign. -/
inductive BindingOutcome : String → Except BindingError (String × Float) → Prop
  | bound {p name q right : String} {value : Float} (hp : ∀ c ∈ p.toList, Text.isBlank c = true)
      (hq : ∀ c ∈ q.toList, Text.isBlank c = true) (hname : Text.Solid name.toList)
      (hequals : '=' ∉ name.toList) (hvalue : Number.read (Text.trim right) = .ok value) :
      BindingOutcome (p ++ name ++ q ++ "=" ++ right) (.ok (name, value))
  | missingEquals {argument : String} (hequals : '=' ∉ argument.toList) :
      BindingOutcome argument (.error (.missingEquals argument))
  | emptyName {left right : String} (hleft : ∀ c ∈ left.toList, Text.isBlank c = true) :
      BindingOutcome (left ++ "=" ++ right) (.error (.emptyName (left ++ "=" ++ right)))
  | invalidValue {left right : String} {cause : Number.ReadError} (hequals : '=' ∉ left.toList)
      (hleft : ∃ c ∈ left.toList, Text.isBlank c = false)
      (hvalue : Number.read (Text.trim right) = .error cause) :
      BindingOutcome (left ++ "=" ++ right) (.error (.invalidValue (left ++ "=" ++ right) cause))

theorem parseBinding_append {left right : String} (h : '=' ∉ left.toList) :
    parseBinding (left ++ "=" ++ right) =
      if (Text.trim left).isEmpty then .error (.emptyName (left ++ "=" ++ right))
      else match Number.read (Text.trim right) with
        | .ok value => .ok (Text.trim left, value)
        | .error cause => .error (.invalidValue (left ++ "=" ++ right) cause) := by
  cases hvalue : Number.read (Text.trim right) <;>
    simp only [parseBinding, Text.cutEquals_append h, hvalue]

theorem equals_not_mem_of_white (h : ∀ c ∈ p.toList, Text.isBlank c = true) : '=' ∉ p.toList :=
  fun hm => absurd (h '=' hm) (by decide)

theorem BindingOutcome.parseBinding_eq (h : BindingOutcome argument result) :
    parseBinding argument = result := by
  cases h with
  | @bound p name q right value hp hq hname hequals hvalue =>
    have hleft : '=' ∉ (p ++ name ++ q).toList := by
      simp only [String.toList_append, List.mem_append, not_or]
      exact ⟨⟨equals_not_mem_of_white hp, hequals⟩, equals_not_mem_of_white hq⟩
    have htrim : Text.trim (p ++ name ++ q) = name :=
      (Text.trim_white_append hp hq name).trans hname.trim_eq
    rw [parseBinding_append hleft, htrim, if_neg (mt String.isEmpty_iff.mp hname.ne_empty), hvalue]
  | missingEquals hequals => rw [parseBinding, Text.cutEquals_eq_none hequals]
  | emptyName hleft =>
    rw [parseBinding_append (equals_not_mem_of_white hleft),
      if_pos (String.isEmpty_iff.mpr (Text.trim_eq_empty_iff.mpr hleft))]
  | @invalidValue left right cause hequals hleft hvalue =>
    have hne : Text.trim left ≠ "" := by
      obtain ⟨c, hc, hb⟩ := hleft
      exact fun h => Bool.eq_false_iff.mp hb (Text.trim_eq_empty_iff.mp h c hc)
    rw [parseBinding_append hequals, if_neg (mt String.isEmpty_iff.mp hne), hvalue]

theorem exists_bindingOutcome (argument : String) : ∃ result, BindingOutcome argument result := by
  by_cases hequals : '=' ∈ argument.toList
  · obtain ⟨left, right, rfl, hleft⟩ := Text.exists_eq_append_of_mem hequals
    by_cases hwhite : ∀ c ∈ left.toList, Text.isBlank c = true
    · exact ⟨_, .emptyName hwhite⟩
    · cases hvalue : Number.read (Text.trim right) with
      | error cause =>
        refine ⟨_, .invalidValue hleft ?_ hvalue⟩
        simpa using hwhite
      | ok value =>
        obtain ⟨p, q, hp, hq, htext⟩ := Text.exists_eq_white_append_trim left
        have hname := Text.solid_trim (mt Text.trim_eq_empty_iff.mp hwhite)
        have hequals : '=' ∉ (Text.trim left).toList := by
          rw [htext, String.toList_append, String.toList_append] at hleft
          exact fun hm => hleft (List.mem_append_left _ (List.mem_append_right _ hm))
        rw [htext]
        exact ⟨_, .bound hp hq hname hequals hvalue⟩
  · exact ⟨_, .missingEquals hequals⟩

theorem parseBinding_eq_iff : parseBinding argument = result ↔ BindingOutcome argument result := by
  constructor
  · rintro rfl
    obtain ⟨result, h⟩ := exists_bindingOutcome argument
    rwa [h.parseBinding_eq]
  · exact BindingOutcome.parseBinding_eq

/-- What an argument comes to is one. A name, an equals sign and the text of a number, each with any
white space around it, bind the name to the number. -/
theorem parseBinding_outcome :
    (∀ p name q r s x, (∀ c ∈ (p ++ q ++ r ++ s).toList, Text.isBlank c = true) →
      Text.Solid name.toList → '=' ∉ name.toList → x.isNaN = false →
      parseBinding (p ++ name ++ q ++ "=" ++ (r ++ Number.text x ++ s)) = .ok (name, x)) ∧
    ∀ argument result, parseBinding argument = result ↔ BindingOutcome argument result := by
  refine ⟨fun p name q r s x hwhite hname hequals hx => ?_, fun _ _ => parseBinding_eq_iff⟩
  simp only [String.toList_append, List.forall_mem_append] at hwhite
  obtain ⟨⟨⟨hp, hq⟩, hr⟩, hs⟩ := hwhite
  have hvalue : Number.read (Text.trim (r ++ Number.text x ++ s)) = .ok x := by
    rw [Text.trim_white_append hr hs, (Number.solid_text hx).trim_eq, Number.read_text hx]
  exact (BindingOutcome.bound hp hq hname hequals hvalue).parseBinding_eq

/-- White space of several kinds stands around a name with white space in it and a negative infinity. -/
theorem parseBinding_outcome_infinity :
    (∀ c ∈ ("\u3000" ++ "\t" ++ "\u0085 " ++ "\u2028").toList, Text.isBlank c = true) ∧
    Text.Solid "tax \u00e9".toList ∧ '=' ∉ "tax \u00e9".toList ∧ (-1 / 0 : Float).isNaN = false ∧
    parseBinding "\u3000tax \u00e9\t=\u0085 -inf\u2028" = .ok ("tax \u00e9", -1 / 0) := by
  have hwhite : ∀ c ∈ ("\u3000" ++ "\t" ++ "\u0085 " ++ "\u2028").toList, Text.isBlank c = true :=
    List.all_eq_true.mp (by decide +kernel)
  have hname : Text.Solid "tax \u00e9".toList :=
    ⟨⟨'t', rfl, by decide +kernel⟩, '\u00e9', rfl, by decide +kernel⟩
  have hequals : '=' ∉ "tax \u00e9".toList := by decide +kernel
  have hx : (-1 / 0 : Float).isNaN = false := by decide +kernel
  have htext : "\u3000" ++ "tax \u00e9" ++ "\t" ++ "=" ++
      ("\u0085 " ++ Number.text (-1 / 0) ++ "\u2028") = "\u3000tax \u00e9\t=\u0085 -inf\u2028" := by
    decide +kernel
  refine ⟨hwhite, hname, hequals, hx, ?_⟩
  rw [← htext]
  exact parseBinding_outcome.1 _ _ _ _ _ _ hwhite hname hequals hx

end Reckon
