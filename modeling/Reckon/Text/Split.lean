/-! # Splitting

A sequence is cut at the first occurrence of a separator, and repeatedly at line
feeds into lines.
-/

namespace Reckon.Text

variable {α : Type} [DecidableEq α]

/-- The parts before and after the first `separator`; `none` if there is none. -/
def cut (separator : α) : List α → Option (List α × List α)
  | [] => none
  | x :: xs =>
    if x = separator then some ([], xs)
    else (cut separator xs).map fun (before, after) => (x :: before, after)

theorem eq_append_of_cut {separator : α} {xs before after : List α}
    (h : cut separator xs = some (before, after)) : xs = before ++ separator :: after := by
  induction xs generalizing before with
  | nil => simp [cut] at h
  | cons x xs ih =>
    by_cases hx : x = separator
    · simp_all [cut]
    · simp only [cut, hx, ↓reduceIte, Option.map_eq_some_iff] at h
      obtain ⟨⟨before', after'⟩, h, e⟩ := h
      simp only [Prod.mk.injEq] at e
      obtain ⟨rfl, rfl⟩ := e
      simp [ih h]

theorem cut_eq_none_iff {separator : α} {xs : List α} :
    cut separator xs = none ↔ separator ∉ xs := by
  induction xs with
  | nil => simp [cut]
  | cons x xs ih =>
    by_cases hx : x = separator
    · simp [cut, hx]
    · simp [cut, hx, ih, Ne.symm hx]

theorem cut_append_cons {separator : α} {before : List α} (after : List α)
    (h : separator ∉ before) : cut separator (before ++ separator :: after) = some (before, after) := by
  induction before with
  | nil => simp [cut]
  | cons x before ih =>
    rw [List.mem_cons, not_or] at h
    simp [cut, Ne.symm h.1, ih h.2]

theorem length_lt_of_cut {separator : α} {xs before after : List α}
    (h : cut separator xs = some (before, after)) : after.length < xs.length := by
  rw [eq_append_of_cut h]
  simp
  omega

/-- Removes one `mark` from the end, if it is there. -/
def dropFinal (mark : α) (xs : List α) : List α :=
  if xs.getLast? = some mark then xs.dropLast else xs

/-- The stretches that `feed` ends, without one `back` before it, and what follows the last of
them unless it is empty. -/
def stretches (feed back : α) (xs : List α) : List (List α) :=
  match _h : cut feed xs with
  | none => if xs.isEmpty then [] else [xs]
  | some (before, after) => dropFinal back before :: stretches feed back after
termination_by xs.length
decreasing_by exact length_lt_of_cut ‹_›

/-- The lines of a text: each ends at a line feed, before which one carriage return is dropped. -/
def lines (text : String) : List String :=
  (stretches '\n' '\r' text.toList).map .ofList

def cutEquals (text : String) : Option (String × String) :=
  (cut '=' text.toList).map fun (before, after) => (.ofList before, .ofList after)

end Reckon.Text
