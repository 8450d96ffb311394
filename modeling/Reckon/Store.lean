import Reckon.Constant
import Reckon.Error

/-! # Stores

The variables of a program with their values, in strictly increasing order of their names. The
order makes two stores that bind the same names to the same values equal.
-/

namespace Reckon

structure Store where
  entries : List (String × Float)
  increasing : (entries.map Prod.fst).Pairwise (· < ·)
  deriving DecidableEq

namespace Store

/-- Puts an entry at its place, where it replaces one of the same name. -/
def insert (name : String) (value : Float) : List (String × Float) → List (String × Float)
  | [] => [(name, value)]
  | entry :: entries =>
    if name < entry.1 then (name, value) :: entry :: entries
    else if name = entry.1 then (name, value) :: entries
    else entry :: insert name value entries

theorem mem_names_insert {name other : String} {value : Float} {entries : List (String × Float)}
    (h : other ∈ (insert name value entries).map Prod.fst) :
    other = name ∨ other ∈ entries.map Prod.fst := by
  induction entries with
  | nil => simpa [insert] using h
  | cons entry entries ih =>
    simp only [insert] at h
    split at h
    · simpa using h
    · split at h
      · next he => simp_all
      · simp only [List.map_cons, List.mem_cons] at h ⊢
        rcases h with h | h
        · exact .inr (.inl h)
        · exact (ih h).imp_right .inr

theorem increasing_insert (name : String) (value : Float) {entries : List (String × Float)}
    (h : (entries.map Prod.fst).Pairwise (· < ·)) :
    ((insert name value entries).map Prod.fst).Pairwise (· < ·) := by
  induction entries with
  | nil => simp [insert]
  | cons entry entries ih =>
    rw [List.map_cons, List.pairwise_cons] at h
    simp only [insert]
    split
    · next hlt =>
      rw [List.map_cons, List.pairwise_cons, List.map_cons, List.pairwise_cons]
      refine ⟨?_, h⟩
      intro other ho
      rcases List.mem_cons.mp ho with rfl | ho
      · exact hlt
      · exact Std.lt_trans hlt (h.1 other ho)
    · next hlt =>
      split
      · next he => simpa [he] using h
      · next he =>
        rw [List.map_cons, List.pairwise_cons]
        refine ⟨?_, ih h.2⟩
        intro other ho
        rcases mem_names_insert ho with rfl | ho
        · exact Std.lt_of_le_of_ne (Std.not_lt.mp hlt) (Ne.symm he)
        · exact h.1 other ho

def empty : Store :=
  ⟨[], .nil⟩

def set (s : Store) (name : String) (value : Float) : Store :=
  ⟨insert name value s.entries, increasing_insert name value s.increasing⟩

def get? (s : Store) (name : String) : Option Float :=
  s.entries.lookup name

def get (s : Store) (name : String) : Except EvalError Float :=
  match s.get? name with
  | some value => .ok value
  | none => .error (.unknownVariable name)

def contains (s : Store) (name : String) : Bool :=
  (s.get? name).isSome

def size (s : Store) : Nat :=
  s.entries.length

def setAll (s : Store) (bindings : List (String × Float)) : Store :=
  bindings.foldl (fun s (name, value) => s.set name value) s

/-- The constants and then the bindings, of which a later one replaces an earlier one. -/
def ofBindings (bindings : List (String × Float)) : Store :=
  (empty.setAll constants).setAll bindings

/-- Whether two stores bind the same names to values that are equal as numbers. -/
def agrees (s t : Store) : Bool :=
  s.entries == t.entries

theorem lookup_cons (name : String) (entry : String × Float) (entries : List (String × Float)) :
    (entry :: entries).lookup name = if name = entry.1 then some entry.2 else entries.lookup name := by
  rw [List.lookup_cons]
  by_cases h : name = entry.1
  · simp [h]
  · simp [h, beq_eq_false_iff_ne.mpr h]

theorem lookup_insert (name other : String) (value : Float) (entries : List (String × Float)) :
    (insert name value entries).lookup other =
      if other = name then some value else entries.lookup other := by
  induction entries with
  | nil => simp only [insert, lookup_cons]
  | cons entry entries ih =>
    simp only [insert]
    split
    · rw [lookup_cons]
    · split
      · next he =>
        rw [lookup_cons, lookup_cons, ← he]
        split <;> rfl
      · next he =>
        rw [lookup_cons, lookup_cons, ih]
        by_cases h : other = entry.1
        · simp [h, Ne.symm he]
        · simp [h]

@[simp] theorem get?_set (s : Store) (name other : String) (value : Float) :
    (s.set name value).get? other = if other = name then some value else s.get? other :=
  lookup_insert name other value s.entries

end Store

end Reckon
