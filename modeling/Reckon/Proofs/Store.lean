import Mathlib.Data.List.Dedup
import Mathlib.Data.List.Sort
import Reckon.Store

/-! # Stores and what is written to them

A store is determined by the values that its names are bound to. Entries that are written to it one
after another bind each of their names to its last value and leave all other names as they are.
-/

namespace Reckon

variable {name other : String} {value : Float} {entries us vs : List (String × Float)}

section Entries

theorem lookup_eq_some_iff_mem (h : (entries.map Prod.fst).Nodup) :
    entries.lookup name = some value ↔ (name, value) ∈ entries := by
  rw [List.lookup_eq_some_iff]
  constructor
  · rintro ⟨us, vs, rfl, -⟩
    exact List.mem_append_right us List.mem_cons_self
  · intro hm
    obtain ⟨us, vs, rfl⟩ := List.append_of_mem hm
    refine ⟨us, vs, rfl, fun p hp => bne_iff_ne.mpr ?_⟩
    rw [List.map_append, List.nodup_append] at h
    exact (h.2.2 p.1 (List.mem_map_of_mem hp) name (by simp)).symm

def last? (name : String) (entries : List (String × Float)) : Option Float :=
  entries.reverse.lookup name

theorem last?_cons (name : String) (entry : String × Float) (entries : List (String × Float)) :
    last? name (entry :: entries) =
      (last? name entries).or (if name = entry.1 then some entry.2 else none) := by
  unfold last?
  rw [List.reverse_cons, List.lookup_append, Store.lookup_cons]
  rfl

theorem last?_append (name : String) (us vs : List (String × Float)) :
    last? name (us ++ vs) = (last? name vs).or (last? name us) := by
  unfold last?
  rw [List.reverse_append, List.lookup_append]

theorem last?_eq_none_iff : last? name entries = none ↔ name ∉ entries.map Prod.fst := by
  unfold last?
  rw [List.lookup_eq_none_iff]
  simp only [List.mem_reverse, bne_iff_ne, List.mem_map, not_exists, not_and]
  exact forall₂_congr fun _ _ => ne_comm

theorem last?_eq_lookup (h : (entries.map Prod.fst).Nodup) (name : String) :
    last? name entries = entries.lookup name := by
  have hr : (entries.reverse.map Prod.fst).Nodup := by
    rwa [List.map_reverse, List.nodup_reverse]
  ext value
  rw [last?, lookup_eq_some_iff_mem hr, lookup_eq_some_iff_mem h, List.mem_reverse]

theorem last?_constants (name : String) : last? name constants = constants.lookup name :=
  last?_eq_lookup (by decide) name

end Entries

namespace Store

variable {s t : Store}

def names (s : Store) : List String :=
  s.entries.map Prod.fst

theorem nodup_names (s : Store) : s.names.Nodup := by
  apply List.Pairwise.imp _ s.increasing
  rintro name _ h rfl
  exact String.lt_irrefl name h

theorem mem_entries_iff : (name, value) ∈ s.entries ↔ s.get? name = some value :=
  (lookup_eq_some_iff_mem s.nodup_names).symm

theorem mem_names_iff : name ∈ s.names ↔ s.get? name ≠ none := by
  simp only [names, List.mem_map, Prod.exists, exists_and_right, exists_eq_right, mem_entries_iff,
    Option.ne_none_iff_exists']

theorem eq_of_get? (h : ∀ name, s.get? name = t.get? name) : s = t := by
  have : Std.Antisymm fun p q : String × Float => p.1 < q.1 :=
    ⟨fun _ _ hpq hqp => absurd hqp (String.lt_asymm hpq)⟩
  have : Std.Irrefl fun p q : String × Float => p.1 < q.1 := ⟨fun p => String.lt_irrefl p.1⟩
  have hentries : s.entries = t.entries :=
    (List.pairwise_map.mp s.increasing).eq_of_mem_iff (List.pairwise_map.mp t.increasing)
      fun p => by rw [← Prod.mk.eta (p := p), mem_entries_iff, mem_entries_iff, h]
  cases s
  cases t
  cases hentries
  rfl

theorem set_of_get? (h : s.get? name = some value) : s.set name value = s := by
  apply eq_of_get?
  intro other
  rw [get?_set]
  split
  · next e => rw [e, h]
  · rfl

theorem set_comm (h : name ≠ other) (s : Store) (value value' : Float) :
    (s.set name value).set other value' = (s.set other value').set name value := by
  apply eq_of_get?
  intro n
  simp only [get?_set]
  by_cases hn : n = name
  · rw [if_neg (hn.trans_ne h), if_pos hn, if_pos hn]
  · rw [if_neg hn, if_neg hn]

theorem get_eq_ok_iff : s.get name = .ok value ↔ s.get? name = some value := by
  unfold get
  cases s.get? name <;> simp

theorem get_eq_error_iff {e : EvalError} :
    s.get name = .error e ↔ e = .unknownVariable name ∧ s.get? name = none := by
  unfold get
  cases s.get? name <;> simp [eq_comm]

theorem contains_iff : s.contains name = true ↔ ∃ value, s.get name = .ok value := by
  simp only [contains, Option.isSome_iff_exists, get_eq_ok_iff]

theorem get?_setAll (s : Store) (entries : List (String × Float)) (name : String) :
    (s.setAll entries).get? name = (last? name entries).or (s.get? name) := by
  induction entries generalizing s with
  | nil => rfl
  | cons entry entries ih =>
    have hset : s.setAll (entry :: entries) = (s.set entry.1 entry.2).setAll entries := rfl
    rw [hset, ih, get?_set, last?_cons, Option.or_assoc]
    split <;> rfl

theorem get?_ofBindings (bindings : List (String × Float)) (name : String) :
    (ofBindings bindings).get? name = (last? name bindings).or (constants.lookup name) := by
  rw [ofBindings, get?_setAll, get?_setAll, last?_constants]
  exact congrArg _ Option.or_none

end Store

end Reckon
