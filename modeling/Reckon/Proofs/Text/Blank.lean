import Mathlib.Data.List.TakeWhile
import Reckon.Text.Blank

/-! # Trimmed texts

White space at the ends of a text does not matter to trimming, which leaves a text as it is that neither
begins nor ends with white space. Every text is white space around what trimming leaves of it.
-/

namespace Reckon.Text

variable {c : Char} {cs bs : List Char}

/-- The characters begin and end, and both with no white space. -/
structure Solid (cs : List Char) : Prop where
  head : ∃ c ∈ cs.head?, isBlank c = false
  last : ∃ c ∈ cs.getLast?, isBlank c = false

theorem Solid.ne_empty {text : String} (h : Solid text.toList) : text ≠ "" := by
  rintro rfl
  obtain ⟨⟨c, hc, -⟩, -⟩ := h
  cases hc

theorem solid_of_forall (hne : cs ≠ []) (h : ∀ c ∈ cs, isBlank c = false) : Solid cs :=
  ⟨⟨cs.head hne, List.head_mem_head? hne, h _ (List.head_mem hne)⟩,
    ⟨cs.getLast hne, List.getLast_mem_getLast? hne, h _ (List.getLast_mem hne)⟩⟩

theorem Solid.cons (h : Solid cs) (hc : isBlank c = false) : Solid (c :: cs) := by
  obtain ⟨-, d, hd, hb⟩ := h
  refine ⟨⟨c, rfl, hc⟩, d, ?_, hb⟩
  rw [Option.mem_def] at hd ⊢
  rw [List.getLast?_cons, hd]
  rfl

theorem Solid.append {ds : List Char} (h : Solid cs) (mid : List Char) (h' : Solid ds) :
    Solid (cs ++ (mid ++ ds)) := by
  obtain ⟨⟨c, hc, hb⟩, -⟩ := h
  obtain ⟨-, d, hd, hb'⟩ := h'
  rw [Option.mem_def] at hc hd
  exact ⟨⟨c, by simp [hc], hb⟩, d, by simp [hd], hb'⟩

theorem trim_blank_append (hb : ∀ b ∈ bs, isBlank b = true) (cs : List Char) :
    trim (.ofList (bs ++ cs)) = trim (.ofList cs) := by
  simp only [trim, trimStart, String.toList_ofList, List.dropWhile_append_of_pos hb]

theorem trimEnd_append_blank (cs : List Char) (hb : ∀ b ∈ bs, isBlank b = true) :
    trimEnd (cs ++ bs) = trimEnd cs := by
  have hb' : ∀ b ∈ bs.reverse, isBlank b = true := fun b h => hb b (List.mem_reverse.mp h)
  rw [trimEnd, trimStart, List.reverse_append, List.dropWhile_append_of_pos hb', trimEnd, trimStart]

theorem trim_append_blank (cs : List Char) (hb : ∀ b ∈ bs, isBlank b = true) :
    trim (.ofList (cs ++ bs)) = trim (.ofList cs) := by
  simp only [trim, trimStart, String.toList_ofList, List.dropWhile_append]
  split
  · next h =>
    rw [List.isEmpty_iff.mp h, List.dropWhile_eq_nil_iff.mpr hb]
  · rw [trimEnd_append_blank _ hb]

theorem trim_white_append {u v : String} (hu : ∀ c ∈ u.toList, isBlank c = true)
    (hv : ∀ c ∈ v.toList, isBlank c = true) (text : String) :
    trim (u ++ text ++ v) = trim text := by
  have htext : u ++ text ++ v = .ofList (u.toList ++ (text.toList ++ v.toList)) := by
    apply String.toList_injective
    simp
  rw [htext, trim_blank_append hu, trim_append_blank _ hv, String.ofList_toList]

theorem trimStart_eq_self (h : ∃ c ∈ cs.head?, isBlank c = false) : trimStart cs = cs := by
  obtain ⟨c, hc, hb⟩ := h
  cases cs with
  | nil => rfl
  | cons d cs =>
    obtain rfl : d = c := by simpa using hc
    simp [trimStart, hb]

theorem Solid.trim_eq {text : String} (h : Solid text.toList) : trim text = text := by
  obtain ⟨hhead, hlast⟩ := h
  rw [← List.head?_reverse] at hlast
  rw [trim, trimStart_eq_self hhead, trimEnd, trimStart_eq_self hlast, List.reverse_reverse,
    String.ofList_toList]

theorem exists_blank_append_trim (text : String) : ∃ bs bs', (∀ b ∈ bs, isBlank b = true) ∧
    (∀ b ∈ bs', isBlank b = true) ∧ text.toList = bs ++ ((trim text).toList ++ bs') := by
  refine ⟨text.toList.takeWhile isBlank, ((trimStart text.toList).reverse.takeWhile isBlank).reverse,
    fun _ => List.mem_takeWhile_imp, fun b hb => ?_, ?_⟩
  · exact List.mem_takeWhile_imp (List.mem_reverse.mp hb)
  · rw [trim, String.toList_ofList, trimEnd, trimStart, trimStart, ← List.reverse_append,
      List.takeWhile_append_dropWhile, List.reverse_reverse, List.takeWhile_append_dropWhile]

theorem trim_eq_empty_iff {text : String} :
    trim text = "" ↔ ∀ c ∈ text.toList, isBlank c = true := by
  constructor
  · intro h
    obtain ⟨bs, bs', hb, hb', htext⟩ := exists_blank_append_trim text
    rw [htext, h]
    simpa [or_imp, forall_and] using ⟨hb, hb'⟩
  · intro h
    have htrim := trim_append_blank [] h
    rw [List.nil_append, String.ofList_toList] at htrim
    rw [htrim]
    rfl

theorem solid_trim {text : String} (h : trim text ≠ "") : Solid (trim text).toList := by
  have hne : trimEnd (trimStart text.toList) ≠ [] := fun hnil => h (by rw [trim, hnil])
  have hdrop {cs : List Char} (hcs : trimStart cs ≠ []) :
      ∃ c ∈ (trimStart cs).head?, isBlank c = false := by
    refine ⟨_, List.head_mem_head? hcs, ?_⟩
    exact List.head_dropWhile_not isBlank hcs
  rw [trim, String.toList_ofList]
  constructor
  · have hhead : trimEnd (trimStart text.toList) <+: trimStart text.toList := by
      rw [trimEnd, trimStart, ← List.reverse_suffix, List.reverse_reverse]
      exact List.dropWhile_suffix isBlank
    obtain ⟨c, hc, hb⟩ := hdrop (hhead.ne_nil hne)
    obtain ⟨ds, hds⟩ := hhead
    refine ⟨c, ?_, hb⟩
    rwa [← hds, List.head?_append, List.head?_eq_some_head hne, Option.some_or,
      ← List.head?_eq_some_head hne] at hc
  · rw [trimEnd, List.getLast?_reverse]
    exact hdrop fun hnil => hne (by rw [trimEnd, hnil, List.reverse_nil])

theorem exists_eq_white_append_trim (text : String) : ∃ u v : String,
    (∀ c ∈ u.toList, isBlank c = true) ∧ (∀ c ∈ v.toList, isBlank c = true) ∧
      text = u ++ trim text ++ v := by
  obtain ⟨bs, bs', hb, hb', h⟩ := exists_blank_append_trim text
  refine ⟨.ofList bs, .ofList bs', by simpa using hb, by simpa using hb', ?_⟩
  apply String.toList_injective
  simpa using h

@[simp] theorem trim_trim (text : String) : trim (trim text) = trim text := by
  obtain ⟨bs, bs', hb, hb', h⟩ := exists_blank_append_trim text
  calc trim (trim text)
      = trim (.ofList (bs ++ ((trim text).toList ++ bs'))) := by
        rw [trim_blank_append hb, trim_append_blank _ hb', String.ofList_toList]
    _ = trim text := by rw [← h, String.ofList_toList]

end Reckon.Text
