import Mathlib.Data.List.Basic
import Reckon.Proofs.Text.Blank
import Reckon.Text.Split

/-! # Split texts

Where a sequence is cut does not depend on what stands behind the first separator, and white space at
the ends of a text only shows at the ends of its parts. When each value of a sequence is replaced by
its code, and only the separators have codes with separators in them, the parts are those of the codes.
-/

namespace Reckon.Text

section Cut

variable {α : Type} [DecidableEq α] {separator : α} {xs ys before after : List α}

theorem not_mem_of_cut (h : cut separator xs = some (before, after)) : separator ∉ before := by
  induction xs generalizing before with
  | nil => simp [cut] at h
  | cons x xs ih =>
    by_cases hx : x = separator
    · simp only [cut, hx, ↓reduceIte, Option.some.injEq, Prod.mk.injEq] at h
      rw [← h.1]
      exact List.not_mem_nil
    · simp only [cut, hx, ↓reduceIte, Option.map_eq_some_iff] at h
      obtain ⟨⟨before', after'⟩, h, e⟩ := h
      cases e
      exact List.not_mem_cons_of_ne_of_not_mem (Ne.symm hx) (ih h)

theorem cut_append (h : separator ∉ xs) (ys : List α) :
    cut separator (xs ++ ys) = (cut separator ys).map (Prod.map (xs ++ ·) id) := by
  cases hc : cut separator ys with
  | none =>
    rw [cut_eq_none_iff] at hc
    exact cut_eq_none_iff.mpr fun hm => (List.mem_append.mp hm).elim h hc
  | some parts =>
    obtain ⟨before, after⟩ := parts
    rw [eq_append_of_cut hc, ← List.append_assoc]
    exact cut_append_cons after fun hm => (List.mem_append.mp hm).elim h (not_mem_of_cut hc)

end Cut

section Equals

variable {text left : String}

theorem cutEquals_eq_none (h : '=' ∉ text.toList) : cutEquals text = none := by
  rw [cutEquals, cut_eq_none_iff.mpr h, Option.map_none]

theorem cutEquals_append (h : '=' ∉ left.toList) (right : String) :
    cutEquals (left ++ "=" ++ right) = some (left, right) := by
  have htext : (left ++ "=" ++ right).toList = left.toList ++ '=' :: right.toList := by simp
  rw [cutEquals, htext, cut_append_cons _ h]
  simp

theorem exists_eq_append_of_mem (h : '=' ∈ text.toList) :
    ∃ left right, text = left ++ "=" ++ right ∧ '=' ∉ left.toList := by
  obtain ⟨us, vs, htext, hus⟩ := List.eq_append_cons_of_mem h
  refine ⟨.ofList us, .ofList vs, String.toList_injective ?_, ?_⟩
  · simpa using htext
  · rwa [String.toList_ofList]

end Equals

section Stretches

variable {α : Type} [DecidableEq α] {feed back : α} {xs : List α} {xss : List (List α)}

theorem stretches_of_cut_eq_none (h : cut feed xs = none) (back : α) :
    stretches feed back xs = if xs.isEmpty then [] else [xs] := by
  rw [stretches]
  split
  · rfl
  · next hc => cases h.symm.trans hc

theorem stretches_of_cut {before after : List α} (h : cut feed xs = some (before, after))
    (back : α) : stretches feed back xs = dropFinal back before :: stretches feed back after := by
  rw [stretches]
  split
  · next hc => cases h.symm.trans hc
  · next hc =>
    cases h.symm.trans hc
    rfl

theorem not_mem_of_mem_stretches {ys : List α} (h : ys ∈ stretches feed back xs) : feed ∉ ys := by
  induction xs using stretches.induct feed with
  | case1 xs hc he =>
    rw [stretches_of_cut_eq_none hc, if_pos he] at h
    cases h
  | case2 xs hc he =>
    rw [stretches_of_cut_eq_none hc, if_neg he, List.mem_singleton] at h
    exact h ▸ cut_eq_none_iff.mp hc
  | case3 xs before after hc ih =>
    rw [stretches_of_cut hc, List.mem_cons] at h
    rcases h with rfl | h
    · unfold dropFinal
      split
      · exact fun hm => not_mem_of_cut hc ((List.dropLast_sublist before).subset hm)
      · exact not_mem_of_cut hc
    · exact ih h

theorem stretches_flatMap_concat (back : α) (h : ∀ xs ∈ xss, feed ∉ xs) :
    stretches feed back (xss.flatMap (· ++ [feed])) = xss.map (dropFinal back) := by
  induction xss with
  | nil => exact stretches_of_cut_eq_none rfl back
  | cons xs xss ih =>
    obtain ⟨hxs, hxss⟩ := List.forall_mem_cons.mp h
    have hcut : cut feed ((xs :: xss).flatMap (· ++ [feed])) =
        some (xs, xss.flatMap (· ++ [feed])) := by
      simpa using cut_append_cons (xss.flatMap (· ++ [feed])) hxs
    rw [stretches_of_cut hcut, ih hxss, List.map_cons]

theorem dropFinal_concat (mark : α) (xs : List α) : dropFinal mark (xs ++ [mark]) = xs := by
  simp [dropFinal]

theorem dropFinal_of_not_mem {mark : α} (h : mark ∉ xs) : dropFinal mark xs = xs :=
  if_neg fun hlast => h (List.mem_of_getLast? hlast)

theorem stretches_flatMap_append (hne : feed ≠ back) (h : ∀ xs ∈ xss, feed ∉ xs) :
    stretches feed back (xss.flatMap (· ++ [back, feed])) = xss := by
  have hback : ∀ xs ∈ xss.map (· ++ [back]), feed ∉ xs := by
    simpa [hne] using h
  have hends : xss.flatMap (· ++ [back, feed]) = (xss.map (· ++ [back])).flatMap (· ++ [feed]) := by
    simp [List.flatMap_map]
  rw [hends, stretches_flatMap_concat back hback, List.map_map]
  simp [Function.comp_def, dropFinal_concat]

/-- The last stretch is left out if it is empty, and a `feed` behind the values ends it in any case. -/
theorem exists_stretches (feed back : α) (xs : List α) : ∃ xss last, xss.length = xs.count feed ∧
    stretches feed back xs = xss ++ (if last.isEmpty then [] else [last]) ∧
    ∀ ys, stretches feed back (xs ++ feed :: ys) =
      xss ++ dropFinal back last :: stretches feed back ys := by
  induction xs using stretches.induct feed with
  | case1 xs hc he | case2 xs hc he =>
    have hmem := cut_eq_none_iff.mp hc
    refine ⟨[], xs, (List.count_eq_zero.mpr hmem).symm, ?_, fun ys => ?_⟩
    · rw [stretches_of_cut_eq_none hc, List.nil_append]
    · rw [stretches_of_cut (cut_append_cons ys hmem), List.nil_append]
  | case3 xs before after hc ih =>
    obtain ⟨xss, last, hlength, hxs, happend⟩ := ih
    refine ⟨dropFinal back before :: xss, last, ?_, ?_, fun ys => ?_⟩
    · have hbefore := List.count_eq_zero.mpr (not_mem_of_cut hc)
      rw [eq_append_of_cut hc, List.count_append, List.count_cons_self, hbefore, List.length_cons,
        hlength, Nat.zero_add]
    · rw [stretches_of_cut hc, hxs, List.cons_append]
    · have hcut : cut feed (xs ++ feed :: ys) = some (before, after ++ feed :: ys) := by
        rw [eq_append_of_cut hc, List.append_assoc, List.cons_append]
        exact cut_append_cons _ (not_mem_of_cut hc)
      rw [stretches_of_cut hcut, happend, List.cons_append]

theorem exists_lines_eq {ls : List String} (h : ∀ line ∈ ls, '\n' ∉ line.toList) :
    ∃ text, lines text = ls := by
  refine ⟨.ofList ((ls.map String.toList).flatMap (· ++ ['\r', '\n'])), ?_⟩
  have hfeed : ∀ cs ∈ ls.map String.toList, '\n' ∉ cs := by simpa using h
  rw [lines, String.toList_ofList, stretches_flatMap_append (by decide) hfeed]
  simp

end Stretches

section Trim

theorem map_trim_cutEquals_trim (text : String) :
    (cutEquals (trim text)).map (Prod.map trim trim) = (cutEquals text).map (Prod.map trim trim) := by
  obtain ⟨bs, bs', hb, hb', h⟩ := exists_blank_append_trim text
  have hne : ∀ {cs : List Char}, (∀ c ∈ cs, isBlank c = true) → '=' ∉ cs := fun hcs hm =>
    absurd (hcs '=' hm) (by decide)
  cases hc : cut '=' (trim text).toList with
  | none =>
    have hn : '=' ∉ text.toList := by
      rw [h]
      simp [hne hb, hne hb', cut_eq_none_iff.mp hc]
    rw [cutEquals, cutEquals, hc, cut_eq_none_iff.mpr hn]
  | some parts =>
    obtain ⟨left, right⟩ := parts
    have hl : '=' ∉ bs ++ left := fun hm =>
      (List.mem_append.mp hm).elim (hne hb) (not_mem_of_cut hc)
    have ht : text.toList = (bs ++ left) ++ '=' :: (right ++ bs') := by
      rw [h, eq_append_of_cut hc]
      simp
    rw [cutEquals, cutEquals, hc, ht, cut_append_cons _ hl]
    simp only [Option.map_some, Prod.map_apply, trim_blank_append hb, trim_append_blank _ hb']

end Trim

section Code

variable {α β : Type} [DecidableEq α] [DecidableEq β] {code : α → List β} {feed back : α}
  {feed' back' : β}

/-- One value codes another, and is in the code of no other. -/
structure Marks (code : α → List β) (a : α) (b : β) : Prop where
  code_eq : code a = [b]
  eq_of_mem : ∀ x, b ∈ code x → x = a

theorem cut_flatMap (h : Marks code feed feed') (xs : List α) :
    cut feed' (xs.flatMap code) =
      (cut feed xs).map (Prod.map (List.flatMap code) (List.flatMap code)) := by
  induction xs with
  | nil => rfl
  | cons x xs ih =>
    rw [List.flatMap_cons]
    by_cases hx : x = feed
    · simp [hx, cut, h.code_eq]
    · rw [cut_append (fun hm => hx (h.eq_of_mem x hm)), ih, cut, if_neg hx]
      cases cut feed xs <;> rfl

theorem dropFinal_flatMap (h : Marks code back back') (hne : ∀ x, code x ≠ []) (xs : List α) :
    dropFinal back' (xs.flatMap code) = (dropFinal back xs).flatMap code := by
  rcases xs.eq_nil_or_concat with rfl | ⟨ys, x, rfl⟩
  · rfl
  · have hlast : ((ys.concat x).flatMap code).getLast? = some back' ↔ x = back := by
      rw [List.concat_eq_append, List.flatMap_append, List.flatMap_singleton,
        List.getLast?_append_of_ne_nil _ (hne x)]
      constructor
      · exact fun hl => h.eq_of_mem x (List.mem_of_getLast? hl)
      · rintro rfl
        rw [h.code_eq]
        rfl
    by_cases hx : x = back
    · rw [dropFinal, if_pos (hlast.mpr hx)]
      simp [dropFinal, hx, h.code_eq]
    · rw [dropFinal, if_neg (mt hlast.mp hx)]
      simp [dropFinal, hx]

theorem stretches_flatMap (hf : Marks code feed feed') (hb : Marks code back back')
    (hne : ∀ x, code x ≠ []) (xs : List α) :
    stretches feed' back' (xs.flatMap code) = (stretches feed back xs).map (List.flatMap code) := by
  have hnone {xs : List α} (hc : cut feed xs = none) : cut feed' (xs.flatMap code) = none := by
    rw [cut_flatMap hf, hc]
    rfl
  induction xs using stretches.induct feed with
  | case1 xs hc he =>
    rw [stretches_of_cut_eq_none hc, stretches_of_cut_eq_none (hnone hc), List.isEmpty_iff.mp he]
    rfl
  | case2 xs hc he =>
    have he' : ¬ (xs.flatMap code).isEmpty := by
      rw [List.isEmpty_iff, List.flatMap_eq_nil_iff]
      cases xs with
      | nil => exact absurd rfl he
      | cons x xs => exact fun h => hne x (h x List.mem_cons_self)
    rw [stretches_of_cut_eq_none hc, stretches_of_cut_eq_none (hnone hc), if_neg he, if_neg he']
    rfl
  | case3 xs before after hc ih =>
    have hc' : cut feed' (xs.flatMap code) = some (before.flatMap code, after.flatMap code) := by
      rw [cut_flatMap hf, hc]
      rfl
    rw [stretches_of_cut hc, stretches_of_cut hc', List.map_cons, ih, dropFinal_flatMap hb hne]

end Code

end Reckon.Text
