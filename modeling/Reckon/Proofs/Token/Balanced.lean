import Mathlib.Data.List.Induction
import Mathlib.Data.List.Infix
import Reckon.Proofs.Token.Place

/-! # Balanced parentheses

Tokens are balanced if each parenthesis that closes has its own before it and none stays open. A group
consists of balanced tokens in parentheses: among balanced tokens each parenthesis begins or ends one.
-/

namespace Reckon

section Position

variable {α : Type} {x y : α} {us vs xs ys : List α}

theorem exists_of_append_eq (h : us ++ x :: vs = xs ++ ys) :
    (∃ ws, xs = us ++ x :: ws) ∨ ∃ ws, us = xs ++ ws ∧ ys = ws ++ x :: vs := by
  rcases List.append_eq_append_iff.mp h with ⟨as, hxs, has⟩ | ⟨bs, hus, hys⟩
  · cases as with
    | nil => exact .inr ⟨[], by simpa using hxs.symm, has.symm⟩
    | cons a as =>
      obtain ⟨rfl, -⟩ := List.cons.inj has
      exact .inl ⟨as, hxs⟩
  · exact .inr ⟨bs, hus, hys⟩

theorem exists_of_append_singleton_eq (h : us ++ x :: vs = xs ++ [y]) :
    (∃ ws, xs = us ++ x :: ws) ∨ us = xs ∧ x = y := by
  rcases exists_of_append_eq h with hxs | ⟨ws, rfl, hy⟩
  · exact .inl hxs
  · right
    rw [eq_comm, List.append_eq_singleton_iff] at hy
    rcases hy with ⟨rfl, hx⟩ | ⟨-, hx⟩
    · exact ⟨List.append_nil xs, (List.cons.inj hx).1⟩
    · cases hx

end Position

namespace Token

variable {ts us vs : List Token} {t : Token}

/-- Each parenthesis that closes has its own before it that opens, and none stays open. -/
structure Balanced (ts : List Token) : Prop where
  count_le : ∀ us, us <+: ts → us.count .closing ≤ us.count .opening
  count_eq : ts.count .closing = ts.count .opening

theorem balanced_iff : Balanced ts ↔ (∀ us ∈ ts.inits, us.count .closing ≤ us.count .opening) ∧
    ts.count .closing = ts.count .opening := by
  simp only [List.mem_inits]
  exact ⟨fun h => ⟨h.count_le, h.count_eq⟩, fun h => ⟨h.1, h.2⟩⟩

instance : DecidablePred Balanced :=
  fun _ => decidable_of_iff' _ balanced_iff

/-- Whether a parenthesis that closes behind the tokens is the end of a group. -/
def ClosesGroup (ts : List Token) : Prop :=
  ∃ us, Balanced us ∧ enclosed us <:+ ts ++ [.closing]

/-- Whether a parenthesis that opens before the tokens is the start of a group. -/
def OpensGroup (ts : List Token) : Prop :=
  ∃ us, Balanced us ∧ enclosed us <+: .opening :: ts

@[simp] theorem count_opening_enclosed (ts : List Token) :
    (enclosed ts).count .opening = ts.count .opening + 1 := by
  simp [enclosed]

@[simp] theorem count_closing_enclosed (ts : List Token) :
    (enclosed ts).count .closing = ts.count .closing + 1 := by
  simp [enclosed]

theorem balanced_nil : Balanced [] :=
  ⟨fun us hus => by rw [List.prefix_nil.mp hus, List.count_nil, List.count_nil], rfl⟩

theorem balanced_singleton (ho : t ≠ .opening) (hc : t ≠ .closing) : Balanced [t] := by
  refine ⟨fun us hus => ?_, by simp [ho, hc]⟩
  have hnot : .closing ∉ us := fun hm => hc (List.mem_singleton.mp (hus.subset hm)).symm
  rw [List.count_eq_zero.mpr hnot]
  exact Nat.zero_le _

theorem Balanced.append (h : Balanced ts) (h' : Balanced us) : Balanced (ts ++ us) := by
  refine ⟨fun vs hvs => ?_, by rw [List.count_append, List.count_append, h.count_eq, h'.count_eq]⟩
  rcases List.prefix_or_prefix_of_prefix hvs (List.prefix_append ts us) with hp | ⟨ws, rfl⟩
  · exact h.count_le vs hp
  · have hws := h'.count_le ws ((List.prefix_append_right_inj ts).mp hvs)
    rw [List.count_append, List.count_append, h.count_eq]
    exact Nat.add_le_add_left hws _

theorem balanced_enclosed (h : Balanced ts) : Balanced (enclosed ts) := by
  refine ⟨fun us hus => ?_, by simp [h.count_eq]⟩
  rw [enclosed, List.prefix_concat_iff, List.prefix_cons_iff] at hus
  rcases hus with rfl | rfl | ⟨vs, rfl, hvs⟩
  · simp [h.count_eq]
  · rw [List.count_nil, List.count_nil]
  · have hle := h.count_le vs hvs
    rw [List.count_cons_self, List.count_cons_of_ne (by decide)]
    omega

theorem Balanced.count_lt_of_enclosed (h : Balanced us) (ho : t ≠ .opening) (hc : t ≠ .closing)
    (hus : enclosed us = ts ++ t :: vs) : ts.count .closing < ts.count .opening := by
  rw [enclosed, List.cons_append] at hus
  rcases List.cons_eq_append_iff.mp hus with ⟨rfl, htail⟩ | ⟨ws, rfl, htail⟩
  · exact absurd (List.cons.inj htail).1 ho
  · rcases exists_of_append_singleton_eq htail.symm with ⟨xs, rfl⟩ | ⟨rfl, rfl⟩
    · have hle := h.count_le ws (List.prefix_append ws _)
      rw [List.count_cons_self, List.count_cons_of_ne (by decide)]
      omega
    · exact absurd rfl hc

/-- Either no part from the start closes more parentheses than it opens, or the first one that does
closes just the one around the tokens. -/
theorem count_le_or_exists_closing (ts : List Token) :
    (∀ us, us <+: ts → us.count .closing ≤ us.count .opening) ∨
      ∃ us vs, ts = us ++ .closing :: vs ∧ Balanced us := by
  induction ts using List.reverseRecOn with
  | nil => exact .inl balanced_nil.count_le
  | append_singleton ts t ih =>
    rcases ih with h | ⟨us, vs, rfl, hus⟩
    · by_cases hle : (ts ++ [t]).count .closing ≤ (ts ++ [t]).count .opening
      · left
        intro us hus
        rcases List.prefix_concat_iff.mp hus with rfl | hus
        · exact hle
        · exact h us hus
      · right
        have hts := h ts (List.prefix_refl ts)
        rw [List.count_append, List.count_append, List.count_singleton, List.count_singleton] at hle
        obtain rfl : t = .closing := by
          by_contra ht
          rw [if_neg (by simpa using ht)] at hle
          omega
        rw [if_pos (by decide), if_neg (by decide)] at hle
        exact ⟨ts, [], rfl, h, by omega⟩
    · exact .inr ⟨us, vs ++ [t], by simp, hus⟩

theorem count_le_or_exists_opening (ts : List Token) :
    (∀ us, us <:+ ts → us.count .opening ≤ us.count .closing) ∨
      ∃ us vs, ts = us ++ .opening :: vs ∧ Balanced vs := by
  induction ts with
  | nil => exact .inl fun us hus => by rw [List.suffix_nil.mp hus, List.count_nil, List.count_nil]
  | cons t ts ih =>
    rcases ih with h | ⟨us, vs, rfl, hvs⟩
    · by_cases hle : (t :: ts).count .opening ≤ (t :: ts).count .closing
      · left
        intro us hus
        rcases List.suffix_cons_iff.mp hus with rfl | hus
        · exact hle
        · exact h us hus
      · right
        have hts := h ts (List.suffix_refl ts)
        rw [List.count_cons, List.count_cons] at hle
        obtain rfl : t = .opening := by
          by_contra ht
          rw [if_neg (show ¬ (t == Token.opening) = true by simpa using ht)] at hle
          omega
        rw [if_pos (by decide), if_neg (by decide)] at hle
        refine ⟨[], ts, rfl, ?_, by omega⟩
        rintro us ⟨vs, rfl⟩
        have hvs := h vs (List.suffix_append us vs)
        rw [List.count_append, List.count_append] at hle hts
        omega
    · exact .inr ⟨t :: us, vs, rfl, hvs⟩

theorem Balanced.closesGroup (h : Balanced (us ++ .closing :: vs)) : ClosesGroup us := by
  have hle := h.count_le (us ++ [.closing]) ⟨vs, by simp⟩
  rw [List.count_append, List.count_append, List.count_singleton_self,
    List.count_singleton, if_neg (by decide)] at hle
  rcases count_le_or_exists_opening us with hus | ⟨ws, xs, rfl, hxs⟩
  · have := hus us (List.suffix_refl us)
    omega
  · exact ⟨xs, hxs, ws, by simp [enclosed]⟩

theorem Balanced.opensGroup (h : Balanced (us ++ .opening :: vs)) : OpensGroup vs := by
  have hle := h.count_le us (List.prefix_append us _)
  have heq := h.count_eq
  rw [List.count_append, List.count_append, List.count_cons_self,
    List.count_cons_of_ne (by decide)] at heq
  rcases count_le_or_exists_closing vs with hvs | ⟨ws, xs, rfl, hws⟩
  · have := hvs vs (List.prefix_refl vs)
    omega
  · exact ⟨ws, hws, xs, by simp [enclosed]⟩

end Token

end Reckon
