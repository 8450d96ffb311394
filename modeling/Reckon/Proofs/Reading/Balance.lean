import Reckon.Proofs.Reading

/-! # The balance of operands

Reading never checks what follows an operand: it leaves one operand more at hand for each that
stands side by side with the one before it, and one fewer for each that is missing. What is read as
one tree therefore has as many operands side by side as it has missing ones.
-/

namespace Reckon

namespace Token

variable {ts us : List Token} {t : Token}

/-- Two tokens follow one another that end and begin an operand, with no operator between them. -/
def SideBySide (ts : List Token) : Prop :=
  ∃ t u, [t, u] <:+: ts ∧ t.awaits = false ∧ u.begins = true

/-- Whether an operand begins at the place although none is due there. -/
def isSurplus (m : Bool × Token) : Bool :=
  !m.1 && m.2.begins

/-- Whether an operand is due at the place and the token neither begins nor signs one. -/
def isMissing (m : Bool × Token) : Bool :=
  m.1 && !m.2.begins && m.2 != .operator .sub

def surplus (ts : List Token) : ℕ :=
  (places ts).countP isSurplus

/-- The operands that are due where none begins, also behind the last token. -/
def missing (ts : List Token) : ℕ :=
  (places ts).countP isMissing + (due ts).toNat

theorem sideBySide_iff : SideBySide ts ↔ ∃ m ∈ places ts, isSurplus m = true := by
  constructor
  · rintro ⟨t, u, ⟨us, vs, rfl⟩, ht, hu⟩
    refine ⟨(false, u), mem_places_iff.mpr ⟨us ++ [t], vs, by simp, ?_⟩, by simp [isSurplus, hu]⟩
    rw [due_concat, ht]
  · rintro ⟨⟨d, u⟩, hm, hs⟩
    obtain ⟨us, vs, rfl, rfl⟩ := mem_places_iff.mp hm
    obtain ⟨hd, hu⟩ : due us = false ∧ u.begins = true := by simpa [isSurplus] using hs
    rcases List.eq_nil_or_concat us with rfl | ⟨us, t, rfl⟩
    · simp at hd
    · rw [List.concat_eq_append, due_concat] at hd
      exact ⟨t, u, ⟨us, vs, by simp⟩, hd, hu⟩

instance : DecidablePred SideBySide :=
  fun _ => decidable_of_iff' _ sideBySide_iff

theorem surplus_pos_iff : 0 < surplus ts ↔ SideBySide ts := by
  rw [surplus, List.countP_pos_iff, sideBySide_iff]

theorem countP_places_concat (p : Bool × Token → Bool) (ts : List Token) (t : Token) :
    (places (ts ++ [t])).countP p = (places ts).countP p + (p (due ts, t)).toNat := by
  rw [places_concat, List.countP_append, List.countP_singleton]
  cases p (due ts, t) <;> rfl

theorem countP_places_append_cons (p : Bool × Token → Bool) (ts us : List Token)
    (h : t.awaits = true) : (places (ts ++ t :: us)).countP p =
      (places ts).countP p + (p (due ts, t)).toNat + (places us).countP p := by
  rw [places_append_cons h, List.countP_append, List.countP_cons]
  cases p (due ts, t) with
  | false => simp
  | true => simp; omega

end Token

open Reckon.Expr Token

variable {power : Associativity} {part : Part} {σ σ' : List Expr} {ts : List Token}

/-- What reading leaves at hand is one operand, those that are surplus and not those missing. -/
theorem Reads.balance (h : Reads power part σ ts σ') :
    σ'.length + missing ts = σ.length + 1 + surplus ts := by
  unfold missing surplus
  induction h with
  | nil => rfl
  | @operand ns w σ ts σ' t e _ he hn hw ih =>
    have hb : t.begins = true := by cases he <;> rfl
    rw [countP_places_concat, countP_places_concat, due_concat, he.not_awaits]
    cases hd : due ts <;> simp [hd, hb, isSurplus, isMissing] at ih ⊢ <;> omega
  | @unary w σ ts σ' p _ hp hd ih =>
    rw [countP_places_concat, countP_places_concat, due_concat, Pending.awaits_token]
    rcases Pending.eq_of_isUnary hp with rfl | ⟨f, rfl⟩
    · simp [hd rfl, Pending.token, begins, isSurplus, isMissing] at ih ⊢
      omega
    · cases hd : due ts <;> simp [hd, Pending.token, begins, isSurplus, isMissing] at ih ⊢ <;> omega
  | @group w σ ts σ' us e τ _ _ hd ih ihg =>
    simp only [places_append_enclosed, due_append_enclosed, List.countP_append, List.countP_cons]
    cases hd' : due ts <;> simp [hd, hd', begins, isSurplus, isMissing] at ih ihg ⊢ <;> omega
  | bare _ ih => exact ih
  | applied _ _ ih => simpa using ih
  | link _ ih => exact ih
  | @chain op σ ts ρ us l r τ _ hd _ ihl ihr =>
    have hs : isSurplus (due ts, .operator op) = false := by simp [isSurplus, begins]
    have hm : isMissing (due ts, .operator op) = due ts := by
      cases hd' : due ts with
      | false => rfl
      | true => simpa [isMissing, begins] using fun hop => by simp [hd hop] at hd'
    simp only [countP_places_append_cons _ ts us (t := .operator op) rfl,
      due_append_cons (t := .operator op) rfl, hs, hm, Bool.toNat_false, List.length_cons] at ihr ⊢
    omega

end Reckon
