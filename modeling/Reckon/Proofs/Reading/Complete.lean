import Mathlib.Order.Basic
import Reckon.Proofs.Reading

/-! # Drafts take what reads

A draft that awaits an operand takes the tokens of any part. What it comes to is, once reduced as
far as the part may be, the draft that holds the operands the part leaves.
-/

namespace Reckon

namespace Draft

open Reckon.Expr Token

variable {options : Options} {c : Category} {op : Operator} {e : Expr} {ts us : List Token}
  {σ σ' ρ τ : List Expr} {π π' w : List Pending} {k : ℕ} {x : List Expr × List Pending}

theorem tier_eq_bound (options : Options) (op : Operator) :
    tier options op = op.category.bound options.power := by
  obtain ⟨power, snap⟩ := options
  cases power <;> cases op <;> rfl

theorem reduce_binary (hk : k ≤ op.precedence) (l r : Expr) :
    reduce k (r :: l :: τ) (.binary op :: π) = reduce k (.binary op l r :: τ) π :=
  reduce_of_build hk rfl

theorem exists_of_reduce_binary (hk : k ≤ op.precedence)
    (h : reduce k ρ (.binary op :: π) = .ok x) :
    ∃ r l τ, ρ = r :: l :: τ ∧ reduce k (.binary op l r :: τ) π = .ok x := by
  obtain ⟨τ, hb, hr⟩ := exists_build_of_reduce hk h
  match ρ with
  | r :: l :: ρ =>
    obtain rfl := Except.ok.inj hb
    exact ⟨r, l, ρ, rfl, hr⟩
  | [] | [_] => simp [build] at hb

theorem reduce_row (hk : k ≤ 4) (hw : ∀ p ∈ w, p.isUnary = true) (hn : ∀ p ∈ w, p ≠ .negation) :
    reduce k (e :: τ) (w ++ π) = reduce k (wrap w e :: τ) π := by
  induction w generalizing e with
  | nil => rfl
  | cons p w ih =>
    obtain ⟨hp, hw'⟩ := List.forall_mem_cons.mp hw
    obtain ⟨hp', hn'⟩ := List.forall_mem_cons.mp hn
    rcases Pending.eq_of_isUnary hp with rfl | ⟨f, rfl⟩
    · exact absurd rfl hp'
    · exact (reduce_of_build hk rfl).trans (ih hw' hn')

theorem exists_of_reduce_row (hk : k ≤ 4) (hw : ∀ p ∈ w, p.isUnary = true)
    (h : reduce k ρ (w ++ π) = .ok x) :
    w = [] ∨ (∀ p ∈ w, p ≠ .negation) ∧ ∃ e τ, ρ = e :: τ := by
  induction w generalizing ρ with
  | nil => exact .inl rfl
  | cons p w ih =>
    right
    obtain ⟨hp, hw'⟩ := List.forall_mem_cons.mp hw
    rcases Pending.eq_of_isUnary hp with rfl | ⟨f, rfl⟩
    · obtain ⟨τ, hb, -⟩ := exists_build_of_reduce hk h
      simp [build] at hb
    · obtain ⟨τ, hb, hr⟩ := exists_build_of_reduce hk h
      cases ρ with
      | nil => simp [build] at hb
      | cons e ρ =>
        refine ⟨?_, e, ρ, rfl⟩
        rcases ih hw' hr with rfl | ⟨hn, -⟩
        · simp
        · simpa using hn

end Draft

open Draft Reckon.Expr Token

/-- What becomes of a draft that takes a part: a row is left as it is, a phrase needs to be reduced,
as it is before an operator that it can stand on the left of. -/
def Part.Taken (options : Options) (σ : List Expr) (ts : List Token) (σ' : List Expr) : Part → Prop
  | row w => ∀ π, Below 4 π → Pushes options ⟨σ, π, true⟩ ts ⟨σ', w ++ π, due ts⟩
  | phrase c => ∀ π, Below (c.bound options.power) π →
      ∃ ρ θ, Pushes options ⟨σ, π, true⟩ ts ⟨ρ, θ, due ts⟩ ∧
        ∀ k ≤ c.tier, reduce k ρ θ = reduce k σ' π

variable {options : Options} {part : Part} {c : Category} {op : Operator} {e : Expr}
  {ts us : List Token} {σ σ' ρ τ : List Expr} {π π' w : List Pending} {k : ℕ}

/-- A draft takes whatever reads, however the operators before it wait. -/
theorem Reads.taken (h : Reads options.power part σ ts σ') : part.Taken options σ ts σ' := by
  induction h with
  | nil => exact fun π _ => pushes_nil.mpr rfl
  | @operand ns w σ ts σ' t e _ he hn hw ih =>
    intro π hπ
    refine pushes_concat.mpr ⟨_, ih π hπ, ?_⟩
    rw [due_concat, he.not_awaits, List.append_assoc]
    exact .operand he hn (hπ.head?_append_ne_negation hw)
  | unary _ hp hd ih =>
    intro π hπ
    refine pushes_concat.mpr ⟨_, ih π hπ, ?_⟩
    rw [due_concat, Pending.awaits_token]
    exact .unary hp hd
  | @group w σ ts σ' us e τ hr _ hd ih ihg =>
    intro π hπ
    have ho : Below 1 (.opening :: (w ++ π)) := below_cons.mpr Nat.one_pos
    obtain ⟨ρ, θ, hp, hr'⟩ := ihg _ ho
    have hclose : Step options ⟨ρ, θ, false⟩ .closing ⟨wrap w e :: τ, π, false⟩ := by
      refine .closing ?_ hr.isUnary_of_mem hπ
      rw [hr' 1 le_rfl, reduce_of_below ho]
    rw [due_append_enclosed]
    exact pushes_append.mpr ⟨_, ih π hπ,
      pushes_cons.mpr ⟨_, .opening, pushes_concat.mpr ⟨_, hd ▸ hp, hclose⟩⟩⟩
  | @bare σ ts σ' _ ih => exact fun π hπ => ⟨σ', π, ih π hπ, fun k _ => rfl⟩
  | @applied w σ ts e τ hr hn ih =>
    exact fun π hπ => ⟨_, _, ih π hπ, fun k hk => reduce_row hk hr.isUnary_of_mem hn⟩
  | @link c _ _ _ _ ih =>
    intro π hπ
    obtain ⟨ρ, θ, hp, hr⟩ := ih π (hπ.mono (Category.bound_le_next _ c))
    exact ⟨ρ, θ, hp, fun k hk => hr k (hk.trans c.tier_le_next)⟩
  | @chain op σ ts ρ us l r τ _ hd _ ihl ihr =>
    intro π hπ
    -- The left phrase is reduced before the operator waits, the right one only after it.
    obtain ⟨ρ₁, θ₁, hp₁, hr₁⟩ := ihl π (by simpa using hπ)
    obtain ⟨ρ₂, θ₂, hp₂, hr₂⟩ := ihr (.binary op :: π)
      (by simpa [Pending.precedence] using Category.precedence_lt_right options.power op)
    have hop : reduce (tier options op) ρ₁ θ₁ = .ok (ρ, π) := by
      rw [tier_eq_bound, hr₁ _ (by simp), reduce_of_below hπ]
    refine ⟨ρ₂, θ₂, pushes_append.mpr ⟨_, hp₁, pushes_cons.mpr ⟨_, .operator hd hop, ?_⟩⟩, ?_⟩
    · rw [due_append_cons rfl]
      exact hp₂
    · intro k hk
      rw [Category.tier_category] at hk
      rw [hr₂ k (hk.trans (Category.precedence_le_right options.power op)), reduce_binary hk]

end Reckon
