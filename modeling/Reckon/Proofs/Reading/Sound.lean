import Mathlib.Data.List.Induction
import Reckon.Proofs.Reading.Complete

/-! # What drafts take reads

A draft reads its tokens: each operator that waits in it has a complete phrase on its left, and the
row behind the last of them is still open. The sources that are parsed are therefore those whose
tokens read as one tree.
-/

namespace Reckon

open Draft Reckon.Expr Token

/-- What has been read where a row begins: on the left of each operator that waits there is a
complete phrase, and behind each parenthesis that is open a row with its unary entries. -/
inductive Spine (power : Associativity) : List Token → List Expr → List Pending → Prop
  | nil : Spine power [] [] []
  | operator {ts us σ ρ π op} (h : Spine power ts σ π) (hb : Below (op.category.bound power) π)
      (hl : Reads power (.phrase (op.left power)) σ us ρ) (hd : op = .sub → due us = false) :
      Spine power (ts ++ us ++ [.operator op]) ρ (.binary op :: π)
  | opening {ts us σ ρ π w} (h : Spine power ts σ π) (hr : Reads power (.row w) σ us ρ) :
      Spine power (ts ++ us ++ [.opening]) ρ (.opening :: (w ++ π))

variable {power : Associativity} {options : Options} {c : Category} {op : Operator} {e : Expr}
  {ts us : List Token} {σ σ' ρ τ : List Expr} {π π' w : List Pending} {k : ℕ}

namespace Spine

theorem due (h : Spine power ts σ π) : Token.due ts = true := by
  cases h with
  | nil => rfl
  | operator | opening => rw [due_concat]; rfl

theorem below_four (h : Spine power ts σ π) : Below 4 π := by
  cases h with
  | nil => exact below_nil 4
  | @operator _ _ _ _ _ op => cases op <;> simp [Pending.precedence, Operator.precedence]
  | opening => simp [Pending.precedence]

theorem exists_of_opening (h : Spine power ts σ (.opening :: π)) : ∃ us vs τ w π',
    ts = us ++ vs ++ [.opening] ∧ π = w ++ π' ∧ Spine power us τ π' ∧
      Reads power (.row w) τ vs σ := by
  cases h with
  | opening h hr => exact ⟨_, _, _, _, _, rfl, rfl, h, hr⟩

/-- Reducing makes the phrase behind the spine one with the operators before it that bind as
tightly as required; the others stay. -/
theorem reduce (hs : Spine power us σ π) (hr : Reads power (.phrase c) σ ts ρ)
    (hb : Below (c.bound power) π) (hk : k ≤ c.tier) (h : Draft.reduce k ρ π = .ok (σ', π')) :
    ∃ b vs xs τ, us ++ ts = vs ++ xs ∧ k ≤ b.tier ∧ Below k π' ∧ Spine power vs τ π' ∧
      Reads power (.phrase b) τ xs σ' := by
  induction hs generalizing c ts ρ with
  | nil =>
    obtain ⟨rfl, rfl⟩ := Prod.mk.inj (Except.ok.inj h)
    exact ⟨c, [], ts, [], rfl, hk, below_nil k, .nil, hr⟩
  | @operator vs us τ σ π op hs hb' hl hd ih =>
    by_cases hop : op.precedence < k
    · rw [reduce_of_below (by simpa [Pending.precedence] using hop)] at h
      obtain ⟨rfl, rfl⟩ := Prod.mk.inj (Except.ok.inj h)
      exact ⟨c, _, ts, _, rfl, hk, by simpa [Pending.precedence] using hop,
        .operator hs hb' hl hd, hr⟩
    -- The operator is built: with the phrases on its sides it is a longer phrase behind the rest.
    · obtain ⟨r, l, θ, rfl, hr'⟩ := exists_of_reduce_binary (not_lt.mp hop) h
      have hright := hr.loosen (Category.right_le_of_precedence_lt
        (by simpa [Pending.precedence] using hb))
      obtain ⟨b, vs', xs, τ', he, hspine⟩ := ih (.chain hl hd hright) hb'
        (by simpa using not_lt.mp hop) hr'
      exact ⟨b, vs', xs, τ', by simpa using he, hspine⟩
  | @opening vs us τ σ π w hs hw ih =>
    have hk' : 0 < k := by
      by_contra h0
      obtain ⟨τ, hb, -⟩ := exists_build_of_reduce (not_lt.mp h0) h
      simp [build] at hb
    rw [reduce_of_below (by simpa [Pending.precedence] using hk')] at h
    obtain ⟨rfl, rfl⟩ := Prod.mk.inj (Except.ok.inj h)
    exact ⟨c, _, ts, _, rfl, hk, by simpa [Pending.precedence] using hk', .opening hs hw, hr⟩

end Spine

theorem Reads.unary_of_reduce {x : List Expr × List Pending}
    (h : Reads power (.row w) σ ts ρ) (hk : k ≤ 4) (hr : Draft.reduce k ρ (w ++ π) = .ok x) :
    ∃ τ, Reads power (.phrase .unary) σ ts τ ∧ Draft.reduce k τ π = .ok x := by
  rcases exists_of_reduce_row hk h.isUnary_of_mem hr with rfl | ⟨hn, e, τ, rfl⟩
  · exact ⟨ρ, .bare h, hr⟩
  · exact ⟨_, .applied h hn, (reduce_row hk h.isUnary_of_mem hn).symm.trans hr⟩

/-- The draft has read the tokens: a spine and the row behind it. -/
def Draft.HasRead (power : Associativity) (ts : List Token) (d : Draft) : Prop :=
  ∃ us vs σ π w, ts = us ++ vs ∧ Spine power us σ π ∧ Reads power (.row w) σ vs d.operands ∧
    d.pending = w ++ π ∧ d.expectsOperand = due ts

namespace Draft

variable {d d' : Draft} {t : Token}

theorem HasRead.expectsOperand_eq (h : HasRead power ts d) : d.expectsOperand = due ts := by
  obtain ⟨_, _, _, _, _, _, _, _, _, hd⟩ := h
  exact hd

theorem hasRead_empty (power : Associativity) : HasRead power [] empty :=
  ⟨[], [], [], [], [], rfl, .nil, .nil, rfl, rfl⟩

theorem HasRead.reduce (h : HasRead power ts d) (hk : k ≤ 4)
    (hr : Draft.reduce k d.operands d.pending = .ok (σ', π')) :
    ∃ b us vs τ, ts = us ++ vs ∧ k ≤ b.tier ∧ Below k π' ∧ Spine power us τ π' ∧
      Reads power (.phrase b) τ vs σ' := by
  obtain ⟨us, vs, σ, π, w, rfl, hs, hw, hp, -⟩ := h
  rw [hp] at hr
  obtain ⟨τ, hu, hr⟩ := hw.unary_of_reduce hk hr
  exact hs.reduce hu hs.below_four hk hr

theorem HasRead.step (h : HasRead options.power ts d) (hs : Step options d t d') :
    HasRead options.power (ts ++ [t]) d' := by
  have hdue := h.expectsOperand_eq
  cases hs with
  | @operand t e ns π σ b he hn hπ =>
    obtain ⟨us, vs, σ₀, π₀, w, rfl, hs, hw, hp : ns ++ π = _, -⟩ := h
    obtain ⟨ns', w', rfl, hn', hw'⟩ := exists_negations w
    have hpop := applyNegations_append (e := e) hn hπ
    rw [hp, List.append_assoc,
      applyNegations_append hn' (hs.below_four.head?_append_ne_negation hw')] at hpop
    obtain ⟨he', rfl⟩ := Prod.mk.inj hpop
    refine ⟨us, vs ++ [t], σ₀, π₀, w', List.append_assoc .., hs, ?_, rfl, ?_⟩
    · exact he' ▸ .operand hw he hn' hw'
    · rw [due_concat, he.not_awaits]
  | @unary p π σ b hp hb =>
    obtain ⟨us, vs, σ₀, π₀, w, rfl, hs, hw, rfl, -⟩ := h
    rw [due_append_of_due hs.due] at hdue
    refine ⟨us, vs ++ [p.token], σ₀, π₀, p :: w, List.append_assoc .., hs, ?_, rfl, ?_⟩
    · exact .unary hw hp fun hneg => hdue.symm.trans (hb hneg)
    · rw [due_concat, Pending.awaits_token]
  | @opening π σ b =>
    obtain ⟨us, vs, σ₀, π₀, w, rfl, hs, hw, rfl, -⟩ := h
    refine ⟨_, [], _, _, [], (List.append_nil _).symm, .opening hs hw, .nil, rfl, ?_⟩
    rw [due_concat]
    rfl
  | @operator op π π' σ σ' b hb hr =>
    have hk : tier options op = (op.left options.power).tier := by
      rw [tier_eq_bound, Category.tier_left]
    obtain ⟨c, us, vs, τ, rfl, hc, hbelow, hs, hu⟩ :=
      h.reduce (hk ▸ Category.tier_le_four _) hr
    rw [due_append_of_due hs.due] at hdue
    have hspine : Spine options.power (us ++ vs ++ [.operator op]) σ' (.binary op :: π') :=
      .operator hs (tier_eq_bound options op ▸ hbelow) (hu.loosen (hk ▸ hc))
        fun hsub => hdue.symm.trans (hb hsub)
    refine ⟨_, [], _, _, [], (List.append_nil _).symm, hspine, .nil, rfl, ?_⟩
    rw [due_concat]
    rfl
  | @closing e w π π' σ σ' hr hw hπ =>
    obtain ⟨c, us, vs, τ, rfl, hc, -, hs, hu⟩ := h.reduce (by decide) hr
    rw [due_append_of_due hs.due] at hdue
    obtain ⟨us₀, vs₀, τ₀, w₀, π₀, rfl, hp, hs₀, hw₀⟩ := hs.exists_of_opening
    have hpop := applyUnary_append (e := e) hw hπ
    rw [hp, applyUnary_append hw₀.isUnary_of_mem hs₀.below_four] at hpop
    obtain ⟨he, rfl⟩ := Prod.mk.inj hpop
    refine ⟨us₀, vs₀ ++ enclosed vs, τ₀, π₀, [], by simp [enclosed], hs₀, ?_, rfl, ?_⟩
    · exact he ▸ .group hw₀ (hu.loosen hc) hdue.symm
    · rw [due_concat]
      rfl

theorem Pushes.hasRead (h : Pushes options empty ts d) : HasRead options.power ts d := by
  induction ts using List.reverseRecOn generalizing d with
  | nil => exact pushes_nil.mp h ▸ hasRead_empty options.power
  | append_singleton ts t ih =>
    obtain ⟨c, hc, hs⟩ := pushes_concat.mp h
    exact (ih hc).step hs

end Draft

/-- A source is parsed exactly if its tokens read as one tree, which is then the result. -/
theorem Expr.parse_eq_ok_iff_reads {source : String} : parse options source = .ok e ↔
    ∃ ts, tokens? source = some ts ∧ Reads options.power (.phrase .sum) [] ts [e] := by
  rw [parse_eq_ok_iff]
  refine exists_congr fun ts => and_congr_right fun _ => ⟨?_, ?_⟩
  · rintro ⟨d, hp, hd⟩
    obtain ⟨b, us, vs, τ, rfl, -, -, hs, hr⟩ :=
      hp.hasRead.reduce (Nat.zero_le 4) (finish_eq_ok_iff.mp hd)
    cases hs
    exact hr.loosen (Category.tier_sum_le b)
  · intro h
    obtain ⟨ρ, θ, hp, hr⟩ := h.taken [] (below_nil _)
    exact ⟨_, hp, finish_eq_ok_iff.mpr ((hr 0 (Nat.zero_le _)).trans rfl)⟩

end Reckon
