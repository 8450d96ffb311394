import Mathlib.Data.List.Chain
import Reckon.Proofs.Draft.Conservation

/-! # Levels of a draft

The parentheses that are open divide what waits in a draft into levels. Whatever tokens have been
taken, the operators of a level bind tighter one after another, chained powers that group from the
right aside, and only signs and functions wait behind them. What an operator has to build is
therefore next to it.
-/

namespace Reckon

/-- Whether the operator goes on waiting when the other one comes behind the operand on its right. -/
def Operator.WaitsFor (power : Associativity) (op op' : Operator) : Prop :=
  op.precedence < op'.precedence ∨ op = .pow ∧ op' = .pow ∧ power = .right

namespace Draft

variable {options : Options} {d d' : Draft} {op op' : Operator} {t : Token} {ts : List Token}
  {σ σ' : List Expr} {π π' : List Pending} {p q : Pending} {s : List Pending} {k : ℕ}

/-- What waits at each level of parentheses in the order in which it was read, the outermost level
first. -/
def levels (π : List Pending) : List (List Pending) :=
  π.reverse.splitOnP (· = .opening)

/-- Operators of which each waits for the next, and behind them unary entries. -/
def IsLevel (power : Associativity) (s : List Pending) : Prop :=
  ∃ (ops : List Operator) (w : List Pending), s = ops.map .binary ++ w ∧
    ops.IsChain (Operator.WaitsFor power) ∧ ∀ p ∈ w, p.isUnary = true

/-- Whether the first entry can wait directly above the second: an operator does so only after it has
built all that is not below its tier. -/
def Rests (options : Options) (p q : Pending) : Prop :=
  ∀ op, p = .binary op → q.precedence < tier options op

theorem precedence_lt_tier_iff :
    op.precedence < tier options op' ↔ op.WaitsFor options.power op' := by
  obtain ⟨power, snap⟩ := options
  cases power <;> cases op <;> cases op' <;> simp [tier, Operator.WaitsFor, Operator.precedence]

theorem not_rests_binary (hq : q.isUnary = true) : ¬ Rests options (.binary op) q := by
  intro h
  have hlt : q.precedence < 4 := (h op rfl).trans_le (tier_le_four options op)
  exact hlt.ne (Pending.precedence_of_isUnary hq)

theorem isChain_cons_binary_iff : (.binary op :: π).IsChain (Rests options) ↔
    Below (tier options op) π ∧ π.IsChain (Rests options) := by
  simp [List.isChain_cons, Rests, Below]

theorem isChain_cons_of_ne (hp : ∀ op, p ≠ .binary op) (h : π.IsChain (Rests options)) :
    (p :: π).IsChain (Rests options) :=
  List.isChain_cons.mpr ⟨fun _ _ op hop => absurd hop (hp op), h⟩

theorem isLevel_of_isChain (hs : s.IsChain fun q p => Rests options p q) (ho : .opening ∉ s) :
    IsLevel options.power s := by
  induction s with
  | nil => exact ⟨[], [], rfl, .nil, by simp⟩
  | cons q s ih =>
    rw [List.mem_cons, not_or] at ho
    obtain ⟨hrests, hs⟩ := List.isChain_cons.mp hs
    obtain ⟨ops, w, rfl, hops, hw⟩ := ih hs ho.2
    by_cases hq : q.isUnary = true
    -- No operator rests on a unary entry, so all that is above it is unary.
    · cases ops with
      | nil => exact ⟨[], q :: w, rfl, .nil, List.forall_mem_cons.mpr ⟨hq, hw⟩⟩
      | cons op ops => exact absurd (hrests _ rfl) (not_rests_binary hq)
    · cases q with
      | binary op =>
        refine ⟨op :: ops, w, rfl, List.isChain_cons.mpr ⟨fun op' hop' => ?_, hops⟩, hw⟩
        have hhead : .binary op' ∈ (ops.map Pending.binary ++ w).head? := by
          simp [List.head?_append, Option.mem_def.mp hop']
        exact precedence_lt_tier_iff.mp (hrests _ hhead op' rfl)
      | negation | function f => exact absurd rfl hq
      | opening => exact absurd rfl ho.1

theorem isInfix_of_mem_splitOnP (h : s ∈ π.splitOnP (· = .opening)) :
    s <:+: π ∧ .opening ∉ s := by
  induction hn : π.length using Nat.strong_induction_on generalizing π with
  | _ n ih =>
    by_cases ho : .opening ∈ π
    -- The entries in front of the first parenthesis are a level, the others are behind it.
    · obtain ⟨us, vs, rfl, hus⟩ := List.eq_append_cons_of_mem ho
      have hfree : ∀ p ∈ us, decide (p = .opening) = false :=
        fun p hp => decide_eq_false fun he => hus (he ▸ hp)
      rw [List.splitOnP_append_cons_of_forall_mem hfree _ (decide_eq_true rfl), List.mem_cons] at h
      rcases h with rfl | h
      · exact ⟨(List.prefix_append _ _).isInfix, hus⟩
      · have hlt : vs.length < n := by
          simp only [List.length_append, List.length_cons] at hn
          omega
        obtain ⟨hs, hso⟩ := ih _ hlt h rfl
        exact ⟨hs.trans ((List.suffix_cons _ vs).trans (List.suffix_append us _)).isInfix, hso⟩
    · have hfree : ∀ p ∈ π, decide (p = .opening) = false :=
        fun p hp => decide_eq_false fun he => ho (he ▸ hp)
      rw [List.splitOnP_eq_singleton hfree, List.mem_singleton] at h
      subst h
      exact ⟨List.infix_rfl, ho⟩

theorem isLevel_of_mem_levels (hπ : π.IsChain (Rests options)) (hs : s ∈ levels π) :
    IsLevel options.power s := by
  obtain ⟨⟨us, vs, hstretch⟩, ho⟩ := isInfix_of_mem_splitOnP hs
  have hchain := List.isChain_reverse.mpr hπ
  rw [← hstretch] at hchain
  exact isLevel_of_isChain hchain.left_of_append.right_of_append ho

structure Layered (options : Options) (d : Draft) : Prop where
  chain : d.pending.IsChain (Rests options)
  head : d.expectsOperand = false → d.pending.head? ≠ some .negation

theorem layered_empty (options : Options) : Layered options empty :=
  ⟨.nil, fun h => absurd h (by simp [empty])⟩

theorem isChain_of_reduce (h : reduce k σ π = .ok (σ', π')) (hπ : π.IsChain (Rests options)) :
    π'.IsChain (Rests options) ∧ Below k π' :=
  reduce_preserves (P := fun _ π => π.IsChain (Rests options)) (fun _ _ _ _ _ hc => hc.of_cons)
    h hπ

theorem Layered.step (h : Layered options d) (hs : Step options d t d') : Layered options d' := by
  have hchain := h.chain
  cases hs with
  | operand he hn hπ => exact ⟨hchain.right_of_append, fun _ => hπ⟩
  | @unary p π σ b hp hb =>
    refine ⟨isChain_cons_of_ne ?_ hchain, fun hd => absurd hd (by simp)⟩
    rintro op rfl
    cases hp
  | opening => exact ⟨isChain_cons_of_ne (by simp) hchain, fun hd => absurd hd (by simp)⟩
  | operator hb hr =>
    obtain ⟨hπ, hbelow⟩ := isChain_of_reduce hr hchain
    exact ⟨isChain_cons_binary_iff.mpr ⟨hbelow, hπ⟩, fun hd => absurd hd (by simp)⟩
  | closing hr hw hπ =>
    obtain ⟨hopening, -⟩ := isChain_of_reduce hr hchain
    exact ⟨hopening.of_cons.right_of_append,
      fun _ => hπ.head?_append_ne_negation (w := []) (by simp)⟩

theorem Pushes.layered (h : Pushes options empty ts d) : Layered options d := by
  induction ts using List.reverseRecOn generalizing d with
  | nil => exact pushes_nil.mp h ▸ layered_empty options
  | append_singleton ts t ih =>
    obtain ⟨c, hc, hs⟩ := pushes_concat.mp h
    exact (ih hc).step hs

/-- Whatever tokens a draft has taken, what waits is divided into levels by the parentheses that are
open, as many as are not closed, and a sign is at the head only where an operand is due. -/
theorem pending_of_pushes (h : Pushes options empty ts d) :
    (∀ s ∈ levels d.pending, IsLevel options.power s) ∧
    d.pending.count .opening + ts.count .closing = ts.count .opening ∧
    (d.expectsOperand = false → d.pending.head? ≠ some .negation) :=
  ⟨fun _ => isLevel_of_mem_levels h.layered.chain, h.count_opening, h.layered.head⟩

/-- Powers that group from the right wait for one another in a parenthesis that is open, also behind
operands side by side. -/
theorem pending_of_pushes_powers : ∃ d : Draft,
    Pushes { power := .right } empty [.number 2, .number 3, .operator .sub, .name "sqrt",
      .operator .sub, .opening, .name "x", .operator .pow, .name "y", .operator .pow,
      .operator .sub, .name "sin", .name "z"] d ∧ d.expectsOperand = false ∧
    levels d.pending = [[.binary .sub, .function .sqrt, .negation],
      [.binary .pow, .binary .pow, .negation, .function .sin]] ∧
    (∀ s ∈ levels d.pending, IsLevel .right s) ∧ d.pending.count .opening = 1 ∧
    d.pending.head? ≠ some .negation := by
  have h : Pushes { power := .right } empty [.number 2, .number 3, .operator .sub, .name "sqrt",
      .operator .sub, .opening, .name "x", .operator .pow, .name "y", .operator .pow,
      .operator .sub, .name "sin", .name "z"]
      ⟨[.var "z", .var "y", .var "x", .literal 3, .literal 2], [.function .sin, .negation,
        .binary .pow, .binary .pow, .opening, .negation, .function .sqrt, .binary .sub], false⟩ := by
    rfl
  obtain ⟨hlevels, hcount, hhead⟩ := pending_of_pushes h
  exact ⟨_, h, rfl, by decide, hlevels, hcount, hhead rfl⟩

end Draft

end Reckon
