import Reckon.Proofs.Reading.Group
import Reckon.Proofs.Reading.Sound

/-! # The grouping of powers

A power that waits when another one comes is built or not as powers group. No power waits if another
operator of the same group has come in between, so where this is so between any two powers of a group
the grouping does not matter, neither to the tree nor to the error.
-/

namespace Reckon

namespace Token

variable {ts us vs : List Token} {t : Token}

/-- A binary operator that is no power stands among the tokens, outside of their groups. -/
def Parted (ts : List Token) : Prop :=
  ∃ us op, us ++ [.operator op] <+: ts ∧ Balanced us ∧ op ≠ .pow ∧ (op = .sub → due us = false)

theorem parted_iff : Parted ts ↔ ∃ us ∈ ts.inits, Balanced us.dropLast ∧
    ∃ op ∈ [Operator.add, .sub, .mul, .div], us.getLast? = some (.operator op) ∧
      (op = .sub → due us.dropLast = false) := by
  constructor
  · rintro ⟨us, op, hus, hb, hop, hsub⟩
    refine ⟨us ++ [.operator op], (List.mem_inits _ _).mpr hus, ?_, op, ?_, ?_, ?_⟩
    · rwa [List.dropLast_concat]
    · cases op <;> simp at hop ⊢
    · exact List.getLast?_concat
    · rwa [List.dropLast_concat]
  · rintro ⟨us, hus, hb, op, hop, hlast, hsub⟩
    obtain ⟨vs, rfl⟩ := List.getLast?_eq_some_iff.mp hlast
    rw [List.dropLast_concat] at hb hsub
    refine ⟨vs, op, (List.mem_inits _ _).mp hus, hb, ?_, hsub⟩
    rintro rfl
    simp at hop

instance : DecidablePred Parted :=
  fun _ => decidable_of_iff' _ parted_iff

/-- Any two powers of a group have balanced tokens between them, and these are parted. -/
def PowersApart (ts : List Token) : Prop :=
  ∀ us, .operator .pow :: us ++ [.operator .pow] <:+: ts → Balanced us → Parted us

theorem powersApart_iff : PowersApart ts ↔ ∀ s ∈ ts.tails, ∀ l ∈ s.inits,
    l.head? = some (.operator .pow) → l.tail.getLast? = some (.operator .pow) →
      Balanced l.tail.dropLast → Parted l.tail.dropLast := by
  constructor
  · intro h s hs l hl hhead hlast hb
    obtain ⟨us, rfl⟩ := List.head?_eq_some_iff.mp hhead
    rw [List.tail_cons] at hlast hb ⊢
    obtain ⟨us, rfl⟩ := List.getLast?_eq_some_iff.mp hlast
    rw [List.dropLast_concat] at hb ⊢
    exact h us (((List.mem_inits _ _).mp hl).isInfix.trans ((List.mem_tails _ _).mp hs).isInfix) hb
  · intro h us hus hb
    obtain ⟨s, hl, hs⟩ := List.infix_iff_prefix_suffix.mp hus
    simpa using h s ((List.mem_tails _ _).mpr hs) _ ((List.mem_inits _ _).mpr hl) rfl (by simp)
      (by simpa using hb)

instance : DecidablePred PowersApart :=
  fun _ => decidable_of_iff' _ powersApart_iff

theorem PowersApart.of_append (h : PowersApart (ts ++ us)) : PowersApart ts :=
  fun vs hvs => h vs (hvs.trans (List.prefix_append ts us).isInfix)

/-- The tokens before the first character that is rejected. -/
def leading : List Item → List Token
  | .token t :: items => t :: leading items
  | .rejected _ :: _ | [] => []

end Token

namespace Draft

open Reckon.Expr Token

variable {options options' : Options} {d : Draft} {op : Operator} {σ : List Expr}
  {π w : List Pending} {ts : List Token} {t : Token} {k : ℕ}

theorem reduce_eq_reduce_four (hk : 3 ≤ k) (hk' : k ≤ 4) (hw : ∀ p ∈ w, p.isUnary = true)
    (hπ : Below 3 π) : reduce k σ (w ++ π) = reduce 4 σ (w ++ π) := by
  induction w generalizing σ with
  | nil => rw [List.nil_append, reduce_of_below (hπ.mono hk), reduce_of_below (hπ.mono (by decide))]
  | cons p w ih =>
    obtain ⟨hp, hw'⟩ := List.forall_mem_cons.mp hw
    have hfour : p.precedence = 4 := Pending.precedence_of_isUnary hp
    rw [List.cons_append, reduce, reduce, if_neg (by omega), if_neg (by omega)]
    cases build p σ with
    | error f => rfl
    | ok τ => exact ih hw'

theorem three_le_tier_pow (options : Options) : 3 ≤ tier options .pow := by
  unfold tier
  split <;> decide

theorem tier_eq_precedence (h : op ≠ .pow) (options : Options) : tier options op = op.precedence :=
  if_neg fun hop => h hop.1

end Draft

open Draft Reckon.Expr Token

variable {power : Associativity} {options : Options} {d : Draft} {op : Operator} {σ : List Expr}
  {π : List Pending} {ts us vs : List Token} {t : Token} {source : String}

theorem Spine.below_three (h : Spine power ts σ π) (hts : ts.getLast? ≠ some (.operator .pow)) :
    Below 3 π := by
  cases h with
  | nil => exact below_nil 3
  | @operator _ _ _ _ _ op =>
    have hop : op ≠ .pow := by
      rintro rfl
      exact hts List.getLast?_concat
    rw [below_cons, Pending.precedence]
    cases op <;> first | decide | exact absurd rfl hop
  | opening => exact below_cons.mpr (by decide)

theorem Token.PowersApart.getLast?_ne {w : List Pending} {σ' : List Expr}
    (h : PowersApart (ts ++ us ++ [.operator .pow])) (hr : Reads power (.row w) σ us σ') :
    ts.getLast? ≠ some (.operator .pow) := by
  intro hlast
  obtain ⟨vs, rfl⟩ := List.getLast?_eq_some_iff.mp hlast
  obtain ⟨xs, op, ⟨ys, hys⟩, hxs, -, hsub⟩ := h us ⟨vs, [], by simp⟩ hr.balanced
  rw [List.append_assoc, List.singleton_append] at hys
  obtain ⟨rfl, hdue⟩ := hr.eq_sub_of_row hys hxs
  rw [hsub rfl] at hdue
  cases hdue

namespace Draft

theorem HasRead.reduce_pow_eq (h : HasRead options.power ts d)
    (ha : PowersApart (ts ++ [.operator .pow])) (options' : Options) :
    Draft.reduce (tier options .pow) d.operands d.pending =
      Draft.reduce (tier options' .pow) d.operands d.pending := by
  obtain ⟨us, vs, σ, π, w, rfl, hs, hr, hp, -⟩ := h
  have hπ : Below 3 π := hs.below_three (ha.getLast?_ne hr)
  have hfour (options : Options) :
      Draft.reduce (tier options .pow) d.operands (w ++ π) = Draft.reduce 4 d.operands (w ++ π) :=
    reduce_eq_reduce_four (three_le_tier_pow options) (tier_le_four options .pow)
      hr.isUnary_of_mem hπ
  rw [hp, hfour, hfour]

theorem HasRead.pushToken_eq (h : HasRead options.power ts d) (ha : PowersApart (ts ++ [t]))
    (options' : Options) : d.pushToken options t = d.pushToken options' t := by
  cases t with
  | number | name | opening | closing => rfl
  | operator op =>
    have hr : Draft.reduce (tier options op) d.operands d.pending =
        Draft.reduce (tier options' op) d.operands d.pending := by
      by_cases hop : op = .pow
      · subst hop
        exact h.reduce_pow_eq ha options'
      · rw [tier_eq_precedence hop, tier_eq_precedence hop]
    rw [pushToken, pushToken, pushOperator, pushOperator, hr]

theorem HasRead.pushItems_eq {items : List Item} (h : HasRead options.power ts d)
    (ha : PowersApart (ts ++ leading items)) (options' : Options) :
    d.pushItems options items = d.pushItems options' items := by
  induction items generalizing ts d with
  | nil => rfl
  | cons i items ih =>
    cases i with
    | rejected c => rfl
    | token t =>
      rw [leading, List.append_cons] at ha
      simp only [pushItems, List.foldlM_cons, pushItem] at ih ⊢
      rw [← h.pushToken_eq ha.of_append options']
      cases hc : d.pushToken options t with
      | error f => rfl
      | ok c => exact ih (h.step (pushToken_eq_ok_iff.mp hc)) ha

end Draft

/-- Where powers of a group have another operator of the group between them, how powers group does not
matter: the tree is the same, and so is the error. What is behind a rejected character has no part in
this. -/
theorem Expr.parse_eq_of_powersApart (h : PowersApart (leading (items source)))
    (options options' : Options) : parse options source = parse options' source := by
  rw [parse, parse, ofItems, ofItems, (hasRead_empty options.power).pushItems_eq h options']

/-- Powers inside and outside of parentheses are of different groups, and a subtraction and a product
part those of one group. -/
theorem Expr.parse_eq_of_powersApart_group :
    PowersApart (leading (items "a ^ (x ^ -y - z ^ 2) * b ^ x")) ∧
    ∀ options, parse options "a ^ (x ^ -y - z ^ 2) * b ^ x" = .ok (.binary .mul
      (.binary .pow (.var "a") (.binary .sub (.binary .pow (.var "x") (.negate (.var "y")))
        (.binary .pow (.var "z") (.literal 2))))
      (.binary .pow (.var "b") (.var "x"))) := by
  have h : PowersApart (leading (items "a ^ (x ^ -y - z ^ 2) * b ^ x")) := by decide +kernel
  refine ⟨h, fun options => (parse_eq_of_powersApart h options {}).trans ?_⟩
  decide +kernel

end Reckon
