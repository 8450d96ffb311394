import Reckon.Proofs.Draft.Step
import Reckon.Proofs.Phrase

/-! # Readings of tokens

What tokens do to the operands at hand, whether they are an infix expression or not. An operator
takes the last two operands that are at hand at the end of the phrase on its right, wherever these
stand. A row holds operands and unary entries side by side: a sign belongs to the operand behind
it, a function waits for a parenthesis or for the end of the row.
-/

namespace Reckon

/-- What tokens make up: a phrase, or a row so far with the entries that wait in it, the last one
at the head. -/
inductive Part
  | phrase (c : Category)
  | row (w : List Pending)

open Reckon.Expr Token

/-- Read behind the operands `σ`, the tokens leave the operands `σ'` at hand. -/
inductive Reads (power : Associativity) : Part → List Expr → List Token → List Expr → Prop
  | nil {σ} : Reads power (.row []) σ [] σ
  | operand {ns w σ ts σ' t e} (h : Reads power (.row (ns ++ w)) σ ts σ') (he : t.Denotes e)
      (hn : ∀ p ∈ ns, p = .negation) (hw : w.head? ≠ some .negation) :
      Reads power (.row w) σ (ts ++ [t]) (wrap ns e :: σ')
  | unary {w σ ts σ' p} (h : Reads power (.row w) σ ts σ') (hp : p.isUnary = true)
      (hd : p = .negation → due ts = true) :
      Reads power (.row (p :: w)) σ (ts ++ [p.token]) σ'
  | group {w σ ts σ' us e τ} (h : Reads power (.row w) σ ts σ')
      (hg : Reads power (.phrase .sum) σ' us (e :: τ)) (hd : due us = false) :
      Reads power (.row []) σ (ts ++ enclosed us) (wrap w e :: τ)
  | bare {σ ts σ'} (h : Reads power (.row []) σ ts σ') : Reads power (.phrase .unary) σ ts σ'
  | applied {w σ ts e τ} (h : Reads power (.row w) σ ts (e :: τ))
      (hw : ∀ p ∈ w, p ≠ .negation) : Reads power (.phrase .unary) σ ts (wrap w e :: τ)
  | link {c σ ts σ'} (h : Reads power (.phrase c.next) σ ts σ') : Reads power (.phrase c) σ ts σ'
  | chain {op σ ts ρ us l r τ} (hl : Reads power (.phrase (op.left power)) σ ts ρ)
      (hd : op = .sub → due ts = false)
      (hr : Reads power (.phrase (op.right power)) ρ us (r :: l :: τ)) :
      Reads power (.phrase op.category) σ (ts ++ .operator op :: us) (.binary op l r :: τ)

variable {power : Associativity} {c : Category} {σ σ' : List Expr} {ts us : List Token}
  {w : List Pending} {op : Operator}

theorem Reads.isUnary_of_mem (h : Reads power (.row w) σ ts σ') : ∀ p ∈ w, p.isUnary = true := by
  generalize hq : Part.row w = q at h
  induction h generalizing w with
  | nil => obtain rfl := Part.row.inj hq; simp
  | operand _ _ _ _ ih =>
    obtain rfl := Part.row.inj hq
    exact fun p hp => ih rfl p (List.mem_append_right _ hp)
  | unary _ hp _ ih =>
    obtain rfl := Part.row.inj hq
    simpa [hp] using ih rfl
  | group => obtain rfl := Part.row.inj hq; simp
  | bare | applied | link | chain => simp at hq

theorem Reads.loosen {b : Category} (h : Reads power (.phrase c) σ ts σ') (hb : b.tier ≤ c.tier) :
    Reads power (.phrase b) σ ts σ' := by
  cases b <;> cases c <;> simp [Category.tier] at hb
  all_goals first | exact h | exact .link h | exact .link (.link h) | exact .link (.link (.link h))

end Reckon
