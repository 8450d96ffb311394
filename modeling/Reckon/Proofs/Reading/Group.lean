import Reckon.Proofs.Reading
import Reckon.Proofs.Token.Balanced

/-! # Groups in what is read

Whatever tokens read, each parenthesis among them begins or ends a group that is read by itself.
Outside its groups a row has no operators but its signs.
-/

namespace Reckon

open Reckon.Expr Token

variable {power : Associativity} {part : Part} {σ σ' : List Expr} {ts us vs : List Token}
  {w : List Pending} {op : Operator}

namespace Reads

theorem balanced (h : Reads power part σ ts σ') : Balanced ts := by
  induction h with
  | nil => exact balanced_nil
  | operand _ he _ _ ih =>
    refine ih.append (balanced_singleton ?_ ?_)
    · rintro rfl
      cases he
    · rintro rfl
      cases he
  | unary _ hp _ ih =>
    refine ih.append ?_
    rcases Pending.eq_of_isUnary hp with rfl | ⟨f, rfl⟩
    · exact balanced_singleton (by simp [Pending.token]) (by simp [Pending.token])
    · exact balanced_singleton (by simp [Pending.token]) (by simp [Pending.token])
  | group _ _ _ ih ihg => exact ih.append (balanced_enclosed ihg)
  | bare _ ih | applied _ _ ih | link _ ih => exact ih
  | chain _ _ _ ihl ihr =>
    rw [List.append_cons]
    exact (ihl.append (balanced_singleton (by simp) (by simp))).append ihr

theorem eq_sub_of_row (h : Reads power (.row w) σ ts σ') (hts : us ++ .operator op :: vs = ts)
    (hus : Balanced us) : op = .sub ∧ due us = true := by
  generalize hq : Part.row w = q at h
  induction h generalizing w vs with
  | nil => simp at hts
  | operand _ he _ _ ih =>
    rcases exists_of_append_singleton_eq hts with ⟨ws, hws⟩ | ⟨-, rfl⟩
    · exact ih hws.symm rfl
    · cases he
  | unary _ hp hd ih =>
    rcases exists_of_append_singleton_eq hts with ⟨ws, hws⟩ | ⟨rfl, htoken⟩
    · exact ih hws.symm rfl
    · rcases Pending.eq_of_isUnary hp with rfl | ⟨f, rfl⟩
      · exact ⟨Token.operator.inj htoken, hd rfl⟩
      · cases htoken
  | group h hg _ ih _ =>
    rcases exists_of_append_eq hts with ⟨ws, hws⟩ | ⟨ws, rfl, hws⟩
    · exact ih hws.symm rfl
    -- The parenthesis of the group is open in front of the operator.
    · have hlt := hg.balanced.count_lt_of_enclosed (by simp) (by simp) hws
      have heq := hus.count_eq
      rw [List.count_append, List.count_append, h.balanced.count_eq] at heq
      omega
  | bare | applied | link | chain => cases hq

end Reads

end Reckon
