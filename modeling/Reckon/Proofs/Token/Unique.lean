import Mathlib.Data.List.Sort
import Reckon.Proofs.Token.Scan
import Reckon.Proofs.Token.Tiling

/-! # A source has one tiling

What stands longest at a place is the first lexeme of the characters from there on, so two tilings of
a source agree from its beginning to its end.
-/

namespace Reckon.Token

variable {source : String} {c : Char} {us vs vs' ts ts' cs : List Char} {item item' : Item}
  {l : Lexeme} {ls ms : List Lexeme}

theorem symbol?_eq_some (op : Operator) (h : op.symbol = .singleton c) :
    symbol? c = some (.operator op) := by
  have hc := congrArg String.toList h
  rw [String.toList_singleton] at hc
  cases op <;>
  · obtain ⟨rfl, -⟩ := List.cons.inj hc
    rfl

theorem first_rejected (hdigit : c.isDigit = false) (hletter : isLetter c = false)
    (hsymbol : c ∉ symbols) (cs : List Char) : Piece.first c cs = ⟨[c], .rejected c, cs⟩ := by
  unfold Piece.first
  rw [if_neg (Bool.eq_false_iff.mp hdigit), if_neg (Bool.eq_false_iff.mp hletter),
    symbol?_eq_none_iff.mpr hsymbol]

theorem Longest.exists_first (h : Longest item ts vs) : ∃ c cs, ts ++ vs = c :: cs ∧
    isSpace c = false ∧ item = (Piece.first c cs).item ∧ ts = (Piece.first c cs).text := by
  cases h with
  | whole hne hd hr =>
    obtain ⟨c, cs, rfl⟩ := List.exists_cons_of_ne_nil hne
    obtain ⟨hc, hcs⟩ := List.forall_mem_cons.mp hd
    refine ⟨c, cs ++ vs, rfl, isSpace_eq_false_of_isDigit hc, ?_⟩
    rw [first_whole hc hcs hr]
    exact ⟨rfl, rfl⟩
  | @fraction ds fs _ hne hd hf hr =>
    obtain ⟨c, cs, rfl⟩ := List.exists_cons_of_ne_nil hne
    obtain ⟨hc, hcs⟩ := List.forall_mem_cons.mp hd
    refine ⟨c, cs ++ '.' :: (fs ++ vs), by simp, isSpace_eq_false_of_isDigit hc, ?_⟩
    rw [first_fraction hc hcs hf hr]
    exact ⟨rfl, rfl⟩
  | name hne hl hr =>
    obtain ⟨c, cs, rfl⟩ := List.exists_cons_of_ne_nil hne
    obtain ⟨hc, hcs⟩ := List.forall_mem_cons.mp hl
    refine ⟨c, cs ++ vs, rfl, isSpace_eq_false_of_isLetter hc, ?_⟩
    rw [first_name hc hcs hr]
    exact ⟨rfl, rfl⟩
  | operator op hop =>
    have hs := symbol?_eq_some op hop
    refine ⟨_, vs, rfl, isSpace_eq_false_of_symbol? hs, ?_⟩
    rw [first_symbol hs]
    exact ⟨rfl, rfl⟩
  | opening => exact ⟨'(', vs, rfl, rfl, rfl, rfl⟩
  | closing => exact ⟨')', vs, rfl, rfl, rfl, rfl⟩
  | rejected hspace hdigit hletter hsymbol =>
    refine ⟨_, vs, rfl, hspace, ?_⟩
    rw [first_rejected hdigit hletter hsymbol]
    exact ⟨rfl, rfl⟩

theorem Longest.unique (h : Longest item ts vs) (h' : Longest item' ts' vs')
    (he : ts ++ vs = ts' ++ vs') : item = item' ∧ ts = ts' := by
  obtain ⟨c, cs, hcs, -, hitem, hts⟩ := h.exists_first
  obtain ⟨c', cs', hcs', -, hitem', hts'⟩ := h'.exists_first
  obtain ⟨rfl, rfl⟩ := List.cons.inj (hcs.symm.trans (he.trans hcs'))
  exact ⟨hitem.trans hitem'.symm, hts.trans hts'.symm⟩

theorem eq_of_byteCount_eq (hu : us <+: cs) (hv : vs <+: cs) (h : byteCount us = byteCount vs) :
    us = vs :=
  (prefix_of_byteCount_le hu hv h.le).eq_of_length_le (prefix_of_byteCount_le hv hu h.ge).length_le

/-- By induction on places, as an earlier lexeme that reaches the place of `l` is in both tilings. -/
theorem Tiling.subset (h : Tiling source ls) (h' : Tiling source ms) (hl : l ∈ ls) : l ∈ ms := by
  induction hn : l.start using Nat.strong_induction_on generalizing l ls ms with
  | _ n ih =>
    obtain ⟨us, vs, hsource, hstart, hlongest⟩ := h.longest l hl
    obtain ⟨c, cs, hcs, hspace, -⟩ := hlongest.exists_first
    obtain ⟨m, hm, hcovers⟩ := h'.covered us c cs (hcs ▸ hsource) hspace
    have hplace : l.Covers (byteCount us) := ⟨hstart.le, hstart ▸ h.nonempty l hl⟩
    rcases Nat.lt_or_eq_of_le hcovers.1 with hlt | heq
    · have hmem : m ∈ ls := ih m.start (by omega) h' h hm rfl
      rwa [eq_of_covers h.increasing hl hmem hplace hcovers]
    · obtain ⟨us', vs', hsource', hstart', hlongest'⟩ := h'.longest m hm
      obtain rfl : us = us' :=
        eq_of_byteCount_eq ⟨_, hsource.symm⟩ ⟨_, hsource'.symm⟩ (heq.symm.trans hstart')
      have hafter := List.append_cancel_left (hsource.symm.trans hsource')
      obtain ⟨hitem, hlist⟩ := hlongest.unique hlongest' hafter
      have htext : l.text = m.text := String.toList_injective hlist
      rwa [Lexeme.ext (hstart.trans heq.symm) htext hitem]

theorem Tiling.unique (h : Tiling source ls) (h' : Tiling source ms) : ls = ms := by
  have hlt {ns : List Lexeme} (h : Tiling source ns) : ns.Pairwise fun l m => l.start < m.start :=
    h.increasing.imp_of_mem fun hl _ hlm => (h.nonempty _ hl).trans_le hlm
  have : Std.Antisymm fun l m : Lexeme => l.start < m.start :=
    ⟨fun _ _ hlm hml => absurd hlm hml.asymm⟩
  have : Std.Irrefl fun l m : Lexeme => l.start < m.start := ⟨fun l => lt_irrefl l.start⟩
  exact (hlt h).eq_of_mem_iff (hlt h') fun l => ⟨h.subset h', h'.subset h⟩

end Reckon.Token
