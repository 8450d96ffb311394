import Reckon.Proofs.Draft.Conservation
import Reckon.Proofs.Reading.Group
import Reckon.Proofs.Reading.Sound
import Reckon.Proofs.Token.Tiling

/-! # Faults

A symbol is reported only if it is unexpected at some place of the source: a character that is
rejected, a parenthesis that closes no group or closes one where an operand is due, or a sign. All
other errors name the source itself.
-/

namespace Reckon

namespace Token

variable {source : String} {c : Char} {p : Pending}

/-- Behind the tokens the item is unexpected, and the symbol is its text. -/
inductive Unexpected (ts : List Token) : Item → String → Prop
  | rejected (c : Char) : Unexpected ts (.rejected c) (.singleton c)
  | unmatched (h : ¬ ClosesGroup ts) : Unexpected ts (.token .closing) ")"
  | early (h : due ts = true) : Unexpected ts (.token .closing) ")"
  | sign (h : due ts = true) : Unexpected ts (.token (.operator .sub)) "-"

/-- A parenthesis begins or ends no group, or ends one where an operand is due. -/
inductive Unpaired : List Token → Prop
  | opening {us vs} (h : ¬ OpensGroup vs) : Unpaired (us ++ .opening :: vs)
  | closing {us vs} (h : ¬ ClosesGroup us) : Unpaired (us ++ .closing :: vs)
  | early {us vs} (h : due us = true) : Unpaired (us ++ .closing :: vs)

theorem symbol_eq_singleton (h : p.symbol = .singleton c) : c ∈ symbols ∧ c ≠ ')' := by
  have hc := congrArg String.toList h
  rw [String.toList_singleton] at hc
  cases p with
  | binary op =>
    cases op <;>
    · obtain ⟨rfl, -⟩ := List.cons.inj hc
      decide
  | function f => cases f <;> exact absurd (List.cons.inj hc).2 (List.cons_ne_nil _ _)
  | negation | opening =>
    obtain ⟨rfl, -⟩ := List.cons.inj hc
    decide

theorem not_mem_symbols_of_rejected (h : .rejected c ∈ items source) : c ∉ symbols := by
  obtain ⟨l, hl, hitem⟩ := List.mem_map.mp h
  obtain ⟨_, _, -, -, hlongest⟩ := exists_longest_of_mem hl
  rw [hitem] at hlongest
  generalize l.text.toList = text at hlongest
  cases hlongest with
  | rejected _ _ _ hsymbol => exact hsymbol

theorem Unexpected.eq_of_symbol {ts : List Token} {i : Item} (h : Unexpected ts i p.symbol)
    (hi : i ∈ items source) : p.symbol = "-" := by
  generalize hs : p.symbol = symbol at h
  cases h with
  | rejected c => exact absurd (symbol_eq_singleton hs).1 (not_mem_symbols_of_rejected hi)
  | unmatched | early => exact absurd rfl (symbol_eq_singleton (c := ')') hs).2
  | sign => rfl

end Token

namespace Draft

open Reckon.Expr Token

variable {options : Options} {d : Draft} {i : Item} {items : List Item} {f : Fault}
  {symbol : String} {p : Pending} {σ σ' : List Expr} {π π' : List Pending} {ts : List Token} {k : ℕ}

inductive Fails (d : Draft) : Item → Fault → Prop
  | rejected (c : Char) : Fails d (.rejected c) (.unexpected (.singleton c))
  | early (h : d.expectsOperand = true) : Fails d (.token .closing) (.unexpected ")")
  | unmatched (h : .opening ∉ d.pending) : Fails d (.token .closing) (.unexpected ")")
  | sign {i : Item} (h : .negation ∈ d.pending) : Fails d i (.unexpected "-")
  | malformed {i : Item} : Fails d i .malformed

theorem build_eq_error (h : build p σ = .error f) :
    f = .malformed ∨ p = .opening ∨ p = .negation ∧ f = .unexpected "-" := by
  unfold build at h
  split at h
  · cases h
  · cases h
  · exact .inl (Except.error.inj h).symm
  · exact .inl (Except.error.inj h).symm
  · exact .inr (.inr ⟨rfl, (Except.error.inj h).symm⟩)
  · exact .inr (.inl rfl)

theorem reduce_eq_error (hk : 0 < k) (h : reduce k σ π = .error f) :
    f = .malformed ∨ .negation ∈ π ∧ f = .unexpected "-" := by
  induction π generalizing σ with
  | nil => cases h
  | cons p π ih =>
    by_cases hp : p.precedence < k
    · rw [reduce_of_below (below_cons.mpr hp)] at h
      cases h
    · cases hb : build p σ with
      | ok τ =>
        rw [reduce_of_build (not_lt.mp hp) hb] at h
        exact (ih h).imp_right fun hs => ⟨List.mem_cons_of_mem p hs.1, hs.2⟩
      | error g =>
        rw [reduce, if_neg hp, hb] at h
        obtain rfl := Except.error.inj h
        rcases build_eq_error hb with hm | rfl | ⟨rfl, hs⟩
        · exact .inl hm
        · exact absurd hk hp
        · exact .inr ⟨List.mem_cons_self, hs⟩

theorem fails_of_reduce (hk : 0 < k) (h : reduce k d.operands d.pending = .error f) (i : Item) :
    Fails d i f := by
  rcases reduce_eq_error hk h with rfl | ⟨hm, rfl⟩
  · exact .malformed
  · exact .sign hm

theorem eq_opening_of_below (h : Below 1 (p :: π)) : p = .opening := by
  cases p with
  | opening => rfl
  | binary op => cases op <;> simp [Pending.precedence, Operator.precedence] at h
  | negation | function f => simp [Pending.precedence] at h

theorem opening_mem_of_build (h : build p σ = .ok σ') (hm : .opening ∈ p :: π) : .opening ∈ π := by
  rcases List.mem_cons.mp hm with rfl | hπ
  · cases h
  · exact hπ

theorem exists_opening_of_reduce (h : reduce 1 σ π = .ok (σ', π')) (hm : .opening ∈ π) :
    ∃ θ, π' = .opening :: θ := by
  obtain ⟨hmem, hbelow⟩ := reduce_preserves (P := fun _ θ => .opening ∈ θ)
    (fun _ _ _ _ => opening_mem_of_build) h hm
  obtain ⟨p, θ, rfl⟩ := List.exists_cons_of_ne_nil (List.ne_nil_of_mem hmem)
  exact ⟨θ, by rw [eq_opening_of_below hbelow]⟩

theorem fails_of_close (h : d.close = .error f) : Fails d (.token .closing) f := by
  cases hd : d.expectsOperand with
  | true =>
    rw [close, if_pos hd] at h
    obtain rfl := Except.error.inj h
    exact .early hd
  | false =>
    rw [close, if_neg (Bool.eq_false_iff.mp hd)] at h
    cases hr : reduce 1 d.operands d.pending with
    | error g =>
      rw [hr] at h
      obtain rfl := Except.error.inj h
      exact fails_of_reduce Nat.one_pos hr _
    | ok r =>
      simp only [hr, bind, Except.bind] at h
      split at h
      · cases h
      · obtain rfl := Except.error.inj h
        exact .malformed
      · next hne hne' =>
        obtain rfl := Except.error.inj h
        refine .unmatched fun hm => ?_
        obtain ⟨σ', π'⟩ := r
        obtain ⟨θ, rfl⟩ := exists_opening_of_reduce hr hm
        cases σ' with
        | nil => exact hne' _ rfl
        | cons e σ' => exact hne _ _ _ rfl

theorem one_le_tier (options : Options) (op : Operator) : 1 ≤ tier options op := by
  unfold tier
  split <;> cases op <;> decide

theorem fails_of_pushItem (h : d.pushItem options i = .error f) : Fails d i f := by
  cases i with
  | rejected c =>
    obtain rfl := Except.error.inj h
    exact .rejected c
  | token t =>
    cases t with
    | number x => cases h
    | name n =>
      rw [pushItem, pushToken] at h
      split at h <;> cases h
    | operator op =>
      rw [pushItem, pushToken, pushOperator] at h
      split at h
      · cases h
      · cases hr : reduce (tier options op) d.operands d.pending with
        | ok r =>
          rw [hr] at h
          cases h
        | error g =>
          rw [hr] at h
          obtain rfl := Except.error.inj h
          exact fails_of_reduce (one_le_tier options op) hr _
    | opening => cases h
    | closing => exact fails_of_close h

theorem finish_eq_error (h : d.finish = .error f) : f = .malformed := by
  rw [finish] at h
  split at h
  · cases h
  · exact (Except.error.inj h).symm

theorem fails_of_pushItems (h : d.pushItems options items = .error f) : ∃ ts d' i rest,
    items = ts.map Item.token ++ i :: rest ∧ Pushes options d ts d' ∧ Fails d' i f := by
  induction items generalizing d with
  | nil => cases h
  | cons i items ih =>
    cases hc : d.pushItem options i with
    | error g =>
      rw [pushItems, List.foldlM_cons, hc] at h
      obtain rfl := Except.error.inj h
      exact ⟨[], d, i, items, rfl, pushes_nil.mpr rfl, fails_of_pushItem hc⟩
    | ok c =>
      rw [pushItems, List.foldlM_cons, hc] at h
      obtain ⟨ts, d', j, rest, rfl, hp, hf⟩ := ih h
      cases i with
      | rejected c => cases hc
      | token t =>
        exact ⟨t :: ts, d', j, rest, rfl, pushes_cons.mpr ⟨c, pushToken_eq_ok_iff.mp hc, hp⟩, hf⟩

theorem Accounts.exists_sign (h : Accounts ts d) (hm : .negation ∈ d.pending) :
    ∃ us vs, ts = us ++ .operator .sub :: vs ∧ Token.due us = true := by
  have he := h.entries .negation
  rw [count_entries_of_place_iff pending?_eq_negation_iff] at he
  have hwaits := List.count_pos_iff.mpr hm
  have hpos : 0 < (places ts).count (true, .operator .sub) := by omega
  obtain ⟨us, vs, hts, hd⟩ := mem_places_iff.mp (List.count_pos_iff.mp hpos)
  exact ⟨us, vs, hts, hd.symm⟩

theorem Pushes.not_closesGroup (h : Pushes options empty ts d) (hm : .opening ∉ d.pending) :
    ¬ ClosesGroup ts := by
  rintro ⟨us, hus, vs, hvs⟩
  obtain rfl : vs ++ .opening :: us = ts := by
    rw [enclosed, ← List.append_assoc, List.append_left_inj] at hvs
    exact hvs
  obtain ⟨c, hc, -⟩ := pushes_append.mp h
  have hle := hc.count_closing_le
  have he := h.count_opening
  rw [List.count_eq_zero.mpr hm, List.count_append, List.count_append, List.count_cons_self,
    List.count_cons_of_ne (by decide), hus.count_eq] at he
  omega

theorem Fails.exists_unexpected (hf : Fails d i (.unexpected symbol))
    (h : Pushes options empty ts d) : ∃ us j rest,
      ts.map Item.token ++ [i] = us.map Item.token ++ j :: rest ∧ Unexpected us j symbol := by
  cases hf with
  | rejected c => exact ⟨ts, _, [], rfl, .rejected c⟩
  | early hd => exact ⟨ts, _, [], rfl, .early (h.accounts.due ▸ hd)⟩
  | unmatched hm => exact ⟨ts, _, [], rfl, .unmatched (h.not_closesGroup hm)⟩
  | sign hm =>
    obtain ⟨us, vs, rfl, hd⟩ := h.accounts.exists_sign hm
    exact ⟨us, _, vs.map Item.token ++ [i], by simp, .sign hd⟩

end Draft

namespace Expr

open Draft Token

variable {options : Options} {source : String} {e : Expr} {ts : List Token} {c : Char}

theorem exists_unexpected_of_ofItems {items : List Item} {symbol : String}
    (h : ofItems options items = .error (.unexpected symbol)) :
    ∃ ts i rest, items = ts.map Item.token ++ i :: rest ∧ Unexpected ts i symbol := by
  cases hp : empty.pushItems options items with
  | ok d =>
    rw [ofItems, hp] at h
    cases finish_eq_error h
  | error f =>
    rw [ofItems, hp] at h
    obtain rfl := Except.error.inj h
    obtain ⟨ts, d, i, rest, rfl, hpush, hf⟩ := fails_of_pushItems hp
    obtain ⟨us, j, rest', hus, hu⟩ := hf.exists_unexpected hpush
    refine ⟨us, j, rest' ++ rest, ?_, hu⟩
    rw [List.append_cons, hus, List.append_assoc, List.cons_append]

theorem not_unpaired (h : parse options source = .ok e) (hts : tokens? source = some ts) :
    ¬ Unpaired ts := by
  obtain ⟨ts', hts', hr⟩ := parse_eq_ok_iff_reads.mp h
  obtain rfl := Option.some.inj (hts'.symm.trans hts)
  intro hu
  cases hu with
  | opening hnot => exact hnot hr.balanced.opensGroup
  | closing hnot => exact hnot hr.balanced.closesGroup
  | early hd =>
    obtain ⟨ts', hts', d, hp, -⟩ := parse_eq_ok_iff.mp h
    obtain rfl := Option.some.inj (hts'.symm.trans hts)
    obtain ⟨c, hc, hp⟩ := pushes_append.mp hp
    obtain ⟨c', hs, -⟩ := pushes_cons.mp hp
    have hclose := pushToken_eq_ok_iff.mpr hs
    rw [pushToken, close, if_pos (hc.accounts.due.trans hd)] at hclose
    cases hclose

/-- The error of a source names the source itself or a symbol that is unexpected in it, which is that
of a sign, of a parenthesis that closes or of the first character that is rejected. No source is
parsed in which a character is rejected or a parenthesis is not paired. -/
theorem parse_error_unexpected (options : Options) (source : String) :
    (∀ f, parse options source = .error f → f = .invalidExpression source ∨
      ∃ symbol ts i rest, f = .unexpectedToken symbol ∧
        items source = ts.map Item.token ++ i :: rest ∧ Unexpected ts i symbol ∧
          ∀ p : Pending, p.symbol = symbol → symbol = "-") ∧
    (∀ c, .rejected c ∈ items source → ∃ f, parse options source = .error f) ∧
    ∀ ts, tokens? source = some ts → Unpaired ts → ∃ f, parse options source = .error f := by
  refine ⟨fun f hf => ?_, fun c hc => ?_, fun ts hts hu => ?_⟩
  · cases h : ofItems options (items source) with
    | ok e =>
      rw [parse, h] at hf
      cases hf
    | error g =>
      rw [parse, h] at hf
      obtain rfl := Except.error.inj hf
      cases g with
      | malformed => exact .inl rfl
      | unexpected symbol =>
        obtain ⟨ts, i, rest, hitems, hu⟩ := exists_unexpected_of_ofItems h
        refine .inr ⟨symbol, ts, i, rest, rfl, hitems, hu, ?_⟩
        rintro p rfl
        have hi : i ∈ items source := by
          rw [hitems]
          exact List.mem_append_right _ List.mem_cons_self
        exact hu.eq_of_symbol hi
  · cases h : parse options source with
    | error f => exact ⟨f, rfl⟩
    | ok e =>
      obtain ⟨ts, hts, -⟩ := parse_eq_ok_iff.mp h
      rw [tokens?_eq_some_iff.mp hts] at hc
      simp at hc
  · cases h : parse options source with
    | error f => exact ⟨f, rfl⟩
    | ok e => exact absurd hu (not_unpaired h hts)

/-- A sign that waits behind a function is what is reported at the sum. -/
theorem parse_error_unexpected_sign :
    parse {} "-sin x + 1" = .error (.unexpectedToken "-") ∧
    (∃ ts i rest, items "-sin x + 1" = ts.map Item.token ++ i :: rest ∧ Unexpected ts i "-") ∧
    (∃ f, parse {} "x % (" = .error f) ∧ ∃ f, parse {} "x * (2" = .error f := by
  have hsign : parse {} "-sin x + 1" = .error (.unexpectedToken "-") := by decide +kernel
  have hrejected : .rejected '%' ∈ items "x % (" := by decide +kernel
  have hts : tokens? "x * (2" = some [.name "x", .operator .mul, .opening, .number 2] := by
    decide +kernel
  have hunpaired : Unpaired [.name "x", .operator .mul, .opening, .number 2] := by
    refine @Unpaired.opening [.name "x", .operator .mul] _ ?_
    rintro ⟨us, -, hus⟩
    have hmem := hus.subset (List.mem_append_right _ (List.mem_singleton_self Token.closing))
    simp at hmem
  refine ⟨hsign, ?_, (parse_error_unexpected {} "x % (").2.1 _ hrejected,
    (parse_error_unexpected {} "x * (2").2.2 _ hts hunpaired⟩
  rcases (parse_error_unexpected {} "-sin x + 1").1 _ hsign with
    hf | ⟨symbol, ts, i, rest, hf, hitems, hu, -⟩
  · cases hf
  · obtain rfl := ParseError.unexpectedToken.inj hf
    exact ⟨ts, i, rest, hitems, hu⟩

end Expr

end Reckon
