import Mathlib.Data.List.Infix
import Reckon.Proofs.Reading.Balance
import Reckon.Proofs.Reading.Sound

/-! # Exactness of the infix grammar

Where no operands stand side by side and no sign waits before a function for a bare operand, a
source is parsed exactly if its tokens are a sum of the grammar, and its tree is that of the
grammar.
-/

namespace Reckon

open Reckon.Expr Token

/-- The tokens that a row of entries is read from, the last one at the head. -/
def Pending.tokens (w : List Pending) : List Token :=
  w.reverse.map token

@[simp] theorem Pending.tokens_cons (p : Pending) (w : List Pending) :
    tokens (p :: w) = tokens w ++ [p.token] := by
  simp [tokens]

namespace Token

variable {ts us vs : List Token} {t : Token} {w : List Pending}

def isFunction : Token → Bool
  | name n => (Function.ofName? n).isSome
  | number _ | operator _ | opening | closing => false

def isUnary (m : Bool × Token) : Bool :=
  m.2.isFunction || m == (true, .operator .sub)

/-- No run of signs and functions that ends at a number or a variable has a sign before a
function. -/
def Guarded (ts : List Token) : Prop :=
  ∀ run m, run ++ [m] <:+: places ts → (∀ n ∈ run, isUnary n = true) → m.2.isOperand = true →
    run.Pairwise fun a b => ¬ (a.2 = .operator .sub ∧ b.2.isFunction = true)

theorem guarded_iff : Guarded ts ↔ ∀ s ∈ (places ts).tails, ∀ l ∈ s.inits,
    (∀ n ∈ l.dropLast, isUnary n = true) → l.getLast?.all (·.2.isOperand) = true →
      l.dropLast.Pairwise fun a b => ¬ (a.2 = .operator .sub ∧ b.2.isFunction = true) := by
  constructor
  · intro h s hs l hl
    rw [List.mem_tails] at hs
    rw [List.mem_inits] at hl
    rcases List.eq_nil_or_concat l with rfl | ⟨run, m, rfl⟩
    · simp
    · simpa using h run m (by simpa using hl.isInfix.trans hs.isInfix)
  · intro h run m hi
    obtain ⟨s, hl, hs⟩ := List.infix_iff_prefix_suffix.mp hi
    simpa using h s ((List.mem_tails _ _).mpr hs) (run ++ [m]) ((List.mem_inits _ _).mpr hl)

instance : DecidablePred Guarded :=
  fun _ => decidable_of_iff' _ guarded_iff

theorem Guarded.of_append (ts us vs : List Token) (hd : due ts = true)
    (h : Guarded (ts ++ us ++ vs)) : Guarded us := by
  intro run m hi
  refine h run m (hi.trans ?_)
  rw [List.append_assoc, places_append_of_due hd, places_append us]
  exact List.infix_append' _ _ _

theorem due_tokens (w : List Pending) : due (Pending.tokens w) = true := by
  cases w <;> simp [Pending.tokens]

theorem places_tokens (w : List Pending) :
    places (Pending.tokens w) = w.reverse.map fun p => (true, p.token) := by
  induction w with
  | nil => rfl
  | cons p w ih =>
    rw [Pending.tokens_cons, places_concat, ih, due_tokens]
    simp

theorem Guarded.pairwise (h : Guarded (Pending.tokens w ++ t :: us)) (ht : t.isOperand = true)
    (hw : ∀ p ∈ w, p.isUnary = true) :
    w.Pairwise fun p q => q = .negation → p = .negation := by
  have hrun := h (w.reverse.map fun p => (true, p.token)) (true, t)
  rw [places_append, places_tokens, due_tokens, placesFrom] at hrun
  have hpair := hrun ⟨[], placesFrom t.awaits us, by simp⟩ (fun n hn => ?_) ht
  · rw [List.pairwise_map, List.pairwise_reverse] at hpair
    refine hpair.imp_of_mem fun {p q} hp _ hpq hq => ?_
    rcases Pending.eq_of_isUnary (hw p hp) with rfl | ⟨f, rfl⟩
    · rfl
    · simp [hq, Pending.token, isFunction] at hpq
  · obtain ⟨p, hp, rfl⟩ := List.mem_map.mp hn
    rcases Pending.eq_of_isUnary (hw p (List.mem_reverse.mp hp)) with rfl | ⟨f, rfl⟩
    · rfl
    · simp [isUnary, Pending.token, isFunction]

end Token

variable {power : Associativity} {options : Options} {part : Part} {c : Category} {e : Expr}
  {σ σ' : List Expr} {ts : List Token} {w : List Pending} {source : String}

theorem Phrase.due_eq_false (h : Phrase power c ts e) : due ts = false := by
  induction h with
  | operand h => exact h.not_awaits
  | group => exact due_append_enclosed [] _
  | sign _ ih => exact (due_append_cons rfl [] _).trans ih
  | call f _ ih => exact (due_append_cons (by simp [awaits]) [] _).trans ih
  | link _ ih => exact ih
  | chain _ _ _ ih => exact (due_append_cons rfl _ _).trans ih

theorem Phrase.prepend (h : Phrase power .unary ts e) (hw : ∀ p ∈ w, p.isUnary = true) :
    Phrase power .unary (Pending.tokens w ++ ts) (wrap w e) := by
  induction w generalizing ts e with
  | nil => exact h
  | cons p w ih =>
    obtain ⟨hp, hw'⟩ := List.forall_mem_cons.mp hw
    have hp' : Phrase power .unary (p.token :: ts) (e.under p) := by
      rcases Pending.eq_of_isUnary hp with rfl | ⟨f, rfl⟩
      · exact .sign h
      · exact .call f h
    simpa using ih hp' hw'

/-- What a part leaves at hand where operands begin only and always as they are due: a row with an
operand at its end and a phrase add the tree that the grammar gives them. -/
def Part.Phrased (power : Associativity) (σ : List Expr) (ts : List Token) (σ' : List Expr) :
    Part → Prop
  | row w => (due ts = true → σ' = σ ∧ ts = Pending.tokens w) ∧
      (due ts = false → ∃ e, σ' = e :: σ ∧ Phrase power .unary ts (wrap w e))
  | phrase c => due ts = false → ∃ e, σ' = e :: σ ∧ Phrase power c ts e

theorem Reads.phrased (h : Reads power part σ ts σ')
    (hm : ∀ m ∈ places ts, isSurplus m = false ∧ isMissing m = false) :
    part.Phrased power σ ts σ' := by
  induction h with
  | nil => exact ⟨fun _ => ⟨rfl, rfl⟩, by simp⟩
  | @operand ns w σ ts σ' t e hr he hn hw ih =>
    rw [places_concat] at hm
    have hb : t.begins = true := by cases he <;> rfl
    have hd : due ts = true := by simpa [isSurplus, hb] using (hm (due ts, t) (by simp)).1
    obtain ⟨rfl, hts⟩ := (ih fun m h => hm m (by simp [h])).1 hd
    refine ⟨by simp [he.not_awaits], fun _ => ⟨_, rfl, ?_⟩⟩
    rw [hts, ← wrap_append]
    exact (Phrase.operand he).prepend hr.isUnary_of_mem
  | @unary w σ ts σ' p hr hp hneg ih =>
    rw [places_concat] at hm
    have hd : due ts = true := by
      rcases Pending.eq_of_isUnary hp with rfl | ⟨f, rfl⟩
      · exact hneg rfl
      · simpa [isSurplus, begins] using (hm (due ts, .name f.name) (by simp [Pending.token])).1
    obtain ⟨rfl, hts⟩ := (ih fun m h => hm m (by simp [h])).1 hd
    exact ⟨fun _ => ⟨rfl, by rw [Pending.tokens_cons, ← hts]⟩, by simp⟩
  | @group w σ ts σ' us e τ hr _ hd ih ihg =>
    rw [places_append_enclosed] at hm
    have hd' : due ts = true := by
      simpa [isSurplus, begins] using (hm (due ts, .opening) (by simp)).1
    obtain ⟨rfl, hts⟩ := (ih fun m h => hm m (by simp [h])).1 hd'
    obtain ⟨x, hx, hp⟩ := ihg (fun m h => hm m (by simp [h])) hd
    obtain ⟨rfl, rfl⟩ := List.cons.inj hx
    refine ⟨by simp, fun _ => ⟨_, rfl, ?_⟩⟩
    rw [hts]
    exact (Phrase.group hp).prepend hr.isUnary_of_mem
  | @bare σ ts σ' _ ih => exact (ih hm).2
  | @applied w σ ts e τ _ _ ih =>
    intro hd
    obtain ⟨x, hx, hp⟩ := (ih hm).2 hd
    obtain ⟨rfl, rfl⟩ := List.cons.inj hx
    exact ⟨_, rfl, hp⟩
  | link _ ih => exact fun hd => (ih hm hd).imp fun e h => ⟨h.1, .link h.2⟩
  | @chain op σ ts ρ us l r τ _ hsub _ ihl ihr =>
    intro hd
    rw [places_append_cons rfl] at hm
    rw [due_append_cons rfl] at hd
    have hd' : due ts = false := by
      have := (hm (due ts, .operator op) (by simp)).2
      grind [isMissing, begins]
    obtain ⟨l', rfl, hl⟩ := ihl (fun m h => hm m (by simp [h])) hd'
    obtain ⟨r', heq, hr⟩ := ihr (fun m h => hm m (by simp [h])) hd
    obtain ⟨rfl, htail⟩ := List.cons.inj heq
    obtain ⟨rfl, rfl⟩ := List.cons.inj htail
    exact ⟨_, rfl, .chain hl hr⟩

/-- The tokens are read as the tree behind any row of signs and functions: with those of the row
that are applied when an operand comes, and below those that wait for the end of the row. -/
def ReadsBehind (power : Associativity) (ts : List Token) (e : Expr) : Prop :=
  ∀ w σ, (∀ p ∈ w, p.isUnary = true) → Guarded (Pending.tokens w ++ ts) →
    ∃ w' e', Reads power (.row w') σ (Pending.tokens w ++ ts) (e' :: σ) ∧
      (∀ p ∈ w', p ≠ .negation) ∧ wrap w' e' = wrap w e

theorem ReadsBehind.reads (h : ReadsBehind power ts e) (hg : Guarded ts) (σ : List Expr) :
    Reads power (.phrase .unary) σ ts (e :: σ) := by
  obtain ⟨w, e', hr, hw, he⟩ := h [] σ (by simp) hg
  have he : wrap w e' = e := he
  exact he ▸ .applied hr hw

theorem readsBehind_cons {p : Pending} (h : ReadsBehind power ts e) (hp : p.isUnary = true) :
    ReadsBehind power (p.token :: ts) (e.under p) := by
  intro w σ hw hg
  rw [List.append_cons, ← Pending.tokens_cons] at hg ⊢
  exact h (p :: w) σ (by simpa [hp] using hw) hg

theorem reads_row (hw : ∀ p ∈ w, p.isUnary = true) (σ : List Expr) :
    Reads power (.row w) σ (Pending.tokens w) σ := by
  induction w with
  | nil => exact .nil
  | cons p w ih =>
    obtain ⟨hp, hw'⟩ := List.forall_mem_cons.mp hw
    rw [Pending.tokens_cons]
    exact .unary (ih hw') hp fun _ => due_tokens w

theorem readsBehind_operand (power : Associativity) {t : Token} (he : t.Denotes e) :
    ReadsBehind power [t] e := by
  intro w σ hw hg
  obtain ⟨ns, w, rfl, hn, hw'⟩ := Draft.exists_negations w
  refine ⟨w, wrap ns e, .operand (reads_row hw σ) he hn hw', ?_, (wrap_append ..).symm⟩
  have hpair := List.pairwise_append.mp (hg.pairwise (denotes_iff.mpr ⟨e, he⟩) hw) |>.2.1
  cases w with
  | nil => simp
  | cons p w =>
    intro q hq hneg
    rcases List.mem_cons.mp hq with rfl | hq
    · exact hw' (congrArg some hneg)
    · exact hw' (congrArg some ((List.pairwise_cons.mp hpair).1 q hq hneg))

theorem readsBehind_group (hd : due ts = false)
    (h : Guarded ts → ∀ σ, Reads power (.phrase .sum) σ ts (e :: σ)) :
    ReadsBehind power (enclosed ts) e := by
  intro w σ hw hg
  have hg' : Guarded ts :=
    Guarded.of_append (Pending.tokens w ++ [.opening]) ts [.closing] (due_concat _ _)
      (by simpa [enclosed] using hg)
  exact ⟨[], wrap w e, .group (reads_row hw σ) (h hg' σ) hd, by simp, rfl⟩

/-- A sentence of the grammar is read as its tree. -/
theorem Phrase.reads (h : Phrase power c ts e) :
    (Guarded ts → ∀ σ, Reads power (.phrase c) σ ts (e :: σ)) ∧
      (c = .unary → ReadsBehind power ts e) := by
  induction h with
  | operand he =>
    have h := readsBehind_operand power he
    exact ⟨h.reads, fun _ => h⟩
  | group hp ih =>
    have h := readsBehind_group hp.due_eq_false ih.1
    exact ⟨h.reads, fun _ => h⟩
  | sign _ ih =>
    have h := readsBehind_cons (p := .negation) (ih.2 rfl) rfl
    exact ⟨h.reads, fun _ => h⟩
  | call f _ ih =>
    have h := readsBehind_cons (p := .function f) (ih.2 rfl) rfl
    exact ⟨h.reads, fun _ => h⟩
  | link _ ih => exact ⟨fun hg σ => .link (ih.1 hg σ), by rintro rfl; exact ih.2 rfl⟩
  | @chain op ts us l r hl hr ihl ihr =>
    refine ⟨fun hg σ => ?_, fun hc => by cases op <;> cases hc⟩
    have hgl : Guarded ts := Guarded.of_append [] ts (.operator op :: us) rfl hg
    have hgr : Guarded us :=
      Guarded.of_append (ts ++ [.operator op]) us [] (due_concat _ _) (by simpa using hg)
    exact .chain (ihl.1 hgl σ) (fun _ => hl.due_eq_false) (ihr.1 hgr _)

/-- Without operands side by side nothing is missing either in what is read as one tree. -/
theorem Reads.phrase_of_not_sideBySide (h : Reads power (.phrase c) [] ts [e])
    (hs : ¬ SideBySide ts) : Phrase power c ts e := by
  have hsurplus : surplus ts = 0 := by
    rw [← surplus_pos_iff] at hs
    omega
  have hmissing : missing ts = 0 := by simpa [hsurplus] using h.balance
  rw [missing, Nat.add_eq_zero_iff] at hmissing
  obtain ⟨hcount, hd⟩ := hmissing
  rw [surplus, List.countP_eq_zero] at hsurplus
  rw [List.countP_eq_zero] at hcount
  have hm : ∀ m ∈ places ts, isSurplus m = false ∧ isMissing m = false :=
    fun m hm => ⟨by simpa using hsurplus m hm, by simpa using hcount m hm⟩
  obtain ⟨x, hx, hp⟩ := h.phrased hm (by simpa using hd)
  obtain ⟨rfl, -⟩ := List.cons.inj hx
  exact hp

namespace Expr

/-- Where no operands stand side by side and no sign waits before a function for a bare operand,
the parsed sources are the sums of the grammar and the trees those of the grammar. -/
theorem parse_eq_ok_iff_phrase
    (h : ∀ ts, tokens? source = some ts → ¬ SideBySide ts ∧ Guarded ts) :
    parse options source = .ok e ↔
      ∃ ts, tokens? source = some ts ∧ Phrase options.power .sum ts e := by
  rw [parse_eq_ok_iff_reads]
  refine exists_congr fun ts => and_congr_right fun hts => ?_
  obtain ⟨hs, hg⟩ := h ts hts
  exact ⟨fun hr => hr.phrase_of_not_sideBySide hs, fun hp => hp.reads.1 hg []⟩

theorem parse_eq_ok_iff_phrase_call :
    (∀ ts, tokens? "-sin(-x) ^ 2 ^ cos -y * (z - 1)" = some ts → ¬ SideBySide ts ∧ Guarded ts) ∧
    ∃ ts, tokens? "-sin(-x) ^ 2 ^ cos -y * (z - 1)" = some ts ∧
      Phrase .left .sum ts (.binary .mul (.binary .pow (.binary .pow
        (.negate (.call .sin (.negate (.var "x")))) (.literal 2)) (.call .cos (.negate (.var "y"))))
        (.binary .sub (.var "z") (.literal 1))) := by
  have h : ∀ ts ∈ tokens? "-sin(-x) ^ 2 ^ cos -y * (z - 1)", ¬ SideBySide ts ∧ Guarded ts := by
    decide +kernel
  have hp : parse {} "-sin(-x) ^ 2 ^ cos -y * (z - 1)" = .ok (.binary .mul (.binary .pow
      (.binary .pow (.negate (.call .sin (.negate (.var "x")))) (.literal 2))
      (.call .cos (.negate (.var "y")))) (.binary .sub (.var "z") (.literal 1))) := by
    decide +kernel
  exact ⟨h, (parse_eq_ok_iff_phrase h).mp hp⟩

end Expr

end Reckon
