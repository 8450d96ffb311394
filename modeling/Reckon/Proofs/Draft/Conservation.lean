import Mathlib.Data.List.Induction
import Reckon.Proofs.Draft.Step

/-! # Conservation of tokens

Neither a step nor the building of an entry loses, invents or reorders what has been read: the
leaves of the operands are the operands among the tokens, and each entry among the tokens is
pending, closed or a node. A parsed tree therefore accounts for all tokens of its source, also
when these are no infix expression.
-/

namespace Reckon

def Expr.leaves : Expr → List Token
  | literal x => [.number x]
  | var n => [.name n]
  | binary _ l r => l.leaves ++ r.leaves
  | negate e | call _ e => e.leaves

/-- The number of nodes that the building of an entry has left in a tree. -/
def Expr.nodes (p : Pending) : Expr → ℕ
  | literal _ | var _ => 0
  | binary op l r => l.nodes p + r.nodes p + if p = .binary op then 1 else 0
  | negate e => e.nodes p + if p = .negation then 1 else 0
  | call f e => e.nodes p + if p = .function f then 1 else 0

namespace Token

/-- The entry that a token is read as at its place. -/
def pending? : Bool × Token → Option Pending
  | (d, operator op) => some (if d ∧ op = .sub then .negation else .binary op)
  | (_, name n) => (Function.ofName? n).map .function
  | (_, opening) => some .opening
  | (_, number _) | (_, closing) => none

def entries (ts : List Token) : List Pending :=
  (places ts).filterMap pending?

variable {ts : List Token} {t : Token} {p : Pending}

@[simp] theorem entries_concat (ts : List Token) (t : Token) :
    entries (ts ++ [t]) = entries ts ++ (pending? (due ts, t)).toList := by
  rw [entries, places_append, List.filterMap_append]
  simp only [placesFrom, List.filterMap_cons, List.filterMap_nil]
  cases pending? (due ts, t) <;> rfl

theorem Denotes.pending?_eq_none {e : Expr} (h : t.Denotes e) (d : Bool) :
    pending? (d, t) = none := by
  cases h with
  | number x => rfl
  | name h => simp [pending?, h]

theorem pending?_function (d : Bool) (f : Function) :
    pending? (d, .name f.name) = some (.function f) := by
  simp [pending?]

theorem count_entries (ts : List Token) (p : Pending) :
    (entries ts).count p = (places ts).countP fun m => pending? m = some p := by
  rw [entries, List.count_filterMap]
  exact List.countP_congr fun m _ => by simp

theorem count_entries_of_iff (h : ∀ d u, pending? (d, u) = some p ↔ u = t) :
    (entries ts).count p = ts.count t := by
  conv_rhs => rw [← placesFrom_map_snd true ts]
  rw [count_entries, List.count_eq_countP, List.countP_map]
  exact List.countP_congr fun m _ => by simp [h]

theorem count_entries_of_place_iff {d : Bool} (h : ∀ m, pending? m = some p ↔ m = (d, t)) :
    (entries ts).count p = (places ts).count (d, t) := by
  rw [count_entries, List.count_eq_countP]
  exact List.countP_congr fun m _ => by simp [h]

theorem pending?_eq_negation_iff (m : Bool × Token) :
    pending? m = some .negation ↔ m = (true, .operator .sub) := by
  obtain ⟨d, t⟩ := m
  cases t <;> simp [pending?]

theorem pending?_eq_subtraction_iff (m : Bool × Token) :
    pending? m = some (.binary .sub) ↔ m = (false, .operator .sub) := by
  obtain ⟨d, t⟩ := m
  cases t with
  | operator op => cases d <;> simp [pending?]; split <;> simp_all
  | number x | name n | opening | closing => simp [pending?]

theorem pending?_eq_operator_iff {op : Operator} (hop : op ≠ .sub) (d : Bool) (t : Token) :
    pending? (d, t) = some (.binary op) ↔ t = .operator op := by
  cases t with
  | operator o => simp only [pending?]; split <;> simp_all [eq_comm]
  | number x | name n | opening | closing => simp [pending?]

theorem pending?_eq_function_iff (f : Function) (d : Bool) (t : Token) :
    pending? (d, t) = some (.function f) ↔ t = .name f.name := by
  cases t with
  | name n => simp [pending?, Function.ofName?_eq_some_iff, eq_comm (a := n)]
  | operator o => simp only [pending?]; split <;> simp
  | number x | opening | closing => simp [pending?]

theorem pending?_eq_opening_iff (d : Bool) (t : Token) :
    pending? (d, t) = some .opening ↔ t = .opening := by
  cases t with
  | operator o => simp only [pending?]; split <;> simp
  | number x | name n | opening | closing => simp [pending?]

end Token

namespace Expr

variable {e : Expr} {p : Pending} {w : List Pending}

theorem leaves_wrap (w : List Pending) (e : Expr) : (wrap w e).leaves = e.leaves := by
  induction w generalizing e with
  | nil => rfl
  | cons p w ih =>
    rw [wrap_cons, ih]
    cases p <;> rfl

theorem nodes_wrap (hw : ∀ q ∈ w, q.isUnary = true) :
    (wrap w e).nodes p = e.nodes p + w.count p := by
  induction w generalizing e with
  | nil => rfl
  | cons q w ih =>
    obtain ⟨hq, hw'⟩ := List.forall_mem_cons.mp hw
    rw [wrap_cons, ih hw', List.count_cons]
    rcases Pending.eq_of_isUnary hq with rfl | ⟨f, rfl⟩ <;>
      simp only [under, nodes, beq_iff_eq, @eq_comm _ p] <;> omega

theorem nodes_opening (e : Expr) : e.nodes .opening = 0 := by
  induction e <;> simp_all [nodes]

theorem leaves_of_denotes {t : Token} (h : t.Denotes e) : e.leaves = [t] := by
  cases h <;> rfl

theorem nodes_of_denotes {t : Token} (h : t.Denotes e) : e.nodes p = 0 := by
  cases h <;> rfl

end Expr

namespace Draft

open Reckon.Expr Token

variable {options : Options} {d d' : Draft} {t : Token} {ts : List Token}
  {σ σ' : List Expr} {π π' : List Pending} {k : ℕ} {p : Pending}

/-- The leaves of the operands in the order in which they were read. -/
def leavesOf (σ : List Expr) : List Token :=
  σ.reverse.flatMap leaves

def nodesOf (p : Pending) : List Expr → ℕ
  | [] => 0
  | e :: σ => e.nodes p + nodesOf p σ

@[simp] theorem leavesOf_cons (e : Expr) (σ : List Expr) :
    leavesOf (e :: σ) = leavesOf σ ++ e.leaves := by
  simp [leavesOf]

theorem nodesOf_opening (σ : List Expr) : nodesOf .opening σ = 0 := by
  induction σ with
  | nil => rfl
  | cons e σ ih => rw [nodesOf, nodes_opening, ih]

theorem leavesOf_build (h : build p σ = .ok σ') : leavesOf σ' = leavesOf σ := by
  unfold build at h
  split at h <;> simp only [Except.ok.injEq, reduceCtorEq] at h <;> subst h <;> simp [leaves]

theorem nodesOf_build {q : Pending} (h : build p σ = .ok σ') :
    nodesOf q σ' = nodesOf q σ + if p = q then 1 else 0 := by
  unfold build at h
  split at h <;> simp only [Except.ok.injEq, reduceCtorEq] at h <;> subst h <;>
    simp only [nodesOf, nodes, @eq_comm _ q] <;> omega

theorem leavesOf_reduce (h : reduce k σ π = .ok (σ', π')) : leavesOf σ' = leavesOf σ :=
  (reduce_preserves (P := fun τ _ => leavesOf τ = leavesOf σ)
    (fun _ _ _ _ hb hl => (leavesOf_build hb).trans hl) h rfl).1

theorem nodesOf_reduce (h : reduce k σ π = .ok (σ', π')) :
    nodesOf p σ' + π'.count p = nodesOf p σ + π.count p := by
  refine (reduce_preserves (P := fun τ θ => nodesOf p τ + θ.count p = nodesOf p σ + π.count p)
    ?_ h rfl).1
  intro q τ τ' θ hb hn
  rw [← hn, nodesOf_build hb, List.count_cons]
  simp only [beq_iff_eq]
  omega

/-- The parentheses among the tokens that are closed, if the entry is an open one. -/
def closed (p : Pending) (ts : List Token) : ℕ :=
  if p = .opening then ts.count .closing else 0

@[simp] theorem closed_concat_closing (p : Pending) (ts : List Token) :
    closed p (ts ++ [.closing]) = closed p ts + if .opening = p then 1 else 0 := by
  by_cases h : p = .opening
  · simp [closed, h]
  · simp [closed, h, Ne.symm h]

theorem closed_concat (p : Pending) (ts : List Token) (h : t ≠ .closing) :
    closed p (ts ++ [t]) = closed p ts := by
  simp [closed, h]

/-- The draft holds what has been read: no leaf and no entry is lost, invented or reordered. -/
structure Accounts (ts : List Token) (d : Draft) : Prop where
  due : d.expectsOperand = Token.due ts
  leaves : leavesOf d.operands = ts.filter isOperand
  entries : ∀ p, nodesOf p d.operands + d.pending.count p + closed p ts = (Token.entries ts).count p

theorem accounts_empty : Accounts [] empty :=
  ⟨rfl, rfl, fun p => by simp [nodesOf, empty, closed, Token.entries, places, placesFrom]⟩

theorem Accounts.step (h : Accounts ts d) (hs : Step options d t d') : Accounts (ts ++ [t]) d' := by
  obtain ⟨hd, hl, he⟩ := h
  cases hs with
  | @operand t e ns π σ b hden hn hπ =>
    have hu : ∀ p ∈ ns, p.isUnary = true := fun p hp => hn p hp ▸ rfl
    have hc : t ≠ .closing := by rintro rfl; cases hden
    refine ⟨by simp [hden.not_awaits], ?_, fun p => ?_⟩
    · simp [leaves_wrap, leaves_of_denotes hden, hl, denotes_iff.mpr ⟨e, hden⟩]
    · have := he p
      simp only [nodesOf, nodes_wrap hu, nodes_of_denotes hden, closed_concat p ts hc,
        entries_concat, hden.pending?_eq_none, List.count_append, Option.toList_none,
        List.count_nil] at this ⊢
      omega
  | @unary p π σ b hp hb =>
    have hc : p.token ≠ .closing := by cases p <;> simp [Pending.token]
    have ho : p.token.isOperand = false := by
      cases p <;> simp [Pending.token, isOperand]
    have hp' : pending? (Token.due ts, p.token) = some p := by
      rcases Pending.eq_of_isUnary hp with rfl | ⟨f, rfl⟩
      · simpa [pending?, Pending.token] using hd.symm.trans (hb rfl)
      · exact pending?_function _ f
    refine ⟨by simp, by simp [hl, ho], fun q => ?_⟩
    have := he q
    simp only [closed_concat q ts hc, entries_concat, hp', List.count_append, List.count_cons,
      Option.toList_some, List.count_nil] at this ⊢
    omega
  | @opening π σ b =>
    have hc : Token.opening ≠ .closing := by simp
    refine ⟨by simp [awaits], by simp [hl, isOperand], fun q => ?_⟩
    have := he q
    simp only [closed_concat q ts hc, entries_concat, pending?, List.count_append,
      List.count_cons, Option.toList_some, List.count_nil] at this ⊢
    omega
  | @operator op π π' σ σ' b hb hr =>
    have hc : Token.operator op ≠ .closing := by simp
    have hop : pending? (Token.due ts, .operator op) = some (.binary op) := by
      simp only [pending?, ← hd]
      split <;> simp_all
    refine ⟨by simp [awaits], by simp [leavesOf_reduce hr, hl, isOperand], fun q => ?_⟩
    have := he q
    have := nodesOf_reduce (p := q) hr
    simp only [closed_concat q ts hc, entries_concat, hop, List.count_append,
      List.count_cons, Option.toList_some, List.count_nil] at *
    omega
  | @closing e w π π' σ σ' hr hw hπ =>
    refine ⟨by simp [awaits], ?_, fun q => ?_⟩
    · simpa [leaves_wrap, isOperand, hl] using leavesOf_reduce hr
    · have := he q
      have := nodesOf_reduce (p := q) hr
      simp only [nodesOf, nodes_wrap hw, closed_concat_closing, entries_concat, pending?,
        List.count_append, List.count_cons, Option.toList_none, List.count_nil, beq_iff_eq] at *
      omega

theorem Pushes.accounts (h : Pushes options empty ts d) : Accounts ts d := by
  induction ts using List.reverseRecOn generalizing d with
  | nil => exact pushes_nil.mp h ▸ accounts_empty
  | append_singleton ts t ih =>
    obtain ⟨c, hc, hs⟩ := pushes_concat.mp h
    exact (ih hc).step hs

theorem Pushes.count_opening (h : Pushes options empty ts d) :
    d.pending.count .opening + ts.count .closing = ts.count .opening := by
  have he := h.accounts.entries .opening
  rwa [nodesOf_opening, Nat.zero_add, closed, if_pos rfl,
    count_entries_of_iff (pending?_eq_opening_iff · ·)] at he

theorem Pushes.count_closing_le (h : Pushes options empty ts d) :
    ts.count .closing ≤ ts.count .opening := by
  rw [← h.count_opening]
  exact Nat.le_add_left _ _

theorem Pushes.leaves_of_finish {e : Expr} (h : Pushes options empty ts d)
    (hd : d.finish = .ok e) : e.leaves = ts.filter isOperand := by
  rw [← h.accounts.leaves, ← leavesOf_reduce (finish_eq_ok_iff.mp hd)]
  simp [leavesOf]

end Draft

namespace Expr

open Draft Token

/-- The tree and the tokens have the same parts: the operands in the same order, each operator and
each function as often, and a sign for each minus where an operand is due. -/
structure Accounts (e : Expr) (ts : List Token) : Prop where
  leaves : e.leaves = ts.filter isOperand
  operators : ∀ op ≠ .sub, e.nodes (.binary op) = ts.count (.operator op)
  subtractions : e.nodes (.binary .sub) = (places ts).count (false, .operator .sub)
  negations : e.nodes .negation = (places ts).count (true, .operator .sub)
  calls : ∀ f, e.nodes (.function f) = ts.count (.name f.name)

/-- A parsed tree accounts for all tokens of its source, and the parentheses are balanced. -/
theorem parse_accounts {options : Options} {source : String} {e : Expr}
    (h : parse options source = .ok e) :
    ∃ ts, tokens? source = some ts ∧ e.Accounts ts ∧
      (∀ us, us <+: ts → us.count .closing ≤ us.count .opening) ∧
      ts.count .closing = ts.count .opening := by
  obtain ⟨ts, hts, d, hp, hd⟩ := parse_eq_ok_iff.mp h
  have hr := finish_eq_ok_iff.mp hd
  have hnodes (p : Pending) : e.nodes p + closed p ts = (entries ts).count p := by
    rw [← hp.accounts.entries, ← nodesOf_reduce hr]
    simp [nodesOf]
  have hnodes' {p : Pending} (hp : p ≠ .opening) : e.nodes p = (entries ts).count p := by
    simpa [closed, hp] using hnodes p
  refine ⟨ts, hts, ⟨hp.leaves_of_finish hd, ?_, ?_, ?_, ?_⟩, ?_, ?_⟩
  · intro op hop
    rw [hnodes' (by simp), count_entries_of_iff (pending?_eq_operator_iff hop)]
  · rw [hnodes' (by simp), count_entries_of_place_iff pending?_eq_subtraction_iff]
  · rw [hnodes' (by simp), count_entries_of_place_iff pending?_eq_negation_iff]
  · intro f
    rw [hnodes' (by simp), count_entries_of_iff (pending?_eq_function_iff f)]
  · rintro us ⟨vs, rfl⟩
    obtain ⟨c, hc, -⟩ := pushes_append.mp hp
    exact hc.count_closing_le
  · have := hnodes .opening
    rw [nodes_opening, count_entries_of_iff pending?_eq_opening_iff, closed, if_pos rfl] at this
    omega

/-- Operators behind their operands are no infix expression and are accounted for as well. -/
theorem parse_accounts_behind :
    parse {} "-x sin(-y) 3 * +" = .ok (.binary .add (.negate (.var "x"))
      (.binary .mul (.call .sin (.negate (.var "y"))) (.literal 3))) ∧
    ∃ ts, tokens? "-x sin(-y) 3 * +" = some ts ∧
      Accounts (.binary .add (.negate (.var "x"))
        (.binary .mul (.call .sin (.negate (.var "y"))) (.literal 3))) ts ∧
      (∀ us, us <+: ts → us.count .closing ≤ us.count .opening) ∧
      ts.count .closing = ts.count .opening :=
  have h : parse {} "-x sin(-y) 3 * +" = .ok (.binary .add (.negate (.var "x"))
      (.binary .mul (.call .sin (.negate (.var "y"))) (.literal 3))) := by decide +kernel
  ⟨h, parse_accounts h⟩

end Expr

end Reckon
