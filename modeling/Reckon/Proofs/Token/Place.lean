import Mathlib.Data.List.Induction
import Reckon.Expr
import Reckon.Expr.Pending
import Reckon.Token.Lexer

/-! # Places of tokens

The token before it decides whether an operand is due at a token. Where one is due a minus is a
sign; a number, a name or a parenthesis that opens where none is due stands side by side with the
operand before it.
-/

namespace Reckon

@[simp] theorem Function.ofName?_name (f : Function) : ofName? f.name = some f :=
  (ofName?_eq_some_iff _ f).mpr rfl

theorem Pending.eq_of_isUnary {p : Pending} (h : p.isUnary = true) :
    p = .negation ∨ ∃ f, p = .function f := by
  cases p with
  | negation => exact .inl rfl
  | function f => exact .inr ⟨f, rfl⟩
  | binary op | opening => simp [isUnary] at h

theorem Pending.precedence_of_isUnary {p : Pending} (h : p.isUnary = true) : p.precedence = 4 := by
  rcases eq_of_isUnary h with rfl | ⟨f, rfl⟩ <;> rfl

def Pending.token : Pending → Token
  | binary op => .operator op
  | negation => .operator .sub
  | function f => .name f.name
  | opening => .opening

def Item.token? : Item → Option Token
  | token t => some t
  | rejected _ => none

namespace Token

variable {ts us : List Token}

/-- The tokens of a source in which no character is rejected. -/
def tokens? (source : String) : Option (List Token) :=
  (items source).mapM Item.token?

/-- Whether the token is one that an operand has to follow. -/
def awaits : Token → Bool
  | operator _ | opening => true
  | name n => (Function.ofName? n).isSome
  | number _ | closing => false

/-- Whether an operand is due behind the tokens, as it is at the start. -/
def due (ts : List Token) : Bool :=
  (ts.getLast?.map awaits).getD true

/-- Each token with whether an operand is due at it, when `d` says so for the first. -/
def placesFrom (d : Bool) : List Token → List (Bool × Token)
  | [] => []
  | t :: ts => (d, t) :: placesFrom t.awaits ts

def places (ts : List Token) : List (Bool × Token) :=
  placesFrom true ts

def enclosed (ts : List Token) : List Token :=
  .opening :: ts ++ [.closing]

/-- The tree of a number, or of a name that is not a builtin function's. -/
inductive Denotes : Token → Expr → Prop
  | number (x : Float) : Denotes (.number x) (.literal x)
  | name {n : String} (h : Function.ofName? n = none) : Denotes (.name n) (.var n)

def isOperand : Token → Bool
  | number _ => true
  | name n => (Function.ofName? n).isNone
  | operator _ | opening | closing => false

/-- Whether an operand begins with the token even where none is due. -/
def begins : Token → Bool
  | number _ | name _ | opening => true
  | operator _ | closing => false

@[simp] theorem due_nil : due [] = true := rfl

@[simp] theorem due_concat (ts : List Token) (t : Token) : due (ts ++ [t]) = t.awaits := by
  simp [due]

theorem due_append_of_due (h : due ts = true) (us : List Token) : due (ts ++ us) = due us := by
  rcases List.eq_nil_or_concat us with rfl | ⟨us, u, rfl⟩
  · simpa using h
  · rw [List.concat_eq_append, ← List.append_assoc, due_concat, due_concat]

theorem due_append_cons {t : Token} (h : t.awaits = true) (ts us : List Token) :
    due (ts ++ t :: us) = due us := by
  rw [List.append_cons, due_append_of_due (by rw [due_concat, h])]

@[simp] theorem due_append_enclosed (ts us : List Token) : due (ts ++ enclosed us) = false := by
  rw [enclosed, ← List.append_assoc]
  exact due_concat _ _

theorem placesFrom_append (d : Bool) (ts us : List Token) :
    placesFrom d (ts ++ us) =
      placesFrom d ts ++ placesFrom ((ts.getLast?.map awaits).getD d) us := by
  induction ts generalizing d with
  | nil => rfl
  | cons t ts ih =>
    rw [List.cons_append, placesFrom, placesFrom, ih, List.cons_append]
    cases ts <;> simp [List.getLast?_cons]

theorem places_append (ts us : List Token) :
    places (ts ++ us) = places ts ++ placesFrom (due ts) us :=
  placesFrom_append true ts us

theorem places_concat (ts : List Token) (t : Token) :
    places (ts ++ [t]) = places ts ++ [(due ts, t)] :=
  places_append ts [t]

theorem places_append_of_due (h : due ts = true) (us : List Token) :
    places (ts ++ us) = places ts ++ places us := by
  rw [places_append, h]
  rfl

theorem places_append_cons {t : Token} (h : t.awaits = true) (ts us : List Token) :
    places (ts ++ t :: us) = places ts ++ (due ts, t) :: places us := by
  rw [List.append_cons, places_append_of_due (by rw [due_concat, h]), places_concat,
    List.append_assoc, List.singleton_append]

theorem places_append_enclosed (ts us : List Token) : places (ts ++ enclosed us) =
    places ts ++ (due ts, .opening) :: places us ++ [(due us, .closing)] := by
  rw [enclosed, ← List.append_assoc, places_concat, List.append_cons, ← List.append_cons,
    places_append_cons rfl, due_append_cons rfl]

theorem mem_places_iff {d : Bool} {t : Token} :
    (d, t) ∈ places ts ↔ ∃ us vs, ts = us ++ t :: vs ∧ d = due us := by
  constructor
  · induction ts using List.reverseRecOn with
    | nil => simp [places, placesFrom]
    | append_singleton ts u ih =>
      rw [places_concat, List.mem_append, List.mem_singleton, Prod.mk.injEq]
      rintro (h | ⟨rfl, rfl⟩)
      · obtain ⟨us, vs, rfl, hd⟩ := ih h
        exact ⟨us, vs ++ [u], by simp, hd⟩
      · exact ⟨ts, [], rfl, rfl⟩
  · rintro ⟨us, vs, rfl, rfl⟩
    simp [places_append, placesFrom]

theorem placesFrom_map_snd (d : Bool) (ts : List Token) : (placesFrom d ts).map Prod.snd = ts := by
  induction ts generalizing d with
  | nil => rfl
  | cons t ts ih => simp [placesFrom, ih]

theorem denotes_iff {t : Token} : t.isOperand = true ↔ ∃ e, t.Denotes e := by
  constructor
  · intro h
    cases t with
    | number x => exact ⟨_, .number x⟩
    | name n => exact ⟨_, .name (by simpa [isOperand] using h)⟩
    | operator op | opening | closing => simp [isOperand] at h
  · rintro ⟨e, h⟩
    cases h with
    | number x => rfl
    | name h => simp [isOperand, h]

theorem Denotes.not_awaits {t : Token} {e : Expr} (h : t.Denotes e) : t.awaits = false := by
  cases h with
  | number x => rfl
  | name h => simp [awaits, h]

theorem mapM_token?_eq_some_iff {items : List Item} :
    items.mapM Item.token? = some ts ↔ items = ts.map Item.token := by
  induction items generalizing ts with
  | nil => cases ts <;> simp
  | cons i items ih =>
    cases i with
    | token t =>
      rw [List.mapM_cons]
      cases ts with
      | nil => simp [Item.token?, Option.bind_eq_some_iff]
      | cons u ts =>
        simp only [Item.token?, Option.pure_def, Option.bind_eq_bind, Option.bind_some,
          Option.bind_eq_some_iff, Option.some.injEq, List.cons.injEq, List.map_cons,
          Item.token.injEq, ih]
        constructor
        · rintro ⟨_, rfl, rfl, rfl⟩
          exact ⟨rfl, rfl⟩
        · rintro ⟨rfl, rfl⟩
          exact ⟨ts, rfl, rfl, rfl⟩
    | rejected c => cases ts <;> simp [Item.token?]

theorem tokens?_eq_some_iff {source : String} :
    tokens? source = some ts ↔ items source = ts.map Item.token :=
  mapM_token?_eq_some_iff

end Token

@[simp] theorem Pending.awaits_token (p : Pending) : p.token.awaits = true := by
  cases p with
  | function f => simp [token, Token.awaits]
  | binary op | negation | opening => rfl

end Reckon
