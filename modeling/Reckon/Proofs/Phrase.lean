import Mathlib.Data.Nat.Notation
import Reckon.Options
import Reckon.Proofs.Token.Place

/-! # The infix grammar

A sum is a chain of products, a product a chain of powers and a power a chain of unary phrases.
Chains group from the left; those of powers may group from the right instead. A unary phrase is a
number, a variable or a sum in parentheses behind any signs and functions.
-/

namespace Reckon

inductive Category
  | sum
  | product
  | power
  | unary
  deriving DecidableEq

namespace Category

/-- The links of the chains that make up a category. -/
def next : Category → Category
  | sum => product
  | product => power
  | power | unary => unary

def tier : Category → ℕ
  | sum => 1
  | product => 2
  | power => 3
  | unary => 4

/-- Operators of a lower precedence than this can wait on the left of a phrase. -/
def bound (power : Associativity) : Category → ℕ
  | .power => if power = .right then 4 else 3
  | c => c.tier

end Category

namespace Operator

def category : Operator → Category
  | add | sub => .sum
  | mul | div => .product
  | pow => .power

/-- The phrase on the left of the operator: what is already a chain, unless it groups from the
right. -/
def left (power : Associativity) (op : Operator) : Category :=
  if op = .pow ∧ power = .right then .unary else op.category

def right (power : Associativity) (op : Operator) : Category :=
  if op = .pow ∧ power = .right then .power else op.category.next

end Operator

namespace Category

variable {power : Associativity} {c : Category} {op : Operator}

theorem tier_le_next (c : Category) : c.tier ≤ c.next.tier := by
  cases c <;> decide

theorem tier_le_four (c : Category) : c.tier ≤ 4 := by
  cases c <;> decide

theorem tier_sum_le (c : Category) : sum.tier ≤ c.tier := by
  cases c <;> decide

theorem bound_le_next (power : Associativity) (c : Category) :
    c.bound power ≤ c.next.bound power := by
  cases power <;> cases c <;> decide

@[simp] theorem tier_category (op : Operator) : op.category.tier = op.precedence := by
  cases op <;> rfl

@[simp] theorem bound_left (power : Associativity) (op : Operator) :
    (op.left power).bound power = op.category.bound power := by
  cases power <;> cases op <;> rfl

@[simp] theorem tier_left (power : Associativity) (op : Operator) :
    (op.left power).tier = op.category.bound power := by
  cases power <;> cases op <;> rfl

theorem precedence_le_right (power : Associativity) (op : Operator) :
    op.precedence ≤ (op.right power).tier := by
  cases power <;> cases op <;> decide

theorem precedence_lt_right (power : Associativity) (op : Operator) :
    op.precedence < (op.right power).bound power := by
  cases power <;> cases op <;> decide

theorem right_le_of_precedence_lt (h : op.precedence < c.bound power) :
    (op.right power).tier ≤ c.tier := by
  revert h
  cases power <;> cases op <;> cases c <;> decide

end Category

/-- The tokens are a phrase of the category, and the grammar gives it the tree. -/
inductive Phrase (power : Associativity) : Category → List Token → Expr → Prop
  | operand {t e} (h : t.Denotes e) : Phrase power .unary [t] e
  | group {ts e} (h : Phrase power .sum ts e) :
      Phrase power .unary (Token.enclosed ts) e
  | sign {ts e} (h : Phrase power .unary ts e) :
      Phrase power .unary (.operator .sub :: ts) (.negate e)
  | call {ts e} (f : Function) (h : Phrase power .unary ts e) :
      Phrase power .unary (.name f.name :: ts) (.call f e)
  | link {c ts e} (h : Phrase power c.next ts e) : Phrase power c ts e
  | chain {op ts us l r} (hl : Phrase power (op.left power) ts l)
      (hr : Phrase power (op.right power) us r) :
      Phrase power op.category (ts ++ .operator op :: us) (.binary op l r)

end Reckon
