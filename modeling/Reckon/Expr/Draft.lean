import Reckon.Error
import Reckon.Expr
import Reckon.Expr.Pending
import Reckon.Options
import Reckon.Token

/-! # Drafts

An expression of which a first part has been read. Operands are complete trees; an entry that
waits for its operand stays pending until an operator that binds no tighter, a closing parenthesis
or the end builds it.
-/

namespace Reckon

inductive Fault
  | unexpected (symbol : String)
  | malformed
  deriving DecidableEq, Repr

def Fault.toError (source : String) : Fault → ParseError
  | unexpected symbol => .unexpectedToken symbol
  | malformed => .invalidExpression source

/-- Both stacks have the entry read last at the head. -/
structure Draft where
  operands : List Expr
  pending : List Pending
  /-- Whether an operand has to follow, so that a minus is unary. -/
  expectsOperand : Bool

namespace Draft

def empty : Draft :=
  ⟨[], [], true⟩

/-- Replaces the operands that an entry takes by the tree it builds. -/
def build : Pending → List Expr → Except Fault (List Expr)
  | .binary op, right :: left :: operands => .ok (.binary op left right :: operands)
  | .function f, argument :: operands => .ok (.call f argument :: operands)
  | .binary _, _ | .function _, _ => .error .malformed
  | .negation, _ => .error (.unexpected Pending.negation.symbol)
  | .opening, _ => .error (.unexpected Pending.opening.symbol)

/-- Builds the entries at the head down to the first of lower precedence than `tier`. -/
def reduce (tier : Nat) : List Expr → List Pending → Except Fault (List Expr × List Pending)
  | operands, [] => .ok (operands, [])
  | operands, entry :: pending =>
    if entry.precedence < tier then .ok (operands, entry :: pending)
    else do reduce tier (← build entry operands) pending

def applyNegations : Expr → List Pending → Expr × List Pending
  | e, .negation :: pending => applyNegations (.negate e) pending
  | e, pending => (e, pending)

def applyUnary : Expr → List Pending → Expr × List Pending
  | e, .negation :: pending => applyUnary (.negate e) pending
  | e, .function f :: pending => applyUnary (.call f e) pending
  | e, pending => (e, pending)

def pushOperand (d : Draft) (e : Expr) : Draft :=
  let (e, pending) := applyNegations e d.pending
  { operands := e :: d.operands, pending, expectsOperand := false }

def pushPending (d : Draft) (entry : Pending) : Draft :=
  { d with pending := entry :: d.pending, expectsOperand := true }

/-- Entries of at least this precedence are built before the operator waits itself. -/
def tier (options : Options) (op : Operator) : Nat :=
  if op = .pow ∧ options.power = .right then op.precedence + 1 else op.precedence

def pushOperator (options : Options) (d : Draft) (op : Operator) : Except Fault Draft :=
  if op = .sub ∧ d.expectsOperand then .ok (d.pushPending .negation)
  else do
    let (operands, pending) ← reduce (tier options op) d.operands d.pending
    return { operands, pending := .binary op :: pending, expectsOperand := true }

/-- Builds all up to the matching parenthesis, and the unary entries before it. -/
def close (d : Draft) : Except Fault Draft :=
  if d.expectsOperand then .error (.unexpected ")")
  else do
    match ← reduce 1 d.operands d.pending with
    | (e :: operands, .opening :: pending) =>
      let (e, pending) := applyUnary e pending
      return { operands := e :: operands, pending, expectsOperand := false }
    | ([], .opening :: _) => .error .malformed
    | _ => .error (.unexpected ")")

def pushToken (options : Options) (d : Draft) : Token → Except Fault Draft
  | .number x => .ok (d.pushOperand (.literal x))
  | .name name =>
    match Function.ofName? name with
    | some f => .ok (d.pushPending (.function f))
    | none => .ok (d.pushOperand (.var name))
  | .operator op => d.pushOperator options op
  | .opening => .ok (d.pushPending .opening)
  | .closing => d.close

def pushItem (options : Options) (d : Draft) : Item → Except Fault Draft
  | .token token => d.pushToken options token
  | .rejected c => .error (.unexpected (.singleton c))

def pushItems (options : Options) (d : Draft) (items : List Item) : Except Fault Draft :=
  items.foldlM (pushItem options) d

/-- Builds all that is pending; exactly one tree has to be left. -/
def finish (d : Draft) : Except Fault Expr :=
  match reduce 0 d.operands d.pending with
  | .ok ([e], _) => .ok e
  | _ => .error .malformed

end Draft

end Reckon
