import Reckon.Expr
import Reckon.Options
import Reckon.Statement
import Reckon.Store

/-! # Evaluation

Operands are evaluated from left to right before what is applied to them. The only failure is a
variable that the store does not bind, and a statement that fails writes nothing.
-/

namespace Reckon

def Expr.eval (options : Options) (store : Store) : Expr → Except EvalError Float
  | literal x => .ok x
  | var name => store.get name
  | binary op left right => do
    let x ← left.eval options store
    let y ← right.eval options store
    return op.apply x y
  | negate e => do
    return -(← e.eval options store)
  | call f e => do
    return f.apply options.snapTrig (← e.eval options store)

def Statement.run (options : Options) (store : Store) (s : Statement) :
    Except EvalError (Float × Store) := do
  let value ← s.expr.eval options store
  return (value, store.set s.target value)

end Reckon
