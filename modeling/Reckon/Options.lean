/-! # Options

The two switches of the language: how chained powers group, and whether the trigonometric
functions are exact at a quarter turn.
-/

namespace Reckon

inductive Associativity
  | left
  | right
  deriving DecidableEq, Repr

structure Options where
  /-- The grouping of `2 ^ 3 ^ 2`, which matters to parsing. -/
  power : Associativity := .left
  /-- Exact results at a quarter turn, which matters to evaluation. -/
  snapTrig : Bool := true
  deriving DecidableEq, Repr

end Reckon
