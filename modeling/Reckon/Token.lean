import Reckon.Operator

/-! # Tokens

What a source text consists of: numbers, names, operators and parentheses, and the characters
that belong to none of them. A lexeme is one of these at its place.
-/

namespace Reckon

inductive Token
  | number (value : Float)
  | name (text : String)
  | operator (op : Operator)
  | opening
  | closing
  deriving DecidableEq

inductive Item
  | token (token : Token)
  | rejected (c : Char)
  deriving DecidableEq

/-- An item with its text, which starts `start` bytes into the source in UTF-8. -/
structure Lexeme where
  start : Nat
  text : String
  item : Item
  deriving DecidableEq

def Lexeme.stop (l : Lexeme) : Nat :=
  l.start + l.text.utf8ByteSize

end Reckon
