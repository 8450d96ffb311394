import Reckon.Decimal
import Reckon.Token

/-! # Scanning

A source is scanned from left to right. Each lexeme is the longest that begins at its place, white
space between lexemes is passed over, and the scan goes on after a rejected character.
-/

namespace Reckon.Token

/-- The characters that separate lexemes: space, tab, carriage return, line feed, form feed. -/
def isSpace (c : Char) : Bool :=
  [' ', '\t', '\r', '\n', '\x0c'].contains c

def isLetter (c : Char) : Bool :=
  c.isAlpha || c == '_'

def symbol? : Char → Option Token
  | '+' => some (.operator .add)
  | '-' => some (.operator .sub)
  | '*' => some (.operator .mul)
  | '/' => some (.operator .div)
  | '^' => some (.operator .pow)
  | '(' => some .opening
  | ')' => some .closing
  | _ => none

/-- A first lexeme without its place, and the characters after it. -/
structure Piece where
  text : List Char
  item : Item
  rest : List Char

namespace Piece

/-- Digits, and a point with the digits after it. -/
def number (c : Char) (cs : List Char) : Piece :=
  let whole := c :: cs.takeWhile Char.isDigit
  match cs.dropWhile Char.isDigit with
  | '.' :: after =>
    let fraction := after.takeWhile Char.isDigit
    { text := whole ++ '.' :: fraction
      item := .token (.number (Decimal.ofDigits whole fraction).toFloat)
      rest := after.dropWhile Char.isDigit }
  | rest =>
    { text := whole
      item := .token (.number (Decimal.ofDigits whole []).toFloat)
      rest }

def name (c : Char) (cs : List Char) : Piece :=
  let text := c :: cs.takeWhile isLetter
  { text, item := .token (.name (.ofList text)), rest := cs.dropWhile isLetter }

/-- The longest lexeme that begins with `c`. -/
def first (c : Char) (cs : List Char) : Piece :=
  if c.isDigit then number c cs
  else if isLetter c then name c cs
  else
    match symbol? c with
    | some token => { text := [c], item := .token token, rest := cs }
    | none => { text := [c], item := .rejected c, rest := cs }

theorem number_text_append_rest (c : Char) (cs : List Char) :
    (number c cs).text ++ (number c cs).rest = c :: cs := by
  have h := List.takeWhile_append_dropWhile (p := Char.isDigit) (l := cs)
  unfold number
  split
  · next after e =>
    have h' := List.takeWhile_append_dropWhile (p := Char.isDigit) (l := after)
    rw [e] at h
    simp [h, h']
  · simp [h]

theorem first_text_append_rest (c : Char) (cs : List Char) :
    (first c cs).text ++ (first c cs).rest = c :: cs := by
  unfold first
  split
  · exact number_text_append_rest c cs
  · split
    · simp [name]
    · split <;> simp

theorem first_text_ne_nil (c : Char) (cs : List Char) : (first c cs).text ≠ [] := by
  simp only [first, number, name]
  split
  · split <;> simp
  · split
    · simp
    · split <;> simp

theorem length_first_rest_lt (c : Char) (cs : List Char) :
    (first c cs).rest.length < (c :: cs).length := by
  have h := congrArg List.length (first_text_append_rest c cs)
  have := List.length_pos_iff.mpr (first_text_ne_nil c cs)
  simp only [List.length_append] at h
  omega

end Piece

/-- The lexemes of characters that follow `start` bytes. -/
def scanFrom (start : Nat) : List Char → List Lexeme
  | [] => []
  | c :: cs =>
    if isSpace c then scanFrom (start + c.utf8Size) cs
    else
      let piece := Piece.first c cs
      let lexeme : Lexeme := { start, text := .ofList piece.text, item := piece.item }
      lexeme :: scanFrom lexeme.stop piece.rest
termination_by cs => cs.length
decreasing_by
  · exact Nat.lt_succ_self cs.length
  · exact Piece.length_first_rest_lt c cs

def scan (source : String) : List Lexeme :=
  scanFrom 0 source.toList

def items (source : String) : List Item :=
  (scan source).map Lexeme.item

end Reckon.Token
