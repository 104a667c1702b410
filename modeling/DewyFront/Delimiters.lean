/-
# DewyFront.Delimiters — the pairs of characters that enclose a block
-/
import DewyFront.Text

namespace DewyFront

/-- **`Delimiters`** — how a block is enclosed. Brackets and parentheses may close each other, as
the bounds of a range do. -/
inductive Delimiters where
  | brace
  | bracket
  | paren
  /-- Opened by a bracket and closed by a parenthesis. -/
  | bracketParen
  /-- Opened by a parenthesis and closed by a bracket. -/
  | parenBracket
  | angle
deriving DecidableEq, Repr

namespace Delimiters

/-- Every pair. -/
def all : List Delimiters := [brace, bracket, paren, bracketParen, parenBracket, angle]

/-- The opening character. -/
def opener : Delimiters → Char
  | brace => '\x7b'
  | bracket | bracketParen => '['
  | paren | parenBracket => '('
  | angle => '<'

/-- The closing character. -/
def closer : Delimiters → Char
  | brace => '\x7d'
  | bracket | parenBracket => ']'
  | paren | bracketParen => ')'
  | angle => '>'

/-- **`ofPair?`** — the pair that two characters form. -/
def ofPair? (o c : Char) : Option Delimiters := all.find? fun d => d.opener == o && d.closer == c

/-- Both characters, side by side. -/
def text (d : Delimiters) : String := String.ofList [d.opener, d.closer]

/-- Opened by a bracket: as the bound of a range, the first value belongs to it. -/
def opensWithBracket (d : Delimiters) : Bool := d.opener == '['

/-- Closed by a bracket: as the bound of a range, the last value belongs to it. -/
def closesWithBracket (d : Delimiters) : Bool := d.closer == ']'

/-- Whether the block can delimit a range. -/
def isBounding : Delimiters → Bool
  | bracket | paren | bracketParen | parenBracket => true
  | brace | angle => false

end Delimiters

end DewyFront
