/-
# DewyFront.Source — a source with its lines and positions

Rows and columns count from one, and columns count characters. A line ends with its newline, so the
lines of a text put together are the text, and there is always at least one.

* §1 sources;
* §2 lines;
* §3 the position of an offset;
* §4 the offset of a position.
-/
import DewyFront.Span

namespace DewyFront

/-! ## §1 Sources -/

/-- **`Source`** — a text, and the name it is shown under if it has one. -/
structure Source where
  text : Text
  name : Option String
deriving DecidableEq, Repr

namespace Source

/-- The number of bytes of a source. -/
def size (s : Source) : Nat := width s.text

/-- Whether a source has bytes that no span can reach. -/
def isOversized (s : Source) : Bool := Span.limit < s.size

/-- Whether a source begins with a byte order mark. -/
def hasByteOrderMark (s : Source) : Bool := s.text.head? == some '\ufeff'

/-- The number of bytes of a byte order mark. -/
def byteOrderMarkSize : Nat := Char.utf8Size '\ufeff'

/-! ## §2 Lines -/

/-- **`linesOf`** — the lines of a text, each with the newline that ends it. -/
def linesOf : Text → List Text
  | [] => [[]]
  | '\n' :: t => ['\n'] :: linesOf t
  | c :: t =>
    match linesOf t with
    | [] => [[c]]
    | line :: more => (c :: line) :: more

/-- The lines of a source. -/
def lines (s : Source) : List Text := linesOf s.text

/-- A line without its newline and without a carriage return before it. -/
def trimEnding (line : Text) : Text :=
  let line := if line.getLast? = some '\n' then line.dropLast else line
  if line.getLast? = some '\r' then line.dropLast else line

/-- **`lineText?`** — the line of a row, without its ending. -/
def lineText? (s : Source) (row : Nat) : Option Text :=
  match row with
  | 0 => none
  | i + 1 => s.lines[i]?.map trimEnding

/-! ## §3 Positions -/

/-- **`Position`** — a row and a column, both counted from one. -/
structure Position where
  row : Nat
  column : Nat
deriving DecidableEq, Repr

/-- Where one stands after reading a character. -/
def Position.after (p : Position) (c : Char) : Position :=
  if c = '\n' then ⟨p.row + 1, 1⟩ else ⟨p.row, p.column + 1⟩

/-- Where one stands after reading as many whole characters as fit into `budget` bytes. -/
def Position.advance (p : Position) (budget : Nat) : Text → Position
  | [] => p
  | c :: t => if c.utf8Size ≤ budget then (p.after c).advance (budget - c.utf8Size) t else p

/-- **`position`** — the position of a byte offset. Inside a character it is that of the character;
past the end it is that of the end. -/
def position (s : Source) (offset : Nat) : Position := Position.advance ⟨1, 1⟩ offset s.text

/-! ## §4 Offsets -/

/-- The byte offset of a column in a line; the column just behind the last character has one too. -/
def columnOffset? (line : Text) (column : Nat) : Option Nat :=
  match column with
  | 0 => none
  | n + 1 => if n ≤ line.length then some (width (line.take n)) else none

/-- **`offset?`** — the byte offset of a position, if the source has that position. -/
def offset? (s : Source) (p : Position) : Option Nat := do
  let line ← s.lineText? p.row
  let within ← columnOffset? line p.column
  return width (s.lines.take (p.row - 1)).flatten + within

end Source

end DewyFront
