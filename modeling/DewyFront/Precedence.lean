/-
# DewyFront.Precedence — which operator takes an operand that two of them reach for

Operators sit in rows, numbered from the loosest. A row gives each side of an operator a binding
power; an operand between two operators goes to the side that binds it harder. Some operators sit
in two rows at once: `-` is binary and unary, a juxtaposition may be a call or a product. Their
power on a side is a range of values, and they win only when every value does.

* §1 rows and associativity;
* §2 the table;
* §3 the forms an operator can take;
* §4 binding powers and their comparison.
-/
import DewyFront.Operator

namespace DewyFront

/-! ## §1 Rows -/

/-- **`Assoc`** — how an operator of a row takes its operands. -/
inductive Assoc where
  | left
  | right
  /-- Unary, in front of its operand. -/
  | before
  /-- Unary, behind its operand. -/
  | after
  /-- A run of the same operator is one node. -/
  | flat
  /-- The same operator may not stand directly inside itself. -/
  | alone
deriving DecidableEq, Repr

/-- **`Level`** — a row, and how its operators associate there. -/
structure Level where
  row : Nat
  assoc : Assoc
deriving DecidableEq, Repr

namespace Level

/-- **`powers`** — the binding powers of a level to the left and to the right. A row holds the two
numbers `2 * row + 1` and `2 * row + 2`; the greater one stands on the side that keeps the operand
among equals, and zero means that the side does not bind. -/
def powers (l : Level) : Nat × Nat :=
  match l.assoc with
  | .left => (2 * l.row + 1, 2 * l.row + 2)
  | .right | .flat | .alone => (2 * l.row + 2, 2 * l.row + 1)
  | .before => (0, 2 * l.row + 1)
  | .after => (2 * l.row + 1, 0)

/-- Whether the operator stands between two operands at this level. -/
def isBinary (l : Level) : Bool := l.assoc != .before && l.assoc != .after

end Level

/-! ## §2 The table -/

namespace Precedence

/-- The row of calls, indexing and access. -/
def callRow : Nat := 31

/-- The row of products by juxtaposition. -/
def productRow : Nat := 23

/-- The levels of the spelled operators. -/
def symbolLevels : Symbol → List Level
  | .assign | .doubleColon | .colonAssign => [⟨1, .alone⟩]
  | .arrow | .biArrow => [⟨2, .alone⟩]
  | .pipeLeft => [⟨3, .right⟩]
  | .pipeRight => [⟨4, .left⟩]
  | .fatArrow => [⟨5, .right⟩]
  | .colonGt => [⟨6, .left⟩]
  | .colon => [⟨7, .alone⟩]
  | .wordOf => [⟨8, .alone⟩]
  | .wordAs | .wordTransmute => [⟨9, .left⟩]
  | .coalesce => [⟨10, .left⟩]
  | .wordOr | .wordNor | .pipe => [⟨11, .left⟩]
  | .wordXor | .wordXnor => [⟨12, .left⟩]
  | .wordAnd | .wordNand | .amp => [⟨13, .left⟩]
  | .equalQ | .greaterQ | .lessQ | .greaterEqualQ | .lessEqualQ | .isQ | .isntQ | .inQ | .atQ
  | .spaceship => [⟨14, .left⟩]
  | .wordIn => [⟨15, .alone⟩]
  | .comma => [⟨17, .flat⟩]
  | .shiftLeft | .shiftRight | .rollLeft | .rollRight | .shiftLeftBang
  | .bangShiftRight => [⟨18, .left⟩]
  | .plus | .minus => [⟨19, .left⟩, ⟨20, .before⟩]
  | .star | .slash | .doubleSlash => [⟨21, .left⟩, ⟨22, .before⟩]
  | .backslash => [⟨21, .left⟩]
  | .caret => [⟨24, .right⟩]
  | .question => [⟨25, .after⟩]
  | .wordNot | .tilde => [⟨26, .before⟩]
  | .dot => [⟨callRow, .left⟩]
  | .atSign => [⟨32, .before⟩]

/-- **`readings`** — the meanings of a juxtaposition, row by row from the tightest, each with the
juxtaposition that keeps only the meanings of that row. -/
def readings (m : Meanings) : List (Nat × Meanings) :=
  (if m.hasUpper then [(callRow, m.upper)] else []) ++
  (if m.hasLower then [(productRow, m.lower)] else [])

end Precedence

namespace Op

open Precedence

/-- **`levels`** — every row that an operator sits in. -/
def levels : Op → List Level
  | .symbol s => symbolLevels s
  | .backtick .before => [⟨27, .before⟩]
  | .backtick .after => [⟨28, .after⟩]
  | .juxtapose m => (readings m).map fun r => ⟨r.1, .left⟩
  | .bond .semicolon => [⟨0, .left⟩]
  | .bond .range => [⟨16, .flat⟩]
  | .bond .ellipsis => [⟨29, .alone⟩]
  | .bond .typeParam => [⟨30, .alone⟩]
  | .inverted _ => [⟨14, .left⟩]
  -- A chain always stands between two operands.
  | .chain head _ => (symbolLevels head).filter Level.isBinary
  | .broadcast inner => inner.levels
  | .assign _ => [⟨1, .alone⟩]

/-! ## §3 Forms -/

/-- Whether an operator may stand in front of its operand. -/
def isBefore (op : Op) : Bool := op.levels.any (·.assoc == .before)

/-- Whether an operator may stand behind its operand. -/
def isAfter (op : Op) : Bool := op.levels.any (·.assoc == .after)

/-- Whether an operator may stand between two operands. -/
def isBinary (op : Op) : Bool := op.levels.any Level.isBinary

/-- Whether a run of an operator is one node. -/
def isFlat (op : Op) : Bool := op.levels.any (·.assoc == .flat)

/-- **`isContested`** — a juxtaposition that still has meanings on both levels. -/
def isContested : Op → Bool
  | .juxtapose m => 1 < (readings m).length
  | _ => false

end Op

/-! ## §4 Binding powers -/

/-- **`Power`** — how hard one side of an operator binds: every value from the operator's rows lies
between `low` and `high`, and both are among them. Zero throughout means that the side does not
bind. -/
structure Power where
  low : Nat
  high : Nat
deriving DecidableEq, Repr

namespace Power

/-- The power of a side that does not bind. -/
def none : Power := ⟨0, 0⟩

/-- Whether the side does not bind. -/
def isNone (p : Power) : Bool := p == none

/-- **`ofValues`** — the range of the values that bind at all. -/
def ofValues (values : List Nat) : Power :=
  match values.filter (0 < ·) with
  | [] => none
  | v :: vs => ⟨vs.foldl min v, vs.foldl max v⟩

/-- **`compare`** — one power beats another when each of its values beats each of the other's. Two
single equal values are equal; ranges that meet otherwise cannot be compared. -/
def compare (p q : Power) : Option Ordering :=
  if q.high < p.low then some .gt
  else if p.high < q.low then some .lt
  else if p.low = p.high ∧ p = q then some .eq
  else Option.none

end Power

namespace Op

/-- How hard an operator binds to its left. -/
def leftPower (op : Op) : Power := Power.ofValues (op.levels.map (·.powers.1))

/-- How hard an operator binds to its right. -/
def rightPower (op : Op) : Power := Power.ofValues (op.levels.map (·.powers.2))

end Op

end DewyFront
