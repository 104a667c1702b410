/-
# DewyFront.Symbol — the operators that source spells out

Most operators are written with marks (`+`, `<=?`); eleven are words (`and`, `transmute`). Whether
a symbol is a word matters to the lexer only: a word is read as an identifier first.
-/
import DewyFront.Text

namespace DewyFront

/-- **`Symbol`** — an operator as it is spelled. The marks come in groups by what they do, from the
tightest binding group to the loosest. -/
inductive Symbol where
  | atSign | dot | wordNot | tilde | question
  | caret | star | slash | doubleSlash | backslash | plus | minus
  | shiftLeft | shiftRight | rollLeft | rollRight | shiftLeftBang | bangShiftRight
  | comma | wordIn
  | equalQ | greaterQ | lessQ | greaterEqualQ | lessEqualQ | isQ | isntQ | inQ | atQ | spaceship
  | wordAnd | wordNand | amp | wordXor | wordXnor | wordOr | wordNor | pipe | coalesce
  | wordAs | wordTransmute | wordOf | colon | colonGt
  | fatArrow | pipeRight | pipeLeft | arrow | biArrow
  | assign | doubleColon | colonAssign
deriving DecidableEq, Repr

namespace Symbol

/-- Every symbol. -/
def all : List Symbol :=
  [atSign, dot, wordNot, tilde, question,
   caret, star, slash, doubleSlash, backslash, plus, minus,
   shiftLeft, shiftRight, rollLeft, rollRight, shiftLeftBang, bangShiftRight,
   comma, wordIn,
   equalQ, greaterQ, lessQ, greaterEqualQ, lessEqualQ, isQ, isntQ, inQ, atQ, spaceship,
   wordAnd, wordNand, amp, wordXor, wordXnor, wordOr, wordNor, pipe, coalesce,
   wordAs, wordTransmute, wordOf, colon, colonGt,
   fatArrow, pipeRight, pipeLeft, arrow, biArrow,
   assign, doubleColon, colonAssign]

/-- How a symbol is written. -/
def spelling : Symbol → String
  | atSign => "@"
  | dot => "."
  | wordNot => "not"
  | tilde => "~"
  | question => "?"
  | caret => "^"
  | star => "*"
  | slash => "/"
  | doubleSlash => "//"
  | backslash => "\\"
  | plus => "+"
  | minus => "-"
  | shiftLeft => "<<"
  | shiftRight => ">>"
  | rollLeft => "<<<"
  | rollRight => ">>>"
  | shiftLeftBang => "<<!"
  | bangShiftRight => "!>>"
  | comma => ","
  | wordIn => "in"
  | equalQ => "=?"
  | greaterQ => ">?"
  | lessQ => "<?"
  | greaterEqualQ => ">=?"
  | lessEqualQ => "<=?"
  | isQ => "is?"
  | isntQ => "isnt?"
  | inQ => "in?"
  | atQ => "@?"
  | spaceship => "<=>"
  | wordAnd => "and"
  | wordNand => "nand"
  | amp => "&"
  | wordXor => "xor"
  | wordXnor => "xnor"
  | wordOr => "or"
  | wordNor => "nor"
  | pipe => "|"
  | coalesce => "??"
  | wordAs => "as"
  | wordTransmute => "transmute"
  | wordOf => "of"
  | colon => ":"
  | colonGt => ":>"
  | fatArrow => "=>"
  | pipeRight => "|>"
  | pipeLeft => "<|"
  | arrow => "->"
  | biArrow => "<->"
  | assign => "="
  | doubleColon => "::"
  | colonAssign => ":="

/-- Symbols that are words made of letters alone. -/
def isWord : Symbol → Bool
  | wordNot | wordIn | wordAnd | wordNand | wordXor | wordXnor | wordOr | wordNor | wordAs
  | wordTransmute | wordOf => true
  | _ => false

/-- **`ofWord?`** — the word operator a word spells. -/
def ofWord? (w : Text) : Option Symbol := all.find? fun s => s.isWord && s.spelling.toList == w

/-- **`ofMarks?`** — the operator that a run of marks spells. -/
def ofMarks? (t : Text) : Option Symbol := all.find? fun s => !s.isWord && s.spelling.toList == t

/-- Comparisons, which a leading `not` may invert. -/
def isComparison : Symbol → Bool
  | equalQ | greaterQ | lessQ | greaterEqualQ | lessEqualQ | isQ | isntQ | inQ | atQ
  | spaceship => true
  | _ => false

end Symbol

end DewyFront
