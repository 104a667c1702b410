/-
# DewyFront.Keyword — the reserved words that open an expression of their own
-/
import DewyFront.Text

namespace DewyFront

/-- **`Keyword`** — reserved words. Flow words take a condition and a clause, declaring words a
target, and the others an operand that may be missing. -/
inductive Keyword where
  | ifWord | loopWord | lazyWord | elseWord | letWord | constWord | returnWord | yieldWord
  | asyncWord | awaitWord | importWord
deriving DecidableEq, Repr

namespace Keyword

/-- Every keyword. -/
def all : List Keyword :=
  [ifWord, loopWord, lazyWord, elseWord, letWord, constWord, returnWord, yieldWord, asyncWord,
   awaitWord, importWord]

/-- How a keyword is written. -/
def spelling : Keyword → String
  | ifWord => "if"
  | loopWord => "loop"
  | lazyWord => "lazy"
  | elseWord => "else"
  | letWord => "let"
  | constWord => "const"
  | returnWord => "return"
  | yieldWord => "yield"
  | asyncWord => "async"
  | awaitWord => "await"
  | importWord => "import"

/-- **`ofWord?`** — the keyword a word spells. -/
def ofWord? (w : Text) : Option Keyword := all.find? (·.spelling.toList == w)

/-- Keywords that begin an arm of a flow expression: a condition and a clause follow. -/
def isFlow : Keyword → Bool
  | ifWord | loopWord | lazyWord => true
  | _ => false

/-- Keywords that declare the expression after them. -/
def isDeclaration : Keyword → Bool
  | letWord | constWord => true
  | _ => false

end Keyword

end DewyFront
