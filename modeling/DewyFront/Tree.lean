/-
# DewyFront.Tree — token trees

A tree is what stands at one place of an item list: a leaf, a block that encloses items, or a
string with holes that enclose items. Layout is still among the leaves, since whether two items
touch decides whether they are juxtaposed.

* §1 leaves;
* §2 trees and the pieces of strings;
* §3 what an item is.
-/
import DewyFront.Atom
import DewyFront.Delimiters
import DewyFront.Keyword

namespace DewyFront

/-! ## §1 Leaves -/

/-- **`Marker`** — what a juxtaposition between two touching items has been found to be. -/
inductive Marker where
  | plain
  /-- Next to the range mark. -/
  | range
  /-- Next to an ellipsis. -/
  | ellipsis
  /-- Next to a backtick. -/
  | backtick
  /-- Next to a type-parameter block. -/
  | typeParam
deriving DecidableEq, Repr

/-- **`Leaf`** — an item without items inside. -/
inductive Leaf where
  /-- Layout or a comment. -/
  | trivia
  | atom (atom : Atom)
  /-- A backtick whose side is not known yet. -/
  | backtick
  | operator (op : Op)
  | keyword (keyword : Keyword)
  /-- An `else` that no flow keyword follows. -/
  | closingElse
  | marker (marker : Marker)
deriving DecidableEq, Repr

/-! ## §2 Trees -/

mutual
/-- **`Tree`** — an item and where it stands. -/
inductive Tree where
  | leaf (leaf : Leaf) (span : Span)
  /-- A block. Its base, if it has one, governs the bare digits inside. -/
  | block (kind : Delimiters) (base : Option Radix) (inner : List Tree) (span : Span)
  /-- A string with holes. -/
  | istring (pieces : List Tree.Piece) (span : Span)
/-- A piece of a string with holes. -/
inductive Tree.Piece where
  | text (text : Text)
  /-- A hole for a value. -/
  | block (kind : Delimiters) (base : Option Radix) (inner : List Tree)
  /-- A hole for code points. -/
  | escape (kind : Delimiters) (base : Option Radix) (inner : List Tree)
end

namespace Tree

/-! ## §3 Items -/

/-- Where an item stands. -/
def span : Tree → Span
  | leaf _ s | block _ _ _ s | istring _ s => s

/-- The atom of an item. -/
def atom? : Tree → Option Atom
  | leaf (.atom a) _ => some a
  | _ => none

/-- The operator of an item. -/
def operator? : Tree → Option Op
  | leaf (.operator op) _ => some op
  | _ => none

/-- The spelled symbol of an item. -/
def symbol? : Tree → Option Symbol
  | leaf (.operator (.symbol s)) _ => some s
  | _ => none

/-- The keyword of an item. -/
def keyword? : Tree → Option Keyword
  | leaf (.keyword k) _ => some k
  | _ => none

/-- The marker of an item. -/
def marker? : Tree → Option Marker
  | leaf (.marker m) _ => some m
  | _ => none

/-- Whether an item is layout. -/
def isTrivia : Tree → Bool
  | leaf .trivia _ => true
  | _ => false

/-- Whether an item is a backtick. -/
def isBacktick : Tree → Bool
  | leaf .backtick _ => true
  | _ => false

/-- Whether an item is a type-parameter block. -/
def isAngle : Tree → Bool
  | block .angle _ _ _ => true
  | _ => false

/-- **`isJuxtaposable`** — whether an item is juxtaposed with what it touches. -/
def isJuxtaposable : Tree → Bool
  | leaf (.atom .semicolon) _ | leaf (.atom (.operator _)) _ => false
  | leaf (.atom _) _ | leaf .backtick _ => true
  | leaf _ _ => false
  | block .. | istring .. => true

end Tree

end DewyFront
