/-
# DewyFront.Chain — one expression, before it is known how it nests

A chain is the sequence of operands and operators of one expression. What encloses expressions of
its own — a block, a string with holes, a flow expression — is one operand, with chains inside.

* §1 chains, links and operands;
* §2 where links and chains stand.
-/
import DewyFront.Atom
import DewyFront.Delimiters
import DewyFront.Keyword

namespace DewyFront

/-! ## §1 Chains -/

namespace Chain

mutual
/-- **`Link`** — an operator or an operand. -/
inductive Link where
  | operator (operator : Operator)
  | operand (content : Operand) (span : Span)
/-- **`Operand`** — what stands between operators. -/
inductive Operand where
  | atom (atom : Atom)
  | block (kind : Delimiters) (base : Option Radix) (inner : List (List Link))
  /-- A hole for code points in a string. -/
  | escape (inner : List (List Link))
  | istring (pieces : List Piece)
  /-- Arms in order, and what is taken when none is. -/
  | flow (arms : List Arm) (otherwise : Option (List Link))
  | declare (keyword : Keyword) (target : List Link)
  /-- A keyword and its operand, if it has one. -/
  | keyword (keyword : Keyword) (operand : Option (List Link))
/-- **`Piece`** — a piece of a string with holes. -/
inductive Piece where
  | text (text : Text)
  | hole (content : Operand) (span : Span)
/-- **`Arm`** — a flow keyword with its condition and its clause. -/
inductive Arm where
  | mk (keyword : Keyword) (condition clause : List Link)
end

end Chain

/-- **`Chain`** — the links of one expression. -/
abbrev Chain := List Chain.Link

/-! ## §2 Spans -/

namespace Chain

/-- Where a link stands. -/
def Link.span : Link → Span
  | .operator o => o.span
  | .operand _ s => s

/-- **`span?`** — from the first link through the last; an empty chain stands nowhere. -/
def span? (chain : Chain) : Option Span := do
  let first ← chain.head?
  let last ← chain.getLast?
  return first.span.merge last.span

end Chain

end DewyFront
