/-
# DewyFront.Expr.Range — expressions as ranges

A range has a range mark between two bounds. It stands bare, or as all there is in a block whose
delimiters say which bounds belong to it: `[0..10)` holds its first value and not its last. Two
values on the left are the first two of the range, two on the right the last two; either pair fixes
the step, as in `[0,2..10]`.
-/
import DewyFront.Expr

namespace DewyFront

/-- **`RangeExpr`** — the parts of a range. -/
structure RangeExpr where
  first : Expr
  /-- The value after the first, if it is written. -/
  second : Option Expr
  /-- The value before the last, if it is written. -/
  penultimate : Option Expr
  last : Expr
  includesFirst : Bool
  includesLast : Bool
deriving DecidableEq

namespace Expr

/-- **`boundValues?`** — the values of a bound: the two of a pair, or the bound itself. Longer lists
are no bounds. -/
def boundValues? : Expr → Option (Expr × Option Expr)
  | .flat ⟨.symbol .comma, _⟩ [a, b] _ => some (a, some b)
  | .flat ⟨.symbol .comma, _⟩ _ _ => none
  | e => some (e, none)

/-- A bare range, with its bounds belonging to it or not. -/
def bareRange? (includesFirst includesLast : Bool) : Expr → Option RangeExpr
  | .flat ⟨.bond .range, _⟩ [left, .atom .rangeMark _, right] _ => do
    let (first, second) ← left.boundValues?
    match ← right.boundValues? with
    | (last, none) => return ⟨first, second, none, last, includesFirst, includesLast⟩
    | (value, some last) => return ⟨first, second, some value, last, includesFirst, includesLast⟩
  | _ => none

/-- **`range?`** — an expression as a range, if it is one. -/
def range? : Expr → Option RangeExpr
  | .block kind _ [e] _ =>
    if kind.isBounding then e.bareRange? kind.opensWithBracket kind.closesWithBracket else none
  | .block .. => none
  | e => e.bareRange? true true

end Expr

end DewyFront
