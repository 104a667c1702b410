/-
# DewyFront.Tree.Compound — neighbouring operators that are one

Four steps, one after the other, each from left to right. What one of them has put together is
not looked at again by the same one as the beginning of another compound.

* §1 putting items together;
* §2 `not` with a comparison;
* §3 a binary operator with operators on its right operand;
* §4 a dot with an operator;
* §5 an operator with `=`.
-/
import DewyFront.Precedence
import DewyFront.Tree

namespace DewyFront
namespace Tree

/-! ## §1 Putting together -/

/-- An operator that stands where two items stood. -/
def fuse (op : Op) (first last : Tree) : Tree := .leaf (.operator op) (first.span.merge last.span)

/-- **`fusePairs`** — goes through neighbours and puts those together that `join` has an operator
for. -/
def fusePairs (join : Tree → Tree → Option Op) : List Tree → List Tree
  | a :: b :: rest =>
    match join a b with
    | some op => fuse op a b :: fusePairs join rest
    | none => a :: fusePairs join (b :: rest)
  | items => items

/-! ## §2 Inverted comparisons -/

/-- `not` in front of a comparison inverts it. -/
def joinInverted (a b : Tree) : Option Op :=
  match a.symbol?, b.symbol? with
  | some .wordNot, some s => if s.isComparison then some (.inverted s) else none
  | _, _ => none

/-- Inverts comparisons. -/
def invertComparisons (items : List Tree) : List Tree := fusePairs joinInverted items

/-! ## §3 Operator chains -/

/-- Operators that may head a chain. -/
def isChainHead : Symbol → Bool
  | .plus | .minus | .star | .slash | .doubleSlash | .caret | .backslash => true
  | _ => false

/-- **`endsOperand`** — whether an operator behind an item stands between operands. -/
def endsOperand : Tree → Bool
  | .leaf (.operator op) _ => op.isAfter && !op.isBefore && !op.isBinary
  | .leaf (.atom .semicolon) _ | .leaf (.keyword _) _ | .leaf .closingElse _ => false
  | _ => true

/-- The operator of an item that may stand in front of an operand. -/
def beforeOp? (item : Tree) : Option Op := item.operator?.filter Op.isBefore

/-- The operators in front of some items that may stand in front of an operand. -/
def leadingOps : List Tree → List Op
  | [] => []
  | item :: rest =>
    match beforeOp? item with
    | some op => op :: leadingOps rest
    | none => []

/-- The symbol of an item that heads a chain behind another item. -/
def chainHead? (previous : Option Tree) (item : Tree) : Option Symbol :=
  if previous.any endsOperand then item.symbol?.filter isChainHead else none

/-- Chains the operators behind the item in front; `skip` counts items that a chain has taken. -/
def chainFrom (previous : Option Tree) (skip : Nat) : List Tree → List Tree
  | [] => []
  | item :: rest =>
    match skip with
    | n + 1 => chainFrom previous n rest
    | 0 =>
      match chainHead? previous item, leadingOps rest with
      | some head, first :: others =>
        let tail := first :: others
        let last := (rest[others.length]?).getD item
        let fused := fuse (.chain head tail) item last
        fused :: chainFrom (some fused) tail.length rest
      | _, _ => item :: chainFrom (some item) 0 rest

/-- **`chainOperators`** — puts a binary operator together with all operators behind it that belong
to its right operand. -/
def chainOperators (items : List Tree) : List Tree := chainFrom none 0 items

/-! ## §4 Broadcasts -/

/-- A dot that touches a binary operator applies it element by element. -/
def joinBroadcast (a b : Tree) : Option Op :=
  if a.symbol? = some .dot ∧ a.span.touches b.span then
    match b.operator? with
    | some (.symbol s) => if (Op.symbol s).isBinary then some (.broadcast (.symbol s)) else none
    | some (.chain head tail) => some (.broadcast (.chain head tail))
    | _ => none
  else none

/-- Puts dots together with operators. -/
def broadcastOperators (items : List Tree) : List Tree := fusePairs joinBroadcast items

/-! ## §5 Combined assignments -/

/-- Whether an operator may be combined with an assignment. -/
def isCombinable : Op → Bool
  | .symbol .assign | .symbol .doubleColon | .symbol .colonAssign => false
  | .symbol s => (Op.symbol s).isBinary
  | .chain .. | .broadcast _ => true
  | _ => false

/-- An operator that touches `=` is assigned with. -/
def joinAssignment (a b : Tree) : Option Op :=
  if b.symbol? = some .assign ∧ a.span.touches b.span then
    (a.operator?.filter isCombinable).map .assign
  else none

/-- Puts operators together with `=`. -/
def combineAssignments (items : List Tree) : List Tree := fusePairs joinAssignment items

/-- **`compoundOperators`** — all four steps. -/
def compoundOperators (items : List Tree) : List Tree :=
  combineAssignments (broadcastOperators (chainOperators (invertComparisons items)))

end Tree
end DewyFront
