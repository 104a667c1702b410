/-
# DewyFront.Expr.OfChain — chains to expressions

The operands of a chain become nodes first, with the chains inside them turned into expressions;
then the chain is reduced. Chains need not come from grouping, so their shape is checked.

* §1 the shape of a chain;
* §2 chains and operands.
-/
import DewyFront.Chain
import DewyFront.Config
import DewyFront.Expr.Reading

namespace DewyFront

/-! ## §1 Shape -/

namespace Chain

/-- **`checkFrom`** — whether links go on as chunks with binary operators between them. `wanting`
says that an operand has to come, and `last` is the operator read last. -/
def checkFrom (wanting : Bool) (last : Option Operator) :
    Chain → Except (Failure ParseError) Unit
  | [] =>
    match wanting, last with
    | true, some o => refuse (.missingOperand o)
    | _, _ => .ok ()
  | .operand _ span :: rest =>
    if wanting then checkFrom false last rest else refuse (.missingOperator span)
  | .operator o :: rest =>
    if wanting then
      if o.op.isBefore then checkFrom true (some o) rest
      else refuse (.operatorWithoutOperand o)
    else if o.op.isBinary then checkFrom true (some o) rest
    else if o.op.isAfter then checkFrom false (some o) rest
    else refuse (.operatorWithoutOperand o)

/-- **`checkShape`** — the span of a chain that is well shaped. -/
def checkShape (chain : Chain) : Except (Failure ParseError) Span :=
  match span? chain with
  | none => refuse (.expectedExpression .nowhere)
  | some span => do
    checkFrom true none chain
    return span

end Chain

/-! ## §2 Expressions -/

namespace Expr

/-- Reduces a chain whose operands are nodes. What is wrong with its shape comes before what is
wrong with its operands. -/
def assemble (limit : Nat) (chain : Chain) (slots : Except (Failure ParseError) (List Slot)) :
    Except (Failure ParseError) Expr := do
  let span ← Chain.checkShape chain
  Reading.reduce limit span (← slots)

mutual
/-- **`slotsOf`** — the links of a chain with nodes for operands. -/
def slotsOf (limit : Nat) : List Chain.Link → Except (Failure ParseError) (List Slot)
  | [] => .ok []
  | .operator o :: rest => do return .operator o :: (← slotsOf limit rest)
  | .operand content span :: rest => do
    let node ← ofOperand limit span content
    return .node node :: (← slotsOf limit rest)
/-- **`ofOperand`** — an operand that stands at `span`. -/
def ofOperand (limit : Nat) (span : Span) : Chain.Operand → Except (Failure ParseError) Expr
  | .atom a => .ok (.atom a span)
  | .block kind base inner => do return .block kind base (← ofChains limit inner) span
  | .escape inner => do return .escape (← ofChains limit inner) span
  | .istring pieces => do return .istring (← piecesOf limit pieces) span
  | .flow arms none => do return .flow (← armsOf limit arms) none span
  | .flow arms (some otherwise) => do
    let arms ← armsOf limit arms
    return .flow arms (some (← assemble limit otherwise (slotsOf limit otherwise))) span
  | .declare k target => do
    return .declare k (← assemble limit target (slotsOf limit target)) span
  | .keyword k none => .ok (.keyword k none span)
  | .keyword k (some operand) => do
    return .keyword k (some (← assemble limit operand (slotsOf limit operand))) span
/-- The expressions of some chains. -/
def ofChains (limit : Nat) : List (List Chain.Link) → Except (Failure ParseError) (List Expr)
  | [] => .ok []
  | chain :: chains => do
    let e ← assemble limit chain (slotsOf limit chain)
    return e :: (← ofChains limit chains)
/-- The pieces of a string. -/
def piecesOf (limit : Nat) : List Chain.Piece → Except (Failure ParseError) (List Piece)
  | [] => .ok []
  | .text t :: rest => do return .text t :: (← piecesOf limit rest)
  | .hole content span :: rest => do
    let e ← ofOperand limit span content
    return .hole e :: (← piecesOf limit rest)
/-- The arms of a flow expression. -/
def armsOf (limit : Nat) : List Chain.Arm → Except (Failure ParseError) (List Arm)
  | [] => .ok []
  | .mk k condition clause :: rest => do
    let condition ← assemble limit condition (slotsOf limit condition)
    let clause ← assemble limit clause (slotsOf limit clause)
    return .mk k condition clause :: (← armsOf limit rest)
end

/-- **`ofChain`** — the expression of a chain. -/
def ofChain (config : ParseConfig) (chain : Chain) : Except (Failure ParseError) Expr :=
  assemble config.maxReadings chain (slotsOf config.maxReadings chain)

end Expr

end DewyFront
