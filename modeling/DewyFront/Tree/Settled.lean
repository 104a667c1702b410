/-
# DewyFront.Tree.Settled — items ready to be grouped into expressions

Settled items hold no layout and no markers: every juxtaposition is an operator, every backtick has
its side, every range mark has two bounds, and compound operators are single items. Lists inside
blocks and strings are settled first.
-/
import DewyFront.Tree.Compound
import DewyFront.Tree.Juxtaposition

namespace DewyFront
namespace Tree

/-- **`closeElses`** — an `else` that no flow keyword follows closes its expression. -/
def closeElses : List Tree → List Tree
  | [] => []
  | item :: rest =>
    let continues := (rest.head?.bind keyword?).any Keyword.isFlow
    let item := if item.keyword? = some .elseWord ∧ !continues then
        .leaf .closingElse item.span
      else item
    item :: closeElses rest

/-- **`settleLevel`** — settles a list whose inner lists are settled. -/
def settleLevel (items : List Tree) : Except (Failure ParseError) (List Tree) := do
  let items ← classifyMarkers (insertMarkers items)
  let items ← resolveBackticks items
  let items ← markersToOperators (boundRanges items)
  return compoundOperators (closeElses items)

mutual
/-- Settles the lists inside an item. -/
def settleInside : Tree → Except (Failure ParseError) Tree
  | .leaf l span => .ok (.leaf l span)
  | .block kind base inner span => do
    let inner ← settleInsideAll inner
    return .block kind base (← settleLevel inner) span
  | .istring pieces span => do return .istring (← settlePieces pieces) span
/-- Settles the lists inside some items. -/
def settleInsideAll : List Tree → Except (Failure ParseError) (List Tree)
  | [] => .ok []
  | item :: rest => do
    let item ← settleInside item
    return item :: (← settleInsideAll rest)
/-- Settles the lists inside the pieces of a string. -/
def settlePieces : List Piece → Except (Failure ParseError) (List Piece)
  | [] => .ok []
  | .text t :: rest => do return .text t :: (← settlePieces rest)
  | .block kind base inner :: rest => do
    let inner ← settleInsideAll inner
    let inner ← settleLevel inner
    return .block kind base inner :: (← settlePieces rest)
  | .escape kind base inner :: rest => do
    let inner ← settleInsideAll inner
    let inner ← settleLevel inner
    return .escape kind base inner :: (← settlePieces rest)
end

/-- **`settle`** — settles a list and all lists inside. -/
def settle (items : List Tree) : Except (Failure ParseError) (List Tree) := do
  settleLevel (← settleInsideAll items)

end Tree
end DewyFront
