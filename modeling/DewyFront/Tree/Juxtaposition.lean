/-
# DewyFront.Tree.Juxtaposition — operators where items touch

Two items that touch are juxtaposed. A marker is put between them, the marker's neighbours decide
what it is, and in the end it is an operator. Layout is dropped as soon as the markers stand.

* §1 inserting markers;
* §2 finding out what they are;
* §3 ellipses and backticks, which are joined on one side;
* §4 range marks, which are joined on both;
* §5 markers to operators.
-/
import DewyFront.Failure
import DewyFront.ParseError
import DewyFront.Tree

namespace DewyFront
namespace Tree

/-! ## §1 Inserting -/

/-- A marker between two items. -/
def markerAt (m : Marker) (place : Span) : Tree := .leaf (.marker m) place

/-- Inserts markers and drops layout; `joinable` says that the item before can be juxtaposed with
what touches it. -/
def insertFrom (joinable : Bool) : List Tree → List Tree
  | [] => []
  | item :: rest =>
    if item.isTrivia then insertFrom false rest
    else if joinable && item.isJuxtaposable then
      markerAt .plain (.point item.span.start) :: item :: insertFrom true rest
    else item :: insertFrom item.isJuxtaposable rest

/-- **`insertMarkers`** — puts a plain marker between items that touch, and drops layout. -/
def insertMarkers (items : List Tree) : List Tree := insertFrom false items

/-! ## §2 Classifying -/

/-- **`classify`** — what a marker is, by the items beside it. `before` is what stands before the
left item: behind type parameters that are applied already, a juxtaposition is plain. -/
def classify (before : Option Tree) (left right : Tree) : Marker :=
  let either (a : Atom) : Bool := left.atom? == some a || right.atom? == some a
  if either .rangeMark then .range
  else if either .ellipsis then .ellipsis
  else if left.isBacktick || right.isBacktick then .backtick
  else if right.isAngle then .typeParam
  else if left.isAngle then
    if before.bind marker? == some .typeParam then .plain else .typeParam
  else .plain

/-- Classifies the plain markers behind the two items in front, from left to right. -/
def classifyFrom (before left : Option Tree) :
    List Tree → Except (Failure ParseError) (List Tree)
  | [] => .ok []
  | item :: rest =>
    if item.marker? = some .plain then
      match left, rest.head? with
      | some l, some r => do
        let found := markerAt (classify before l r) item.span
        return found :: (← classifyFrom left (some found) rest)
      | _, _ => fault .strayMarker
    else do return item :: (← classifyFrom left (some item) rest)

/-- **`classifyMarkers`** — classifies every plain marker by its neighbours. -/
def classifyMarkers (items : List Tree) : Except (Failure ParseError) (List Tree) :=
  classifyFrom none none items

/-! ## §3 Ellipses and backticks -/

/-- Whether a neighbour is a marker of a kind. -/
def isMarker (m : Marker) (neighbour : Option Tree) : Bool := neighbour.bind marker? == some m

/-- **`resolveFrom`** — refuses ellipses that are joined on both sides, and gives each backtick the
side of its operand; the markers beside it are dropped. -/
def resolveFrom (left : Option Tree) : List Tree → Except (Failure ParseError) (List Tree)
  | [] => .ok []
  | item :: rest =>
    if item.atom? = some .ellipsis ∧ isMarker .ellipsis left ∧ isMarker .ellipsis rest.head? then
      refuse (.ellipsisBothSides item.span)
    else if item.isBacktick then
      match isMarker .backtick left, isMarker .backtick rest.head? with
      | false, true => do
        return .leaf (.operator (.backtick .before)) item.span :: (← resolveFrom (some item) rest)
      | true, false => do
        return .leaf (.operator (.backtick .after)) item.span :: (← resolveFrom (some item) rest)
      | both, _ => refuse (.backtickSides item.span both)
    else if item.marker? = some .backtick then resolveFrom (some item) rest
    else do return item :: (← resolveFrom (some item) rest)

/-- Checks ellipses and resolves backticks. -/
def resolveBackticks (items : List Tree) : Except (Failure ParseError) (List Tree) :=
  resolveFrom none items

/-! ## §4 Range marks -/

/-- The bound that stands where none is written. -/
def undefinedAt (place : Span) : Tree := .leaf (.atom .undefined) place

/-- **`boundFrom`** — joins every range mark on both sides. Where it touches nothing, the bound is
undefined. -/
def boundFrom (left : Option Tree) : List Tree → List Tree
  | [] => []
  | item :: rest =>
    let more := boundFrom (some item) rest
    if item.atom? = some .rangeMark then
      let start := Span.point item.span.start
      let stop := item.span.endPoint
      (if isMarker .range left then [] else [undefinedAt start, markerAt .range start]) ++
      item ::
      (if isMarker .range rest.head? then more
       else markerAt .range stop :: undefinedAt stop :: more)
    else item :: more

/-- Gives every range mark two bounds. -/
def boundRanges (items : List Tree) : List Tree := boundFrom none items

/-! ## §5 Operators -/

/-- **`meanings`** — what a plain juxtaposition may mean: a number or a text is not called, and only
what stands before brackets is indexed, if it is not a number. -/
def meanings (left right : Tree) : Meanings :=
  let numeric := left.atom?.any Atom.isNumeric
  let textual := left.atom?.any Atom.isText || match left with
    | .istring .. => true
    | _ => false
  let bracketed := match right with
    | .block kind .. => kind.opensWithBracket || kind.closesWithBracket
    | _ => false
  ⟨!numeric && !textual, !numeric && bracketed, true⟩

/-- The operator that a marker stands for. -/
def markerOp (m : Marker) (left right : Option Tree) : Except (Failure ParseError) Op :=
  match m, left, right with
  | .plain, some l, some r => .ok (.juxtapose (meanings l r))
  | .plain, _, _ => fault .strayMarker
  | .range, _, _ => .ok (.bond .range)
  | .ellipsis, _, _ => .ok (.bond .ellipsis)
  | .typeParam, _, _ => .ok (.bond .typeParam)
  | .backtick, _, _ => fault .unresolvedBacktick

/-- Replaces the markers behind the item in front. -/
def operatorsFrom (left : Option Tree) : List Tree → Except (Failure ParseError) (List Tree)
  | [] => .ok []
  | item :: rest =>
    match item.marker? with
    | some m => do
      let op ← markerOp m left rest.head?
      return .leaf (.operator op) item.span :: (← operatorsFrom (some item) rest)
    | none => do return item :: (← operatorsFrom (some item) rest)

/-- **`markersToOperators`** — replaces every marker by its operator. -/
def markersToOperators (items : List Tree) : Except (Failure ParseError) (List Tree) :=
  operatorsFrom none items

end Tree
end DewyFront
