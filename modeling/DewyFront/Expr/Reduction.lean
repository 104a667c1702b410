/-
# DewyFront.Expr.Reduction — one pass over a list of operands and operators

Every operand is drawn by the operators beside it, to the side that binds harder. An operator whose
operands are drawn to it becomes a node with them. One pass makes every node that can be made from
what the operands are drawn to; the nodes of a pass do not overlap, since an operand is drawn to one
side only.

* §1 slots;
* §2 what each slot is drawn to;
* §3 an operator and its surroundings;
* §4 the forms an operator can take here;
* §5 the choice among forms;
* §6 the pass.
-/
import DewyFront.Expr
import DewyFront.Failure
import DewyFront.ParseError
import DewyFront.Precedence

namespace DewyFront

/-! ## §1 Slots -/

/-- **`Slot`** — an entry of the list that is reduced. -/
inductive Slot where
  | node (node : Expr)
  | operator (operator : Operator)
deriving DecidableEq

namespace Slot

/-- The node in a slot. -/
def node? : Slot → Option Expr
  | node e => some e
  | operator _ => none

/-- The operator in a slot. -/
def operator? : Slot → Option Operator
  | operator o => some o
  | node _ => none

end Slot

namespace Reduction

/-! ## §2 Pulls -/

/-- **`Pull`** — the side that a slot is drawn to. -/
inductive Pull where
  | stay | left | right
deriving DecidableEq, Repr

/-- **`Survey`** — what every slot is drawn to, or the place of a juxtaposition whose meanings would
draw an operand to different sides. -/
inductive Survey where
  | decided (pulls : List Pull)
  | contested (place : Nat)
deriving DecidableEq, Repr

/-- Whether a neighbour is a juxtaposition with meanings on both levels. -/
def isContested (neighbour : Option Operator) : Bool := neighbour.any (·.op.isContested)

/-- **`pullOf`** — what an operand between two operators is drawn to; nothing when the operators are
too close to tell. A semicolon is drawn by its own juxtaposition only. Between two contested
juxtapositions the left one wins, as it would on either level. -/
def pullOf (left right : Option Operator) (node : Expr) :
    Except (Failure ParseError) (Option Pull) :=
  if node.isSemicolon && !left.any (·.op == .bond .semicolon) then .ok (some .stay)
  else if isContested left && isContested right then .ok (some .left)
  else
    let fromLeft := left.elim .none (·.op.rightPower)
    let fromRight := right.elim .none (·.op.leftPower)
    if fromLeft.isNone && fromRight.isNone then .ok (some .stay)
    else match fromLeft.compare fromRight with
      | some .gt => .ok (some .left)
      | some .lt => .ok (some .right)
      | some .eq => fault .equalPowers
      | none => .ok none

/-- The juxtaposition that contests the operand at a place. -/
def contestedAt (place : Nat) (left right : Option Operator) : Except (Failure ParseError) Nat :=
  if isContested left then .ok (place - 1)
  else if isContested right then .ok (place + 1)
  else fault .incomparablePowers

/-- Puts a pull in front of a survey. -/
def Survey.cons (pull : Pull) : Survey → Survey
  | decided pulls => decided (pull :: pulls)
  | contested place => contested place

/-- Surveys the slots from a place on, behind the slot in front. The first operand that cannot be
decided ends the survey. -/
def surveyFrom (previous : Option Slot) (place : Nat) :
    List Slot → Except (Failure ParseError) Survey
  | [] => .ok (.decided [])
  | .operator o :: rest => do
    return (← surveyFrom (some (.operator o)) (place + 1) rest).cons .stay
  | .node e :: rest => do
    let left := previous.bind Slot.operator?
    let right := rest.head?.bind Slot.operator?
    match ← pullOf left right e with
    | some pull => return (← surveyFrom (some (.node e)) (place + 1) rest).cons pull
    | none => return .contested (← contestedAt place left right)

/-- **`survey`** — surveys all slots. -/
def survey (slots : List Slot) : Except (Failure ParseError) Survey := surveyFrom none 0 slots

/-! ## §3 Surroundings -/

/-- **`Drawn`** — a slot and what it is drawn to. -/
structure Drawn where
  slot : Slot
  pull : Pull
deriving DecidableEq

/-- **`Site`** — an operator at its place, with the slots before it, nearest first, and behind
it. -/
structure Site where
  before : List Drawn
  operator : Operator
  place : Nat
  after : List Drawn

namespace Site

/-- The operand on the left, if it is drawn here. -/
def left? (s : Site) : Option Expr :=
  match s.before with
  | ⟨.node e, .right⟩ :: _ => some e
  | _ => none

/-- The operand on the right, if it is drawn here. -/
def right? (s : Site) : Option Expr :=
  match s.after with
  | ⟨.node e, .left⟩ :: _ => some e
  | _ => none

/-- Both operands, if both are drawn here. -/
def both? (s : Site) : Option (Expr × Expr) := do return (← s.left?, ← s.right?)

end Site

/-- **`attaches`** — whether what stands before an operator could be its operand. Operators that
could stand on either side of an operand are passed over. -/
def attaches : List Drawn → Bool
  | [] => false
  | ⟨.node e, _⟩ :: _ => !e.isSemicolon
  | ⟨.operator o, _⟩ :: rest =>
    if o.op.isBinary then false
    else match o.op.isBefore, o.op.isAfter with
      | true, true => attaches rest
      | false, true => true
      | _, false => false

/-! ## §4 Forms -/

/-- **`Form`** — how an operator takes its operands. -/
inductive Form where
  | binary | before | after | flat
deriving DecidableEq, Repr

end Reduction

/-- **`Reduction`** — a node for the slots from `start` up to `stop`. Unary forms of one operator
compete by their binding power. -/
structure Reduction where
  node : Expr
  start : Nat
  stop : Nat
  form : Reduction.Form
  power : Nat
deriving DecidableEq

namespace Reduction

/-- The node of an operator between two operands. -/
def binaryNode (o : Operator) (left right : Expr) : Expr :=
  .binary o left right (left.span.merge right.span)

/-- An operator between the two operands drawn to it. -/
def binaryForm (s : Site) (level : Level) : List Reduction :=
  match s.both? with
  | some (l, r) =>
    [⟨binaryNode s.operator l r, s.place - 1, s.place + 2, .binary, level.powers.1⟩]
  | none => []

/-- Refuses an operand made with the same operator. -/
def checkNesting (o : Operator) (child : Expr) : Except (Failure ParseError) Unit :=
  match child.binaryOperator? with
  | some inner => if inner.op = o.op then refuse (.nestedOperator o inner) else .ok ()
  | none => .ok ()

/-- An operator that may not stand in itself, between the two operands drawn to it. -/
def aloneForm (s : Site) (level : Level) : Except (Failure ParseError) (List Reduction) :=
  match s.both? with
  | some (l, r) => do
    checkNesting s.operator l
    checkNesting s.operator r
    return binaryForm s level
  | none => .ok []

/-- An operator in front of the operand drawn to it. It must not be able to take an operand on its
left. -/
def beforeForm (s : Site) (level : Level) : List Reduction :=
  match s.right? with
  | some e =>
    if (s.operator.op.isBinary || s.operator.op.isAfter) && attaches s.before then []
    else [⟨.before s.operator e (s.operator.span.merge e.span), s.place, s.place + 2, .before,
      level.powers.2⟩]
  | none => []

/-- An operator behind the operand drawn to it. -/
def afterForm (s : Site) (level : Level) : List Reduction :=
  match s.left? with
  | some e =>
    [⟨.after s.operator e (e.span.merge s.operator.span), s.place - 1, s.place + 1, .after,
      level.powers.1⟩]
  | none => []

/-- **`gatherBefore`** — the further operands of a flat run to the left, nearest first; nothing while
one of them is still drawn out of the run. -/
def gatherBefore (o : Operator) : List Drawn → Except (Failure ParseError) (Option (List Expr))
  | ⟨.operator p, _⟩ :: ⟨.node e, pull⟩ :: rest =>
    if p.op = o.op then
      match pull with
      | .right => do return (← gatherBefore o rest).map (e :: ·)
      | .left => .ok none
      | .stay => fault .idleFlatOperand
    else .ok (some [])
  | ⟨.operator p, _⟩ :: _ =>
    if p.op = o.op then refuse (.missingFlatOperand o) else .ok (some [])
  | _ => .ok (some [])

/-- **`gatherAfter`** — the further operands of a flat run to the right; nothing while one of them is
still drawn out of the run. -/
def gatherAfter (o : Operator) : List Drawn → Except (Failure ParseError) (Option (List Expr))
  | ⟨.operator p, _⟩ :: ⟨.node e, pull⟩ :: rest =>
    if p.op = o.op then
      match pull with
      | .left => do return (← gatherAfter o rest).map (e :: ·)
      | .right => .ok none
      | .stay => fault .idleFlatOperand
    else .ok (some [])
  | ⟨.operator p, _⟩ :: _ =>
    if p.op = o.op then refuse (.missingFlatOperand o) else .ok (some [])
  | _ => .ok (some [])

/-- The range marks among the operands of a range. -/
def rangeMarks (operands : List Expr) : List RangeMark :=
  (operands.zipIdx.filter (·.1.isRangeMark)).map fun (e, i) =>
    ⟨e.span, 0 < i, i + 1 < operands.length⟩

/-- Refuses a range with more than one range mark. -/
def checkRange (o : Operator) (operands : List Expr) : Except (Failure ParseError) Unit :=
  let marks := rangeMarks operands
  if o.op = .bond .range ∧ 1 < marks.length then refuse (.severalRangeMarks marks) else .ok ()

/-- **`flatForm`** — the whole run of an operator, once all its operands are drawn into it. -/
def flatForm (s : Site) : Except (Failure ParseError) (List Reduction) :=
  match s.both? with
  | none => .ok []
  | some (l, r) => do
    let some before ← gatherBefore s.operator s.before.tail | return []
    let some after ← gatherAfter s.operator s.after.tail | return []
    let operands := before.reverse ++ l :: r :: after
    checkRange s.operator operands
    let span := Expr.spanOfAll l (before ++ r :: after)
    return [⟨.flat s.operator operands span, s.place - 1 - 2 * before.length,
      s.place + 2 + 2 * after.length, .flat, 0⟩]

/-- The form of a level, if it can be taken here. -/
def formsAt (s : Site) (level : Level) : Except (Failure ParseError) (List Reduction) :=
  match level.assoc with
  | .left | .right => .ok (binaryForm s level)
  | .alone => aloneForm s level
  | .flat => flatForm s
  | .before => .ok (beforeForm s level)
  | .after => .ok (afterForm s level)

/-- The forms of some levels, in order. -/
def formsOf (s : Site) : List Level → Except (Failure ParseError) (List Reduction)
  | [] => .ok []
  | level :: levels => do
    let found ← formsAt s level
    return found ++ (← formsOf s levels)

/-! ## §5 The choice -/

/-- Whether two forms make the same node of the same slots. -/
def agrees (a b : Reduction) : Bool := a.start == b.start && a.stop == b.stop && a.node == b.node

/-- Drops forms that agree with an earlier one. -/
def distinct (rs : List Reduction) : List Reduction :=
  rs.foldl (fun kept r => if kept.any (agrees · r) then kept else kept ++ [r]) []

/-- An operator between operands is not taken as one in front of an operand. -/
def preferBinary (rs : List Reduction) : List Reduction :=
  if rs.any (·.form == .binary) then rs.filter (·.form != .before) else rs

/-- Of unary forms only those that bind hardest are taken. -/
def preferTight (rs : List Reduction) : List Reduction :=
  if rs.all fun r => r.form == .before || r.form == .after then
    let greatest := rs.foldl (fun n r => max n r.power) 0
    rs.filter (·.power == greatest)
  else rs

/-- **`choose`** — the form that an operator takes. -/
def choose (rs : List Reduction) : Except (Failure ParseError) (Option Reduction) :=
  match preferTight (preferBinary (distinct rs)) with
  | [] => .ok none
  | [r] => .ok (some r)
  | _ => fault .competingForms

/-- The reduction that an operator makes, if it can. -/
def at? (s : Site) : Except (Failure ParseError) (Option Reduction) := do
  choose (← formsOf s s.operator.op.levels)

/-! ## §6 The pass -/

/-- The reductions of the operators from a place on; `before` is what stands before it, nearest
first. -/
def allFrom (before : List Drawn) (place : Nat) :
    List Drawn → Except (Failure ParseError) (List Reduction)
  | [] => .ok []
  | ⟨.operator o, pull⟩ :: rest => do
    let found ← at? ⟨before, o, place, rest⟩
    return found.toList ++ (← allFrom (⟨.operator o, pull⟩ :: before) (place + 1) rest)
  | ⟨.node e, pull⟩ :: rest => allFrom (⟨.node e, pull⟩ :: before) (place + 1) rest

/-- Puts the node of a reduction in place of its slots. -/
def splice (r : Reduction) (slots : List Slot) : List Slot :=
  slots.take r.start ++ .node r.node :: slots.drop r.stop

/-- **`pass`** — makes every reduction that can be made, from the right, so that places on the left
stay what they are. -/
def pass (slots : List Slot) (pulls : List Pull) : Except (Failure ParseError) (List Slot) := do
  let reductions ← allFrom [] 0 (slots.zipWith Drawn.mk pulls)
  return reductions.foldr splice slots

end Reduction

end DewyFront
