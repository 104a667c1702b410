/-
# DewyFront.Expr.Reading — from a list of operands and operators to one expression

Passes are made until the list gets no shorter. When an operand is contested by a juxtaposition
that may be a call or a product, the list is forked: one copy for each level. Copies that come to
differ in one node only are merged, and the node becomes ambiguous, so that the ambiguity stays
where it arises. Copies that differ further are read to the end, and their results are the
candidates.

* §1 passes until nothing changes;
* §2 forks;
* §3 merging;
* §4 all readings;
* §5 the expression of a list.
-/
import DewyFront.Expr.Reduction

namespace DewyFront

namespace Reading

open Reduction

/-! ## §1 Passes -/

/-- **`Run`** — where passes come to an end: the list as it then is, and the place of the contested
juxtaposition if there is one. -/
structure Run where
  slots : List Slot
  contested : Option Nat
deriving DecidableEq

/-- Makes passes until one changes nothing or an operand is contested. A pass that changes the list
makes it shorter, so as many passes as there are slots are enough; the number bounds them. -/
def runFor : Nat → List Slot → Except (Failure ParseError) Run
  | 0, _ => fault .stalledReduction
  | n + 1, slots => do
    match ← survey slots with
    | .contested place => return ⟨slots, some place⟩
    | .decided pulls =>
      let next ← pass slots pulls
      if next.length = slots.length then return ⟨next, none⟩ else runFor n next

/-- **`run`** — makes passes until nothing changes. -/
def run (slots : List Slot) : Except (Failure ParseError) Run := runFor (slots.length + 1) slots

/-! ## §2 Forks -/

/-- **`Fork`** — copies of a list, one for each level of a juxtaposition, and where that stands. -/
structure Fork where
  site : Span
  copies : List (List Slot)
deriving DecidableEq

/-- **`fork`** — forks a list at a juxtaposition, the tightest level first. -/
def fork (slots : List Slot) (place : Nat) : Except (Failure ParseError) Fork :=
  match slots[place]? with
  | some (.operator ⟨.juxtapose m, span⟩) =>
    .ok ⟨span, (Precedence.readings m).map fun r =>
      slots.set place (.operator ⟨.juxtapose r.2, span⟩)⟩
  | _ => fault .forkOffJuxtaposition

/-- Makes passes over every copy. -/
def runAll : List (List Slot) → Except (Failure ParseError) (List (List Slot))
  | [] => .ok []
  | copy :: copies => do
    let done ← run copy
    return done.slots :: (← runAll copies)

/-! ## §3 Merging -/

/-- Adds an expression to a list that does not hold it yet. -/
def addNew (found : List Expr) (e : Expr) : List Expr :=
  if e ∈ found then found else found ++ [e]

/-- The places where copies differ from the first, with its slots there. -/
def differences (first : List Slot) (others : List (List Slot)) : List (Slot × Nat) :=
  first.zipIdx.filter fun (slot, i) => others.any fun copy => copy[i]? != some slot

/-- The nodes that copies have at a place; nothing if one has an operator there. -/
def nodesAt (place : Nat) : List (List Slot) → Option (List Expr)
  | [] => some []
  | copy :: copies => do
    let node ← copy[place]?.bind Slot.node?
    return node :: (← nodesAt place copies)

/-- **`ambiguousOf`** — candidates as one node; a single one stands for itself. -/
def ambiguousOf (site : Span) : List Expr → Expr
  | [] => .ambiguous [] site
  | [e] => e
  | e :: es => .ambiguous (e :: es) (Expr.spanOfAll e es)

/-- **`merge`** — the copies as one list, if they differ in a single node at most. -/
def merge (limit : Nat) (site : Span) (copies : List (List Slot)) :
    Except (Failure ParseError) (Option (List Slot)) :=
  match copies with
  | [] => .ok none
  | first :: others =>
    if others.any (·.length != first.length) then .ok none
    else match differences first others with
      | [] => .ok (some first)
      | [(_, place)] =>
        match nodesAt place copies with
        | none => .ok none
        | some nodes =>
          let candidates := nodes.foldl addNew []
          if limit < candidates.length then refuse (.tooManyReadings site limit)
          else .ok (some (first.set place (.node (ambiguousOf site candidates))))
      | _ => .ok none

/-! ## §4 Readings -/

/-- The only node of a list. -/
def onlyNode : List Slot → Except (Failure ParseError) Expr
  | [.node e] => .ok e
  | _ => fault .stalledReduction

/-- How many juxtapositions of a list may still be contested. -/
def contestable (slots : List Slot) : Nat :=
  slots.countP fun s => s.operator?.any (·.op.isContested)

/-- Every distinct reading of a list. Each fork settles a juxtaposition in all of its copies, so
there are at most as many forks inside each other as there are juxtapositions to settle; the number
bounds them. -/
def readingsFor (limit : Nat) : Nat → List Slot → Except (Failure ParseError) (List Expr)
  | 0, _ => fault .stalledReduction
  | n + 1, slots => do
    let ended ← run slots
    match ended.contested with
    | none => return [← onlyNode ended.slots]
    | some place =>
      let forked ← fork ended.slots place
      let copies ← runAll forked.copies
      match ← merge limit forked.site copies with
      | some merged => readingsFor limit n merged
      | none =>
        copies.foldlM (fun found copy => do
          let found := (← readingsFor limit n copy).foldl addNew found
          if limit < found.length then refuse (.tooManyReadings forked.site limit)
          else return found) []

/-- **`readings`** — every distinct reading of a list. -/
def readings (limit : Nat) (slots : List Slot) : Except (Failure ParseError) (List Expr) :=
  readingsFor limit (contestable slots + 1) slots

/-! ## §5 Expressions -/

/-- **`reduce`** — the expression of a list that stands at `span`. Readings that differ as a whole
are candidates of one node. -/
def reduce (limit : Nat) (span : Span) (slots : List Slot) : Except (Failure ParseError) Expr := do
  match ← readings limit slots with
  | [e] => return e
  | candidates => return .ambiguous candidates span

end Reading

end DewyFront
