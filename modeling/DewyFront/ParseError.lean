/-
# DewyFront.ParseError — why items or chains are refused

* §1 the causes, in the order of the stages that find them;
* §2 the diagnostic of each cause.
-/
import DewyFront.Diagnostic
import DewyFront.Keyword
import DewyFront.Precedence

namespace DewyFront

/-! ## §1 Causes -/

/-- **`FlowPart`** — what a flow keyword takes. -/
inductive FlowPart where
  | condition | clause
deriving DecidableEq, Repr

/-- The word for a part of a flow expression. -/
def FlowPart.text : FlowPart → String
  | condition => "condition"
  | clause => "clause"

/-- **`RangeMark`** — a range mark among the operands of a range, and on which sides it is
joined. -/
structure RangeMark where
  span : Span
  joinedLeft : Bool
  joinedRight : Bool
deriving DecidableEq, Repr

/-- **`ParseError`** — a cause to refuse items or chains. -/
inductive ParseError where
  /-- An ellipsis touches something on each side. -/
  | ellipsisBothSides (span : Span)
  /-- A backtick touches something on both sides, or on neither. -/
  | backtickSides (span : Span) (both : Bool)
  /-- Nothing stands where an expression is needed. -/
  | expectedExpression (place : Span)
  /-- An operator lacks an operand. -/
  | operatorWithoutOperand (operator : Operator)
  /-- An operand follows another. -/
  | missingOperator (place : Span)
  /-- An `else` does not continue a flow expression. -/
  | elseWithoutFlow (span : Span)
  /-- A flow keyword lacks its condition or its clause. -/
  | incompleteFlow (keyword : Keyword) (span : Span) (part : FlowPart)
  /-- An operator that may not stand inside itself does. -/
  | nestedOperator (outer inner : Operator)
  /-- An operator whose runs are flat lacks an operand. -/
  | missingFlatOperand (operator : Operator)
  /-- A range has more than one range mark. -/
  | severalRangeMarks (marks : List RangeMark)
  /-- A juxtaposition has more readings than allowed. -/
  | tooManyReadings (span : Span) (limit : Nat)
deriving DecidableEq, Repr

namespace ParseError

/-- **`missingOperand`** — the refusal of an operator behind which its operand is missing. -/
def missingOperand (operator : Operator) : ParseError :=
  if operator.op.isFlat then .missingFlatOperand operator else .operatorWithoutOperand operator

/-! ## §2 Wording -/

/-- Adds the label that counts a range mark. Only the first is primary. -/
def countMark (d : Diagnostic) (mark : RangeMark) (i : Nat) : Diagnostic :=
  let message := ordinal (i + 1) ++ " connected `..` token"
  if i = 0 then d.label mark.span message else d.context mark.span message

/-- Adds labels for the juxtapositions beside a range mark. -/
def markJoints (d : Diagnostic) (mark : RangeMark) : Diagnostic :=
  let d := if mark.joinedLeft then d.context (.point mark.span.start) Bond.range.label else d
  if mark.joinedRight then d.context mark.span.endPoint Bond.range.label else d

/-- The diagnostic of a range with several range marks. -/
def severalRangeMarksDiagnostic (marks : List RangeMark) : Diagnostic :=
  let d := Diagnostic.error .severalRangeMarks
    "multiple `..` tokens encountered in single range expression"
  let d := marks.zipIdx.foldl (fun d (mark, i) => countMark d mark i) d
  let d := marks.foldl markJoints d
  (d.note "A range expression may only include one `..` token"
    |>.suggest "Insert whitespace next to `..` to create multiple range expressions"
    |>.suggest "Wrap ranges in () or [] or (] or [) to explicitly delimit"
    |>.suggest "Remove any extra `..` so that there is only one per range")

/-- **`diagnostic`** — what is said about each cause. -/
def diagnostic : ParseError → Diagnostic
  | ellipsisBothSides span =>
    (Diagnostic.error .ellipsisBothSides "ellipsis juxtaposed on both sides"
      |>.label span "`...` touches an expression on each side"
      |>.suggest "Insert whitespace on one side of `...`")
  | backtickSides span both =>
    (Diagnostic.error .backtickSides "backtick must be juxtaposed on exactly one side"
      |>.label span (if both then "touches an expression on both sides" else "touches nothing")
      |>.suggest
        "Write `` `x `` to apply the backtick as a prefix, or `` x` `` as a postfix")
  | expectedExpression place =>
    (Diagnostic.error .expectedExpression "expected an expression"
      |>.label place "expected an expression here")
  | operatorWithoutOperand operator =>
    (Diagnostic.error .expectedExpression "expected an expression"
      |>.label operator.span ("`" ++ operator.op.spelled ++ "` needs an operand here"))
  | missingOperator place =>
    (Diagnostic.error .expectedExpression "expected an operator between expressions"
      |>.label place "this expression follows another with nothing joining them")
  | elseWithoutFlow span =>
    (Diagnostic.error .elseWithoutFlow "`else` without a preceding flow expression"
      |>.label span "nothing to continue"
      |>.suggest "`else` must follow an `if`, `loop` or `lazy` expression")
  | incompleteFlow keyword span part =>
    (Diagnostic.error .incompleteFlow s!"`{keyword.spelling}` is missing its {part.text}"
      |>.label span s!"`{keyword.spelling}` needs a condition and a clause"
      |>.note s!"e.g. `{keyword.spelling} x >? 0 print'positive'`")
  | nestedOperator outer inner =>
    (Diagnostic.error .nestedOperator "operator may not nest inside itself"
      |>.label outer.span ("this `" ++ outer.op.spelled ++ "`")
      |>.context inner.span ("contains this `" ++ inner.op.spelled ++ "`")
      |>.suggest "Wrap one side in parentheses, or split it into separate expressions")
  | missingFlatOperand operator =>
    (Diagnostic.error .missingFlatOperand ("missing operand for `" ++ operator.op.spelled ++ "`")
      |>.label operator.span "expected an expression on each side")
  | severalRangeMarks marks => severalRangeMarksDiagnostic marks
  | tooManyReadings span limit =>
    (Diagnostic.error .tooManyReadings "expression has too many possible interpretations"
      |>.label span s!"more than {limit} readings at this juxtaposition"
      |>.suggest "Add parentheses or whitespace to make juxtapositions unambiguous")

end ParseError

end DewyFront
