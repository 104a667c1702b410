/-
# DewyFront.Diagnostic — what is said about refused or doubtful source

* §1 codes, one for each cause;
* §2 labels and diagnostics, and how they are put together;
* §3 how a diagnostic is shown;
* §4 ordinals, for labels that count.
-/
import DewyFront.Span
import DewyFront.UpperCase

namespace DewyFront

/-! ## §1 Codes -/

/-- **`Code`** — what a diagnostic is about. The order is that of the printed codes: first what the
lexer finds, then what the parser finds, then warnings. -/
inductive Code where
  | noToken
  | severalTokens
  | controlCharacter
  | shiftInTypeParam
  | numberOrName
  | unterminatedComment
  | incompleteEscape
  | shortEscape
  | incompleteDelimiter
  | blankDelimiter
  | delimiterEdgeSpace
  | baseTooHigh
  | mismatchedCloser
  | unterminatedString
  | unterminatedBlock
  | unterminatedTypeBlock
  | sourceEncoding
  | invalidCodePoint
  | expectedExpression
  | nestedOperator
  | missingFlatOperand
  | severalRangeMarks
  | ellipsisBothSides
  | backtickSides
  | tooManyReadings
  | elseWithoutFlow
  | incompleteFlow
  | loneCarriageReturn
deriving DecidableEq, Repr

namespace Code

/-- Every code, in order. -/
def all : List Code :=
  [noToken, severalTokens, controlCharacter, shiftInTypeParam, numberOrName, unterminatedComment,
   incompleteEscape, shortEscape, incompleteDelimiter, blankDelimiter, delimiterEdgeSpace,
   baseTooHigh, mismatchedCloser, unterminatedString, unterminatedBlock, unterminatedTypeBlock,
   sourceEncoding, invalidCodePoint,
   expectedExpression, nestedOperator, missingFlatOperand, severalRangeMarks, ellipsisBothSides,
   backtickSides, tooManyReadings, elseWithoutFlow, incompleteFlow,
   loneCarriageReturn]

/-- **`text`** — how a code is printed: `E0` for the lexer, `E1` for the parser, `W` for
warnings. -/
def text : Code → String
  | noToken => "E0001"
  | severalTokens => "E0002"
  | controlCharacter => "E0003"
  | shiftInTypeParam => "E0004"
  | numberOrName => "E0005"
  | unterminatedComment => "E0006"
  | incompleteEscape => "E0007"
  | shortEscape => "E0008"
  | incompleteDelimiter => "E0009"
  | blankDelimiter => "E0010"
  | delimiterEdgeSpace => "E0011"
  | baseTooHigh => "E0012"
  | mismatchedCloser => "E0013"
  | unterminatedString => "E0014"
  | unterminatedBlock => "E0015"
  | unterminatedTypeBlock => "E0016"
  | sourceEncoding => "E0017"
  | invalidCodePoint => "E0018"
  | expectedExpression => "E1001"
  | nestedOperator => "E1002"
  | missingFlatOperand => "E1003"
  | severalRangeMarks => "E1004"
  | ellipsisBothSides => "E1005"
  | backtickSides => "E1006"
  | tooManyReadings => "E1007"
  | elseWithoutFlow => "E1008"
  | incompleteFlow => "E1009"
  | loneCarriageReturn => "W0001"

/-- **`ofText?`** — the code a text names, in either case. -/
def ofText? (t : String) : Option Code :=
  all.find? (·.text.toList == UpperCase.ofText t.toList)

/-- Whether a code is one of the lexer's errors. -/
def isLexical (c : Code) : Bool := ['E', '0'].isPrefixOf c.text.toList

/-- Whether a code is one of the parser's errors. -/
def isGrammatical (c : Code) : Bool := ['E', '1'].isPrefixOf c.text.toList

/-- Whether a code is a warning. -/
def isWarning (c : Code) : Bool := c == loneCarriageReturn

end Code

/-! ## §2 Diagnostics -/

/-- **`Severity`** — how serious a diagnostic is. -/
inductive Severity where
  | error | warning | note | help
deriving DecidableEq, Repr

/-- The word for a severity. -/
def Severity.text : Severity → String
  | error => "error"
  | warning => "warning"
  | note => "note"
  | help => "help"

/-- **`Label`** — a remark on a place. The primary ones point at what is wrong, the others at what
explains it. -/
structure Label where
  span : Span
  isPrimary : Bool
  message : String
deriving DecidableEq, Repr

/-- **`Diagnostic`** — a refusal or a warning with everything said about it. Labels, notes and
suggestions stand in the order they were added. -/
structure Diagnostic where
  code : Code
  severity : Severity
  message : String
  labels : List Label
  notes : List String
  suggestions : List String
  file : Option String
deriving DecidableEq, Repr

namespace Diagnostic

/-- A diagnostic that says nothing yet but its title. -/
def titled (severity : Severity) (code : Code) (message : String) : Diagnostic :=
  ⟨code, severity, message, [], [], [], none⟩

/-- An error with its title. -/
def error (code : Code) (message : String) : Diagnostic := titled .error code message

/-- A warning with its title. -/
def warning (code : Code) (message : String) : Diagnostic := titled .warning code message

/-- Adds a primary label. -/
def label (d : Diagnostic) (span : Span) (message : String) : Diagnostic :=
  { d with labels := d.labels ++ [⟨span, true, message⟩] }

/-- Adds a label for context. -/
def context (d : Diagnostic) (span : Span) (message : String) : Diagnostic :=
  { d with labels := d.labels ++ [⟨span, false, message⟩] }

/-- Adds a note. -/
def note (d : Diagnostic) (text : String) : Diagnostic := { d with notes := d.notes ++ [text] }

/-- Adds a suggestion. -/
def suggest (d : Diagnostic) (text : String) : Diagnostic :=
  { d with suggestions := d.suggestions ++ [text] }

/-- **`inFile`** — names the file, unless one is named already. -/
def inFile (d : Diagnostic) (name : String) : Diagnostic :=
  { d with file := d.file <|> some name }

/-- Names the file where there is a name. -/
def attach (d : Diagnostic) (name : Option String) : Diagnostic := name.elim d d.inFile

/-- Where the first primary label points. -/
def primarySpan? (d : Diagnostic) : Option Span := (d.labels.find? (·.isPrimary)).map (·.span)

/-- Whether a diagnostic is an error. -/
def isError (d : Diagnostic) : Bool := d.severity == .error

/-! ## §3 Showing -/

/-- The title line. -/
def title (d : Diagnostic) : String := s!"{d.severity.text}[{d.code.text}]: {d.message}"

/-- The lines of notes and suggestions. -/
def remarks (d : Diagnostic) : List String :=
  d.notes.map ("  = note: " ++ ·) ++ d.suggestions.map ("  = help: " ++ ·)

/-- The line of a label, with byte offsets for its place. -/
def labelLine (file : Option String) (l : Label) : String :=
  let marker := if l.isPrimary then "-->" else "   "
  let place := file.elim l.span.offsets fun name => s!"{name}@{l.span.offsets}"
  s!"  {marker} {place}: {l.message}"

/-- **`display`** — a diagnostic on its own, without the source: places are byte offsets. -/
def display (d : Diagnostic) : String :=
  "\n".intercalate (d.title :: d.labels.map (labelLine d.file) ++ d.remarks)

end Diagnostic

/-! ## §4 Ordinals -/

/-- **`ordinal`** — a number with its English ending; eleven, twelve and thirteen end like
four. -/
def ordinal (n : Nat) : String :=
  let ending :=
    if 11 ≤ n % 100 ∧ n % 100 ≤ 13 then "th"
    else match n % 10 with
      | 1 => "st"
      | 2 => "nd"
      | 3 => "rd"
      | _ => "th"
  s!"{n}{ending}"

/-- The ending of a noun that is counted. -/
def pluralEnding (count : Nat) : String := if count = 1 then "" else "s"

end DewyFront
