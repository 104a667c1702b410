/-
# DewyFront.Token.Match — what each kind of token takes from the front of the text

A matcher says how many characters its kind would take, and never zero. Some text can only be a
malformed token of one kind; it is refused on the spot, whatever else would match.

* §1 what a matcher sees;
* §2 quotes and string bodies;
* §3 heredoc openers;
* §4 numbers;
* §5 all kinds together;
* §6 the choice among matches.
-/
import DewyFront.Config
import DewyFront.Failure
import DewyFront.LexError
import DewyFront.Lexicon
import DewyFront.Token.Context

namespace DewyFront

/-! ## §1 Views -/

/-- **`View`** — what a matcher sees: where it stands, inside of what, the kind of the token before
and the text that is left. -/
structure View where
  config : LexerConfig
  start : Nat
  context : Context
  previous : Option TokenKind
  rest : Text

namespace View

/-- A match, if it takes anything. -/
def positive (n : Nat) : Option Nat := if n = 0 then none else some n

/-- A match of one character. -/
def single (c : Char) (t : Text) : Option Nat := if t.head? = some c then some 1 else none

/-- A match of one of two spellings of the same length. -/
def either (s t : String) (rest : Text) : Option Nat :=
  if s.toList.isPrefixOf rest || t.toList.isPrefixOf rest then some s.length else none

/-! ## §2 Strings -/

/-- Whether a character is a quote. -/
def isQuote (c : Char) : Bool := c == '"' || c == '\''

/-- **`quoteRun`** — the run of quotes that opens a string. An even run is an empty string, so half
of it opens; an odd run opens as a whole. -/
def quoteRun : Text → Option Nat
  | [] => none
  | q :: t =>
    if isQuote q then
      let run := 1 + runLength (· == q) t
      some (if run % 2 = 0 then run / 2 else run)
    else none

/-- **`bodyLength`** — the text of a string up to what ends it. A string with holes also stops at a
backslash and at an opening brace. -/
def bodyLength (stop : Option Text) (hasHoles : Bool) : Text → Nat
  | [] => 0
  | c :: t =>
    if (hasHoles && (c == '\\' || c == '\x7b')) || stop.any (·.isPrefixOf (c :: t)) then 0
    else 1 + bodyLength stop hasHoles t

/-- The text of a string, given what the string is ended by. -/
def stringText (v : View) (hasHoles : Bool) : Option Nat :=
  positive (bodyLength (v.context.ending?.bind Ending.text?) hasHoles v.rest)

/-- How many digits a code point escape has. -/
def escapeDigits : Nat := 4

/-- Hexadecimal digits of either case. -/
def isHexDigit (c : Char) : Bool := Radix.hexadecimal.isDigit c

/-- **`escape`** — a backslash and what it governs: four hexadecimal digits after `u`, else one
character. With a brace after `u` it is the opener of a hole instead. -/
def escape (v : View) : Except LexError (Option Nat) :=
  match v.rest with
  | ['\\'] => .error (.incompleteEscape v.start)
  | '\\' :: c :: t =>
    if c = 'u' ∨ c = 'U' then
      if t.head? = some '\x7b' then .ok none
      else
        let found := min (runLength isHexDigit t) escapeDigits
        if found < escapeDigits then
          .error (.shortEscape v.start ('\\' :: c :: t.take found) escapeDigits)
        else .ok (some (2 + escapeDigits))
    else .ok (some 2)
  | _ => .ok none

/-- The opener of a hole for code points. -/
def holeEscape : Text → Option Nat
  | '\\' :: c :: '\x7b' :: _ => if c = 'u' ∨ c = 'U' then some 3 else none
  | _ => none

/-- The quotes that end a string. -/
def closingQuotes (v : View) : Option Nat :=
  match v.context.ending? with
  | some (.quotes run) => if run.isPrefixOf v.rest then some run.length else none
  | _ => none

/-- The delimiter that ends a heredoc. -/
def closingDelimiter (v : View) : Option Nat :=
  match v.context.ending? with
  | some (.delimiter d) => if d.isPrefixOf v.rest then some d.length else none
  | _ => none

/-- The digits of a based string. -/
def basedText (v : View) : Option Nat :=
  match v.context with
  | .basedStringBody _ _ base => positive (runLength (fun c => base.isDigit c || c == '_') v.rest)
  | _ => none

/-! ## §3 Heredocs -/

/-- **`heredoc`** — a sigil, a quote, a delimiter and the same quote. Once the delimiter has begun,
it has to be well formed. -/
def heredoc (v : View) (sigil : Text) : Except LexError (Option Nat) :=
  if !sigil.isPrefixOf v.rest then .ok none
  else match v.rest.drop sigil.length with
    | [] => .ok none
    | quote :: body =>
      let delimiter := body.takeWhile Lexicon.isDelimiterCharacter
      let next := (body.dropWhile Lexicon.isDelimiterCharacter).head?
      let start := v.start + width sigil + 1
      if !isQuote quote || delimiter.isEmpty then .ok none
      else if next ≠ some quote then
        .error (.incompleteDelimiter v.start sigil quote delimiter next)
      else if delimiter.all (· == ' ') then .error (.blankDelimiter start (width delimiter))
      else if delimiter.head? = some ' ' ∨ delimiter.getLast? = some ' ' then
        .error (.delimiterEdgeSpace start delimiter quote)
      else .ok (some (sigil.length + delimiter.length + 2))

/-! ## §4 Numbers -/

/-- A run of digits and separators. -/
def digitRun (base : Radix) (t : Text) : Nat := runLength (fun c => base.isDigit c || c == '_') t

/-- **`numberAt`** — a number at the front of a text that begins at `start`: a lead and its digits,
or digits in the base of the context. The first character after the lead has to be a digit. -/
def numberAt (v : View) (start : Nat) (t : Text) : Except LexError (Option Nat) :=
  match Radix.ofLead? t with
  | some base =>
    let digits := t.drop 2
    if digits.head?.any base.isDigit then
      let n := digitRun base digits
      if v.config.maxRadix < base.value then
        .error (.baseTooHigh start base (digits.take n) v.config.maxRadix)
      else .ok (some (2 + n))
    else .ok none
  | none =>
    let base := v.context.digitBase
    .ok (if t.head?.any base.isDigit then some (digitRun base t) else none)

/-- **`exponent`** — a marker behind a number, with another number behind it. -/
def exponent (v : View) : Except LexError (Option Nat) :=
  match v.previous, v.rest with
  | some .number, c :: t =>
    if c = 'e' ∨ c = 'E' ∨ c = 'p' ∨ c = 'P' then
      (v.numberAt (v.start + 1) t).map (·.map (· + 1))
    else .ok none
  | _, _ => .ok none

/-! ## §5 All kinds -/

/-- A block comment. One that is not closed is refused. -/
def blockComment (v : View) : Except LexError (Option Nat) :=
  match Lexicon.scanComment v.rest with
  | .absent => .ok none
  | .closed n => .ok (some n)
  | .unterminated openers =>
    .error (.unterminatedComments (openers.map (v.start + ·)) (v.start + width v.rest))

/-- A name behind a hash sign. -/
def hashtag : Text → Option Nat
  | '#' :: t => (positive (Lexicon.nameLength t)).map (· + 1)
  | _ => none

/-- The opener of a raw string. -/
def rawString : Text → Option Nat
  | 'r' :: t => (quoteRun t).map (· + 1)
  | _ => none

/-- The opener of a based string. -/
def basedString (t : Text) : Option Nat :=
  if (Radix.ofLead? t).isSome then (quoteRun (t.drop 2)).map (· + 2) else none

/-- The opener of a block with a base. -/
def basedBlock (t : Text) : Option Nat :=
  if (Radix.ofLead? t).isSome ∧ (t.drop 2).head? = some '[' then some 3 else none

/-- **`matchKind`** — how many characters a kind takes here, if it matches. -/
def matchKind (v : View) : TokenKind → Except LexError (Option Nat)
  | .blank => .ok (positive (Lexicon.blankLength v.rest))
  | .lineComment => .ok (positive (Lexicon.lineCommentLength v.rest))
  | .blockComment => v.blockComment
  | .name => .ok (positive (Lexicon.nameLength v.rest))
  | .symbol => .ok (positive (Lexicon.symbolLength v.rest))
  | .shift => .ok (positive (Lexicon.shiftLength v.rest))
  | .hashtag => .ok (hashtag v.rest)
  | .leftBracket => .ok (single '[' v.rest)
  | .rightBracket => .ok (single ']' v.rest)
  | .leftParen => .ok (single '(' v.rest)
  | .rightParen => .ok (single ')' v.rest)
  | .leftBrace => .ok (single '\x7b' v.rest)
  | .rightBrace => .ok (single '\x7d' v.rest)
  | .leftAngle => .ok (single '<' v.rest)
  | .rightAngle => .ok (single '>' v.rest)
  | .basedBlockOpener => .ok (basedBlock v.rest)
  | .stringOpener => .ok (quoteRun v.rest)
  | .rawStringOpener => .ok (rawString v.rest)
  | .basedStringOpener => .ok (basedString v.rest)
  | .stringCloser => .ok v.closingQuotes
  | .heredocCloser => .ok v.closingDelimiter
  | .stringText => .ok (v.stringText true)
  | .rawStringText => .ok (v.stringText false)
  | .stringEscape => v.escape
  | .holeEscape => .ok (holeEscape v.rest)
  | .basedStringText => .ok v.basedText
  | .restOfFileOpener => .ok (either "#\"\"\"" "#'''" v.rest)
  | .rawRestOfFileOpener => .ok (either "#r\"\"\"" "#r'''" v.rest)
  | .heredocOpener => v.heredoc ['#']
  | .rawHeredocOpener => v.heredoc ['#', 'r']
  | .number => v.numberAt v.start v.rest
  | .exponent => v.exponent

/-! ## §6 The choice -/

/-- **`Match`** — a kind and how many characters it takes. -/
structure Match where
  kind : TokenKind
  length : Nat
deriving DecidableEq, Repr

/-- The matches of some kinds, in order. The first refusal ends the search. -/
def matchesOf (v : View) : List TokenKind → Except LexError (List Match)
  | [] => .ok []
  | kind :: kinds => do
    let found ← v.matchKind kind
    let more ← v.matchesOf kinds
    return (found.map (Match.mk kind)).toList ++ more

/-- The matches of every kind that is tried here. -/
def allMatches (v : View) : Except LexError (List Match) :=
  v.matchesOf (TokenKind.candidates v.context.kind)

/-- The greatest length among matches. -/
def greatestLength (ms : List Match) : Nat := ms.foldl (fun n m => max n m.length) 0

/-- The longest matches. -/
def longest (ms : List Match) : List Match := ms.filter (·.length == greatestLength ms)

/-- Whether a match gives way to another of the same length. -/
def losesTo (ms : List Match) (m : Match) : Bool :=
  TokenKind.precedence.any fun (winner, loser) => m.kind == loser && ms.any (·.kind == winner)

/-- **`winners`** — the longest matches, without those that give way. -/
def winners (ms : List Match) : List Match :=
  let best := longest ms
  best.filter fun m => !losesTo best m

end View

end DewyFront
