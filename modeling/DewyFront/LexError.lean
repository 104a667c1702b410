/-
# DewyFront.LexError — why source is refused before it is parsed

Each cause carries what its wording needs, and the wording of all causes stands in one place.
Offsets are byte offsets.

* §1 what would have closed something;
* §2 the causes;
* §3 the diagnostic of each cause.
-/
import DewyFront.Diagnostic
import DewyFront.Radix
import DewyFront.Token.Kind
import DewyFront.UpperCase

namespace DewyFront

/-! ## §1 Closers -/

/-- **`Closer`** — what ends a context. -/
inductive Closer where
  /-- The text that ends a string. -/
  | text (text : Text)
  | brace
  | bracket
  | bracketOrParen
  | chevron
  /-- A string that only the end of the source ends, but which stands inside something. -/
  | quote
deriving DecidableEq, Repr

/-- A closer in words. -/
def Closer.describe : Closer → String
  | text t => "`" ++ String.ofList t ++ "`"
  | brace => "`\x7d`"
  | bracket => "`]`"
  | bracketOrParen => "`]` or `)`"
  | chevron => "`>`"
  | quote => "closing quote"

/-! ## §2 Causes -/

/-- **`LexError`** — a cause to refuse source. -/
inductive LexError where
  /-- The source begins with a byte order mark of so many bytes. -/
  | byteOrderMark (size : Nat)
  /-- The source has more bytes than spans can reach. -/
  | oversized
  /-- A run of illegal control characters. -/
  | controlCharacters (start size : Nat)
  /-- Block comments opened at these offsets, outermost first, are still open at the end. -/
  | unterminatedComments (openers : List Nat) (stop : Nat)
  /-- A backslash is the last character. -/
  | incompleteEscape (start : Nat)
  /-- A code point escape has too few digits; `escape` is the part that is there. -/
  | shortEscape (start : Nat) (escape : Text) (expected : Nat)
  /-- A code point escape names no character. -/
  | invalidCodePoint (span : Span) (digits : Text)
  /-- The delimiter of a heredoc is not closed by the quote that opened it. -/
  | incompleteDelimiter (start : Nat) (sigil : Text) (quote : Char) (delimiter : Text)
      (next : Option Char)
  /-- The delimiter of a heredoc consists of spaces. -/
  | blankDelimiter (start size : Nat)
  /-- The delimiter of a heredoc begins or ends with a space. -/
  | delimiterEdgeSpace (start : Nat) (delimiter : Text) (quote : Char)
  /-- Unquoted digits of a base above the limit. -/
  | baseTooHigh (start : Nat) (base : Radix) (digits : Text) (limit : Nat)
  /-- Characters that are a number and a name alike. -/
  | numberOrName (start : Nat) (sequence : Text) (base : Radix)
  /-- A block is closed by something else than what closes it. -/
  | mismatchedCloser (opener closer : Span) (expected : Closer) (found : Text)
  /-- A second chevron behind one that closed a type-parameter block. -/
  | shiftInTypeParam (start : Nat)
  /-- Nothing that may stand here does. -/
  | noToken (start : Nat) (context : ContextKind) (rest : Text)
  /-- Several kinds of tokens fit equally well. -/
  | severalTokens (start size : Nat) (context : ContextKind) (kinds : List TokenKind)
  /-- A context is still open at the end of the source. -/
  | unterminated (context : ContextKind) (opener : Span) (closer : Closer) (stop : Nat)
deriving DecidableEq, Repr

/-! ## §3 Wording -/

namespace LexError

/-- The first line of a text, without its ending. -/
def firstLine (t : Text) : Text :=
  let line := t.takeWhile (· != '\n')
  if line.length < t.length ∧ line.getLast? = some '\r' then line.dropLast else line

/-- The number of characters that a preview shows. -/
def previewLimit : Nat := 32

/-- **`preview`** — the beginning of the first line of a text. -/
def preview (t : Text) : String :=
  let line := firstLine t
  if previewLimit < line.length then String.ofList (line.take previewLimit) ++ "..."
  else String.ofList line

/-- Labels for comments that are still open: the opener of each, innermost last. -/
def openComment (d : Diagnostic) (i opener : Nat) : Diagnostic :=
  let inside := if 0 < i then " (inside " ++ ordinal i ++ ")" else ""
  d.label ⟨opener, opener + 2⟩
    (ordinal (i + 1) ++ " unterminated block comment opened here" ++ inside)

/-- The stretches that the open comments cover: each up to the next opener, the last to the
end. -/
def commentBodies (stop : Nat) : List Nat → List Span
  | [] => []
  | [opener] => [⟨opener + 2, stop⟩]
  | opener :: next :: more => ⟨opener + 2, next⟩ :: commentBodies stop (next :: more)

/-- The diagnostic of comments that are still open. -/
def unterminatedCommentsDiagnostic (openers : List Nat) (stop : Nat) : Diagnostic :=
  let count := openers.length
  let s := pluralEnding count
  let d := Diagnostic.error .unterminatedComment s!"{count} unterminated block comment{s}"
  let d := openers.zipIdx.foldl (fun d (opener, i) => openComment d i opener) d
  let d := (commentBodies stop openers).foldl
    (fun d body => d.context body s!"Unbound block comment{s}") d
  d.suggest (s!"Did you forget {count} closing `\x7d%`?\n" ++
    "Block comments start with `%\x7b` and end with `\x7d%` and can be nested")

/-- The diagnostic of a code point escape that is too short. -/
def shortEscapeDiagnostic (start : Nat) (escape : Text) (expected : Nat) : Diagnostic :=
  let found := escape.length - 2
  let missing := expected - found
  let sample := String.ofList (escape ++ "ff83".toList.take missing)
  let d := Diagnostic.error .shortEscape "Unicode escape sequence is too short"
  let d := d.context ⟨start, start + 2⟩ "Unicode escape opened here"
  let d := if 0 < found then
      d.context ⟨start + 2, start + 2 + found⟩ s!"found {found} hex digit{pluralEnding found}"
    else d
  let d := d.label ⟨start + 2 + found, start + 2 + expected⟩
    s!"Expected {missing} more hex digit{pluralEnding missing}"
  d.suggest s!"Unicode escape sequence must be {expected} hex digits long. E.g. `{sample}`"

/-- The diagnostic of a heredoc delimiter that is not closed. -/
def incompleteDelimiterDiagnostic (start : Nat) (sigil : Text) (quote : Char) (delimiter : Text)
    (next : Option Char) : Diagnostic :=
  let otherQuote := if quote = '"' then '\'' else '"'
  let begun := String.ofList (sigil ++ quote :: delimiter)
  let sample := begun.push quote
  let quoteAt := start + width sigil
  let delimiterAt := quoteAt + 1
  let delimiterEnd := delimiterAt + width delimiter
  let d := Diagnostic.error .incompleteDelimiter "Incomplete heredoc delimiter"
  let d := d.context ⟨start, quoteAt⟩ "heredoc start"
  let d := d.context ⟨quoteAt, delimiterAt⟩ "heredoc delimiter opening quote"
  let d := if delimiter.isEmpty then d else d.context ⟨delimiterAt, delimiterEnd⟩ "delimiter"
  let d := d.label ⟨delimiterEnd, delimiterEnd + next.elim 0 Char.utf8Size⟩
    s!"Expected closing quote {quote} for heredoc delimiter"
  d.suggest <|
    if next = some otherQuote then
      s!"Did you mean to use {quote} to close instead of {otherQuote} e.g. {sample} not " ++
        begun.push otherQuote
    else s!"Finish the heredoc delimiter (e.g. {sample})"

/-- A text without the spaces at both ends. -/
def trimSpaces (t : Text) : Text :=
  ((t.dropWhile (· == ' ')).reverse.dropWhile (· == ' ')).reverse

/-- The diagnostic of a heredoc delimiter with a space at an end. -/
def delimiterEdgeSpaceDiagnostic (start : Nat) (delimiter : Text) (quote : Char) : Diagnostic :=
  let leading := runLength (· == ' ') delimiter
  let trailing := runLength (· == ' ') delimiter.reverse
  let stop := start + width delimiter
  let d := Diagnostic.error .delimiterEdgeSpace
    "Heredoc delimiter cannot start or end with space"
  let d := d.context ⟨start + leading, stop - trailing⟩ "delimiter"
  let d := if 0 < leading then d.label ⟨start, start + leading⟩ "Leading space" else d
  let d := if 0 < trailing then d.label ⟨stop - trailing, stop⟩ "Trailing space" else d
  let trimmed := String.ofList (trimSpaces delimiter)
  d.suggest ("Heredoc delimiters may not start or end with space. Remove any leading or " ++
    s!"trailing space from the delimiter, e.g. #{quote}{trimmed}{quote}")

/-- The diagnostic of digits whose base is above the limit. -/
def baseTooHighDiagnostic (start : Nat) (base : Radix) (digits : Text) (limit : Nat) :
    Diagnostic :=
  let sample := String.ofList (base.lead ++ '\'' :: digits ++ ['\''])
  (Diagnostic.error .baseTooHigh "number base too high"
    |>.context ⟨start, start + 2⟩ s!"base-{base.value} prefix"
    |>.label ⟨start + 2, start + 2 + width digits⟩ "unquoted digits"
    |>.suggest (s!"Numeric literals only support up to base-{limit} (Got base-{base.value})\n" ++
      s!"To represent larger bases, use a based string e.g. {sample}"))

/-- The diagnostic of characters that are a number and a name alike. -/
def numberOrNameDiagnostic (start : Nat) (sequence : Text) (base : Radix) : Diagnostic :=
  let written := String.ofList sequence
  let lead := String.ofList base.lead
  let radix := base.value
  (Diagnostic.error .numberOrName "Ambiguous number or identifier in block body"
    |>.label ⟨start, start + width sequence⟩ s!"could be a base-{radix} number or an identifier"
    |>.suggest (s!"The current block is in base-{radix} mode.\n" ++
      s!"The sequence `{written}` is both valid as a base-{radix} number and as an identifier.\n" ++
      "To indicate a number:\n" ++
      s!"- add a leading `0` e.g. `0{written}`\n" ++
      s!"- add a base prefix e.g. `{lead}{written}`\n" ++
      "To indicate an identifier:\n" ++
      s!"- wrap in parentheses, e.g. `({written})`"))

/-- The diagnostic of a block that is closed by something else than what closes it. -/
def mismatchedCloserDiagnostic (opener closer : Span) (expected : Closer) (found : Text) :
    Diagnostic :=
  let wanted := expected.describe
  let d := Diagnostic.error .mismatchedCloser "Mismatched opening and closing delimiters"
  let d := d.context opener "Opening delimiter"
  if expected = .bracketOrParen then
    (d.label closer s!"Mismatched closer. Expected {wanted}").suggest
      "Did you forget a closing `)` or `]`?"
  else
    (d.label closer (s!"Mismatched closer. Expected {wanted} not `" ++ String.ofList found ++
      "`")).suggest s!"Did you forget a closing {wanted}?"

/-- What an open context is called: its code, its title, its name and what is said of its end. -/
def unterminatedWording : ContextKind → Code × String × String × String
  | .rawStringBody => (.unterminatedString, "Missing raw string closing quote", "Raw string",
      "End without closing quote")
  | .basedStringBody => (.unterminatedString, "Missing based-string closing quote",
      "Based string", "End without closing quote")
  | .blockBody => (.unterminatedBlock, "Missing block closing delimiter", "Block",
      "End without closing delimiter")
  | .typeBody => (.unterminatedTypeBlock, "Missing type block closing chevron", "Type block",
      "End without closing delimiter")
  | .root | .stringBody => (.unterminatedString, "Missing string closing quote", "String",
      "End without closing quote")

/-- The diagnostic of a context that is still open at the end. -/
def unterminatedDiagnostic (context : ContextKind) (opener : Span) (closer : Closer)
    (stop : Nat) : Diagnostic :=
  let (code, title, what, ending) := unterminatedWording context
  let stop := max stop opener.stop
  (Diagnostic.error code title
    |>.context opener s!"{what} opened here"
    |>.context ⟨opener.stop, stop⟩ s!"{what} body"
    |>.label (.point stop) ending
    |>.suggest ("Did you forget a " ++ closer.describe ++ "?"))

/-- **`diagnostic`** — what is said about each cause. -/
def diagnostic : LexError → Diagnostic
  | byteOrderMark size =>
    (Diagnostic.error .sourceEncoding "Byte order mark is not allowed"
      |>.label ⟨0, size⟩ "UTF-8 byte order mark"
      |>.suggest "Save the file as UTF-8 without a byte order mark")
  | oversized =>
    (Diagnostic.error .sourceEncoding "Source file is too large"
      |>.label .nowhere "source exceeds 4 GiB")
  | controlCharacters start size =>
    (Diagnostic.error .controlCharacter "Illegal control character"
      |>.label ⟨start, start + size⟩ s!"Control character{pluralEnding size}"
      |>.suggest ("Control characters are not allowed in Dewy source code (for security " ++
        "reasons). Please remove them."))
  | unterminatedComments openers stop => unterminatedCommentsDiagnostic openers stop
  | incompleteEscape start =>
    (Diagnostic.error .incompleteEscape "Incomplete escape sequence at end of string"
      |>.label ⟨start, start + 1⟩ "incomplete escape sequence"
      |>.suggest ("Finish the escape sequence (e.g. `\\n`, `\\u1234`, etc.) or remove the " ++
        "trailing backslash."))
  | shortEscape start escape expected => shortEscapeDiagnostic start escape expected
  | invalidCodePoint span digits =>
    (Diagnostic.error .invalidCodePoint "Invalid unicode code point"
      |>.label span ("U+" ++ String.ofList (UpperCase.ofText digits) ++
        " is not a unicode scalar value")
      |>.suggest "Surrogate code points (U+D800 to U+DFFF) cannot appear in strings")
  | incompleteDelimiter start sigil quote delimiter next =>
    incompleteDelimiterDiagnostic start sigil quote delimiter next
  | blankDelimiter start size =>
    (Diagnostic.error .blankDelimiter "Heredoc delimiter cannot be all space"
      |>.label ⟨start, start + size⟩ "Heredoc delimiter"
      |>.suggest ("Heredoc delimiters must contain at least one non-space character, and may " ++
        "not start or end with space"))
  | delimiterEdgeSpace start delimiter quote => delimiterEdgeSpaceDiagnostic start delimiter quote
  | baseTooHigh start base digits limit => baseTooHighDiagnostic start base digits limit
  | numberOrName start sequence base => numberOrNameDiagnostic start sequence base
  | mismatchedCloser opener closer expected found =>
    mismatchedCloserDiagnostic opener closer expected found
  | shiftInTypeParam start =>
    (Diagnostic.error .shiftInTypeParam "Shift operator inside type parameter"
      |>.label ⟨start - 1, start + 1⟩ "Shift operator"
      |>.context (.point start) "Tokenized as a type parameter closing delimiter"
      |>.suggest ("Shift operations may not be used directly within a type parameter.\n" ++
        "Perhaps you meant to wrap the expression in parentheses\n" ++
        "e.g. `something<(a >> b)>` instead of `something<a >> b>`"))
  | noToken start context rest =>
    (Diagnostic.error .noToken s!"no valid token matched. Context={context.name}"
      |>.label (.point start) (s!"no valid token at position {start}: " ++ preview rest))
  | severalTokens start size context kinds =>
    (Diagnostic.error .severalTokens
        s!"multiple tokens matched (fallback error case). Context={context.name}"
      |>.label ⟨start, start + size⟩ ("multiple tokens matched at span " ++
        Span.interval ⟨start, start + size⟩ ++ ": " ++ ", ".intercalate (kinds.map (·.label)))
      |>.suggest ("disambiguation rules currently can't handle this case.\n" ++
        "1) Please manually disambiguate\n" ++
        "2) Probably this case should get a dedicated error function"))
  | unterminated context opener closer stop => unterminatedDiagnostic context opener closer stop

end LexError

/-- **`loneReturnWarning`** — the warning about a carriage return without a newline behind it. -/
def loneReturnWarning (offset : Nat) : Diagnostic :=
  (Diagnostic.warning .loneCarriageReturn "Lone carriage return"
    |>.label ⟨offset, offset + 1⟩ "\\r without \\n"
    |>.suggest ("\\r should always be followed by \\n in Dewy source code. Recommend either " ++
      "removing the \\r or adding newline (\\r\\n)"))

end DewyFront
