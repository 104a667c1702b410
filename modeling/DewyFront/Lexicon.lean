/-
# DewyFront.Lexicon — character classes, fixed spellings and the scanners built from them

A scanner looks at the text that is left and says how many characters at its front belong to what
it looks for; zero means that it found nothing. Since all scanners start at the same place, their
findings compare by length.

* §1 character classes;
* §2 the spellings of operators;
* §3 scanners;
* §4 block comments, which nest.
-/
import DewyFront.Text

namespace DewyFront
namespace Lexicon

/-! ## §1 Character classes -/

/-- Layout between tokens. -/
def isBlank (c : Char) : Bool := c == ' ' || c == '\t' || c == '\n' || c == '\r'

/-- **`isIllegalControl`** — ASCII control characters other than layout, which may stand nowhere
between tokens. -/
def isIllegalControl (c : Char) : Bool := (c.toNat < 32 && !isBlank c) || c.toNat == 127

/-- Greek letters that may be part of a name. -/
def greekLetters : Text :=
  ['Α', 'Β', 'Γ', 'Δ', 'Ε', 'Ζ', 'Η', 'Θ', 'Ι', 'Κ', 'Λ', 'Μ', 'Ν', 'Ξ', 'Ο', 'Π', 'Ρ', 'Σ', 'Τ',
   'Υ', 'Φ', 'Χ', 'Ψ', 'Ω', 'α', 'β', 'γ', 'δ', 'ε', 'ϵ', 'ζ', 'η', 'θ', 'ι', 'κ', 'λ', 'μ', 'ν',
   'ξ', 'ο', 'π', 'ρ', 'ς', 'σ', 'τ', 'υ', 'φ', 'χ', 'ψ', 'ω']

/-- Letters of mathematics that may be part of a name. -/
def mathLetters : Text := ['ℂ', 'ℕ', 'ℤ', 'ℚ', 'ℝ', 'ℙ', 'ℍ', '𝔼', '𝕊', '𝕋', '𝔽', '𝔾', 'ℵ', 'ℒ']

/-- Other characters that a name may begin with. -/
def otherStarts : Text := ['_', '‾', '?', '!', '$', '°']

/-- Subscripts. -/
def subscripts : Text :=
  ['₀', '₁', '₂', '₃', '₄', '₅', '₆', '₇', '₈', '₉', '₊', '₋', '₌', '₍', '₎', 'ₐ', 'ₑ', 'ₒ', 'ₓ',
   'ₕ', 'ₖ', 'ₗ', 'ₘ', 'ₙ', 'ₚ', 'ₛ', 'ₜ', 'ᵢ', 'ᵣ', 'ᵤ', 'ᵥ', 'ⱼ', 'ᵦ', 'ᵧ', 'ᵨ', 'ᵩ', 'ᵪ']

/-- Superscripts. -/
def superscripts : Text :=
  ['⁰', '¹', '²', '³', '⁴', '⁵', '⁶', '⁷', '⁸', '⁹', '⁺', '⁻', '⁼', '⁽', '⁾', 'ᴬ', 'ᴭ', 'ᴮ', 'ᴰ',
   'ᴱ', 'ᴳ', 'ᴴ', 'ᴵ', 'ᴶ', 'ᴷ', 'ᴸ', 'ᴹ', 'ᴺ', 'ᴻ', 'ᴼ', 'ᴾ', 'ᴿ', 'ᵀ', 'ᵁ', 'ᵂ', 'ᵃ', 'ᵅ', 'ᵆ',
   'ᵇ', 'ᶜ', 'ᵈ', 'ᵉ', 'ᶠ', 'ᵍ', 'ʰ', 'ⁱ', 'ʲ', 'ᵏ', 'ˡ', 'ᵐ', 'ⁿ', 'ᵒ', 'ᵖ', 'ʳ', 'ˢ', 'ᵗ', 'ᵘ',
   'ᵛ', 'ʷ', 'ˣ', 'ʸ', 'ᶻ', 'ᵝ', 'ᵞ', 'ᵟ', 'ᵠ', 'ᵡ', 'ᶿ', 'ꜝ']

/-- Trade marks and primes. -/
def otherMarks : Text := ['℠', '™', '©', '®', '′', '″', '‴', '⁗']

/-- Every mark that may stand anywhere in a name. -/
def decorations : Text := subscripts ++ superscripts ++ otherMarks

/-- **`isNameStart`** — characters that a name begins with, decorations aside. -/
def isNameStart (c : Char) : Bool :=
  c.isAlpha || greekLetters.contains c || mathLetters.contains c || otherStarts.contains c

/-- Characters that a name goes on with, decorations aside. -/
def isNameContinue (c : Char) : Bool := isNameStart c || c.isDigit

/-- **`isDecoration`** — marks that may stand anywhere in a name, also before its first letter. -/
def isDecoration (c : Char) : Bool := decorations.contains c

/-! ## §2 Spellings -/

/-- Everything that is read as a symbol, apart from shifts. -/
def symbols : List Text :=
  [['~'], ['@'], ['\x60'], ['?'], [';'], ['+'], ['-'], ['*'], ['/'], ['/', '/'], ['^'], ['\\'],
   ['=', '?'], ['>', '?'], ['<', '?'], ['>', '=', '?'], ['<', '=', '?'], ['i', 'n', '?'],
   ['i', 's', '?'], ['i', 's', 'n', 't', '?'], ['@', '?'], ['<', '=', '>'], ['|'], ['&'],
   ['?', '?'], ['='], [':', ':'], [':', '='], ['|', '>'], ['<', '|'], ['=', '>'], ['-', '>'],
   ['<', '-', '>'], ['.'], ['.', '.'], ['.', '.', '.'], [','], [':'], [':', '>'], ['∞'], ['∅']]

/-- Shifts, which are not read inside `<...>`, where `>>` would close two blocks. -/
def shifts : List Text :=
  [['<', '<'], ['>', '>'], ['<', '<', '<'], ['>', '>', '>'], ['<', '<', '!'], ['!', '>', '>']]

/-- Every character of a symbol or a shift. -/
def symbolCharacters : Text := (symbols ++ shifts).flatten

/-- Characters of a heredoc delimiter that are neither of a name nor of a symbol. -/
def delimiterExtras : Text := ['#', '%', '(', ')', '[', ']', '\x7b', '\x7d', ' ']

/-- **`isDelimiterCharacter`** — characters of a heredoc delimiter. Quotes end the delimiter. -/
def isDelimiterCharacter (c : Char) : Bool :=
  c != '"' && c != '\'' &&
  (isNameContinue c || isDecoration c || symbolCharacters.contains c || delimiterExtras.contains c)

/-! ## §3 Scanners -/

/-- The layout in front. -/
def blankLength (t : Text) : Nat := runLength isBlank t

/-- The illegal control characters in front. -/
def controlLength (t : Text) : Nat := runLength isIllegalControl t

/-- **`nameLength`** — a name: decorations, a start character, then any mix of name characters and
decorations. -/
def nameLength (t : Text) : Nat :=
  let lead := runLength isDecoration t
  match t.drop lead with
  | [] => 0
  | c :: rest =>
    if isNameStart c then lead + 1 + runLength (fun d => isNameContinue d || isDecoration d) rest
    else 0

/-- **`longestOf`** — the length of the longest spelling of a table that the text begins with. -/
def longestOf (table : List Text) (t : Text) : Nat :=
  table.foldl (fun best s => if s.isPrefixOf t then max best s.length else best) 0

/-- A symbol in front. -/
def symbolLength (t : Text) : Nat := longestOf symbols t

/-- A shift in front. -/
def shiftLength (t : Text) : Nat := longestOf shifts t

/-- **`lineCommentLength`** — a `%` comment, which runs through the end of its line. With a brace
after the `%` it is a block comment instead. -/
def lineCommentLength : Text → Nat
  | '%' :: '{' :: _ => 0
  | '%' :: rest =>
    let body := runLength (· != '\n') rest
    if body < rest.length then body + 2 else body + 1
  | _ => 0

/-! ## §4 Block comments -/

/-- **`CommentScan`** — what stands at a place where a block comment may begin. -/
inductive CommentScan where
  /-- No block comment begins here. -/
  | absent
  /-- A comment of so many characters. -/
  | closed (length : Nat)
  /-- The text ends with openers at these byte offsets still open, outermost first. -/
  | unterminated (openers : List Nat)
deriving DecidableEq, Repr

/-- **`scanNested`** — reads on inside block comments. `openers` are the byte offsets of those still
open, innermost first; `chars` and `bytes` count what has been read. -/
def scanNested (openers : List Nat) (chars bytes : Nat) : Text → CommentScan
  | '%' :: '{' :: rest => scanNested (bytes :: openers) (chars + 2) (bytes + 2) rest
  | '}' :: '%' :: rest =>
    match openers with
    | _ :: outer :: more => scanNested (outer :: more) (chars + 2) (bytes + 2) rest
    | _ => .closed (chars + 2)
  | c :: rest => scanNested openers (chars + 1) (bytes + c.utf8Size) rest
  | [] => .unterminated openers.reverse

/-- **`scanComment`** — a block comment, opened by a percent sign and a brace and closed by a brace
and a percent sign, with any number of comments nested inside. -/
def scanComment : Text → CommentScan
  | '%' :: '{' :: rest => scanNested [0] 2 2 rest
  | _ => .absent

end Lexicon
end DewyFront
