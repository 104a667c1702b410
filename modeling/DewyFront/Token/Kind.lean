/-
# DewyFront.Token.Kind — the kinds of tokens and where each is read

What a character means depends on what it stands in: a quote opens a string in an expression and
closes it inside. So each kind of token is read in some kinds of context only.

* §1 kinds of context;
* §2 kinds of tokens;
* §3 where each is read, and what it does;
* §4 ties between kinds.
-/
import DewyFront.Text

namespace DewyFront

/-! ## §1 Contexts -/

/-- **`ContextKind`** — what the lexer may be inside of. -/
inductive ContextKind where
  | root | stringBody | rawStringBody | basedStringBody | blockBody | typeBody
deriving DecidableEq, Repr

namespace ContextKind

/-- Every kind of context. -/
def all : List ContextKind :=
  [root, stringBody, rawStringBody, basedStringBody, blockBody, typeBody]

/-- The name of a kind of context in messages. -/
def name : ContextKind → String
  | root => "Root"
  | stringBody => "StringBody"
  | rawStringBody => "RawStringBody"
  | basedStringBody => "BasedStringBody"
  | blockBody => "BlockBody"
  | typeBody => "TypeParamBody"

/-- Contexts that hold expressions. -/
def isExpression : ContextKind → Bool
  | root | blockBody | typeBody => true
  | _ => false

end ContextKind

/-! ## §2 Kinds of tokens -/

/-- **`TokenKind`** — every kind of token. -/
inductive TokenKind where
  | blank | lineComment | blockComment
  | name | symbol | shift | hashtag
  | leftBracket | rightBracket | leftParen | rightParen | leftBrace | rightBrace
  | leftAngle | rightAngle | basedBlockOpener
  | stringOpener | stringCloser | stringText | stringEscape | holeEscape
  | rawStringOpener | rawStringText | restOfFileOpener | rawRestOfFileOpener
  | heredocOpener | heredocCloser | rawHeredocOpener | basedStringOpener | basedStringText
  | number | exponent
deriving DecidableEq, Repr

namespace TokenKind

/-- **`all`** — every kind, in the order in which they are tried. -/
def all : List TokenKind :=
  [blank, lineComment, blockComment,
   name, symbol, shift, hashtag,
   leftBracket, rightBracket, leftParen, rightParen, leftBrace, rightBrace,
   leftAngle, rightAngle, basedBlockOpener,
   stringOpener, stringCloser, stringText, stringEscape, holeEscape,
   rawStringOpener, rawStringText, restOfFileOpener, rawRestOfFileOpener,
   heredocOpener, heredocCloser, rawHeredocOpener, basedStringOpener, basedStringText,
   number, exponent]

/-- The name of a kind in listings and messages. -/
def label : TokenKind → String
  | blank => "Whitespace"
  | lineComment => "LineComment"
  | blockComment => "BlockComment"
  | name => "Identifier"
  | symbol => "Symbol"
  | shift => "ShiftSymbol"
  | hashtag => "Hashtag"
  | leftBracket => "LeftSquareBracket"
  | rightBracket => "RightSquareBracket"
  | leftParen => "LeftParenthesis"
  | rightParen => "RightParenthesis"
  | leftBrace => "LeftCurlyBrace"
  | rightBrace => "RightCurlyBrace"
  | leftAngle => "LeftAngleBracket"
  | rightAngle => "RightAngleBracket"
  | basedBlockOpener => "BasedBlockOpener"
  | stringOpener => "StringQuoteOpener"
  | stringCloser => "StringQuoteCloser"
  | stringText => "StringChars"
  | stringEscape => "StringEscape"
  | holeEscape => "ParametricStringEscape"
  | rawStringOpener => "RawStringQuoteOpener"
  | rawStringText => "RawStringChars"
  | restOfFileOpener => "RestOfFileStringQuote"
  | rawRestOfFileOpener => "RawRestOfFileStringQuote"
  | heredocOpener => "HeredocStringOpener"
  | heredocCloser => "HeredocStringCloser"
  | rawHeredocOpener => "RawHeredocStringOpener"
  | basedStringOpener => "BasedStringQuoteOpener"
  | basedStringText => "BasedStringChars"
  | number => "Number"
  | exponent => "ExponentMarker"

/-- The kind with a given name. -/
def ofLabel? (label : String) : Option TokenKind := all.find? (·.label == label)

/-! ## §3 Where kinds are read -/

/-- **`isLegalIn`** — whether a kind is read in a kind of context. -/
def isLegalIn (kind : TokenKind) (context : ContextKind) : Bool :=
  match kind with
  | blank | lineComment | blockComment => context.isExpression || context == .basedStringBody
  | name | symbol | hashtag | leftBracket | leftParen | leftAngle | basedBlockOpener
  | stringOpener | rawStringOpener | heredocOpener | rawHeredocOpener | basedStringOpener
  | number | exponent => context.isExpression
  | shift => context == .root || context == .blockBody
  | leftBrace => context.isExpression || context == .stringBody
  | rightBracket | rightParen | rightBrace => context == .blockBody
  | rightAngle => context == .typeBody
  | stringCloser => context == .stringBody || context == .rawStringBody
      || context == .basedStringBody
  | heredocCloser => context == .stringBody || context == .rawStringBody
  | stringText | stringEscape | holeEscape => context == .stringBody
  | rawStringText => context == .rawStringBody
  | basedStringText => context == .basedStringBody
  | restOfFileOpener | rawRestOfFileOpener => context == .root

/-- **`candidates`** — the kinds that are tried in a kind of context, in order. -/
def candidates (context : ContextKind) : List TokenKind := all.filter (·.isLegalIn context)

/-- Layout and comments. -/
def isTrivia : TokenKind → Bool
  | blank | lineComment | blockComment => true
  | _ => false

/-- Kinds that begin a context of their own. -/
def isOpener : TokenKind → Bool
  | leftBracket | leftParen | leftBrace | leftAngle | basedBlockOpener | stringOpener
  | holeEscape | rawStringOpener | restOfFileOpener | rawRestOfFileOpener | heredocOpener
  | rawHeredocOpener | basedStringOpener => true
  | _ => false

/-! ## §4 Ties -/

/-- **`precedence`** — a winner and a loser: of two matches of the same length, these let the first
kind stand. -/
def precedence : List (TokenKind × TokenKind) := [(symbol, name), (exponent, name)]

end TokenKind

end DewyFront
