/-
# DewyFront.Token.Scan — source text to tokens

At each place the longest match among the kinds that may stand there is taken. Openers put a
context on a stack, closers take it off and are paired with its opener. Runs of illegal control
characters are skipped and reported together; any other error ends the scan.

* §1 the state of a scan;
* §2 taking a token;
* §3 places where no token can be taken;
* §4 the end of the source;
* §5 the whole scan.
-/
import DewyFront.Token.List
import DewyFront.Token.Match

namespace DewyFront

/-! ## §1 The state -/

/-- **`Scan`** — how far a scan has come. The innermost context is on top of the stack. -/
structure Scan where
  /-- The byte offset of the text that is left. -/
  offset : Nat
  tokens : TokenList
  stack : List Context
  /-- The context that was closed last. -/
  lastClosed : Option Context
  errors : List LexError
  /-- Offsets of carriage returns without a newline behind them. -/
  loneReturns : List Nat
deriving DecidableEq, Repr

/-- **`Tokenized`** — the tokens of a source, and the offsets of lone carriage returns. -/
structure Tokenized where
  tokens : TokenList
  loneReturns : List Nat
deriving DecidableEq, Repr

namespace Scan

/-- The state before anything has been read. -/
def start : Scan := ⟨0, .empty, [.root], none, [], []⟩

/-- The innermost context. -/
def top (s : Scan) : Context := s.stack.headD .root

/-- What matchers see of a text that is left. -/
def view (s : Scan) (config : LexerConfig) (rest : Text) : View :=
  ⟨config, s.offset, s.top, s.tokens.last?.map (·.kind), rest⟩

/-! ## §2 Taking a token -/

/-- The offsets of carriage returns in a stretch of layout that have no newline behind them. -/
def loneReturnsIn (offset : Nat) : Text → List Nat
  | '\r' :: '\n' :: t => loneReturnsIn (offset + 2) t
  | '\r' :: t => offset :: loneReturnsIn (offset + 1) t
  | c :: t => loneReturnsIn (offset + c.utf8Size) t
  | [] => []

/-- Begins a context. -/
def enter (s : Scan) (context : Context) : Scan := { s with stack := context :: s.stack }

/-- Ends the innermost context, which the token at `opener` began and the one at `closer` ends. -/
def leave (s : Scan) (opener closer : Nat) : Scan :=
  { s with
    tokens := s.tokens.pair opener closer
    stack := s.stack.tail
    lastClosed := s.stack.head? }

/-- **`expectedCloser`** — what closes a block, by the token that opened it. -/
def expectedCloser : Option TokenKind → Closer
  | some .leftBrace | some .holeEscape => .brace
  | some .basedBlockOpener => .bracket
  | _ => .bracketOrParen

/-- Whether a closing token is what closes a block. -/
def closes (expected : Closer) (kind : TokenKind) : Bool :=
  match expected with
  | .brace => kind == .rightBrace
  | .bracket => kind == .rightBracket
  | _ => kind == .rightBracket || kind == .rightParen

/-- **`context?`** — the context that an opener with the given place and text begins. -/
def context? (kind : TokenKind) (place : Nat) (lexeme : Text) : Option Context :=
  match kind with
  | .leftBracket | .leftParen | .leftBrace => some (.blockBody place .decimal)
  | .basedBlockOpener => some (.blockBody place ((Radix.ofLead? lexeme).getD .decimal))
  | .holeEscape => some (.blockBody place .hexadecimal)
  | .leftAngle => some (.typeBody place)
  | .stringOpener => some (.stringBody place (.quotes lexeme))
  | .restOfFileOpener => some (.stringBody place .endOfSource)
  | .heredocOpener => some (.stringBody place (.delimiter (lexeme.drop 2).dropLast))
  | .rawStringOpener => some (.rawStringBody place (.quotes (lexeme.drop 1)))
  | .rawRestOfFileOpener => some (.rawStringBody place .endOfSource)
  | .rawHeredocOpener => some (.rawStringBody place (.delimiter (lexeme.drop 3).dropLast))
  | .basedStringOpener =>
    some (.basedStringBody place (.quotes (lexeme.drop 2))
      ((Radix.ofLead? lexeme).getD .decimal))
  | _ => none

/-- Ends the innermost block, if the closing token at `place` closes it. -/
def closeBlock (s : Scan) (kind : TokenKind) (place : Nat) (lexeme : Text) :
    Except (Failure LexError) Scan :=
  match s.top with
  | .blockBody opener _ =>
    let expected := expectedCloser ((s.tokens.get? opener).map (·.kind))
    if closes expected kind then .ok (s.leave opener place)
    else refuse (.mismatchedCloser (s.tokens.span opener) (s.tokens.span place) expected lexeme)
  | _ => fault .closerOutsideBlock

/-- Records a token and moves behind it. -/
def record (s : Scan) (kind : TokenKind) (lexeme : Text) : Scan :=
  let stop := s.offset + width lexeme
  { s with offset := stop, tokens := s.tokens.push kind ⟨s.offset, stop⟩ }

/-- **`take`** — records a token and does what its kind does: openers begin a context, closers end
one, and layout is searched for lone carriage returns. -/
def take (s : Scan) (kind : TokenKind) (lexeme : Text) : Except (Failure LexError) Scan :=
  let place := s.tokens.size
  let next := s.record kind lexeme
  match kind with
  | .blank => .ok { next with loneReturns := s.loneReturns ++ loneReturnsIn s.offset lexeme }
  | .rightBracket | .rightParen | .rightBrace => next.closeBlock kind place lexeme
  | .rightAngle | .stringCloser | .heredocCloser =>
    .ok (next.top.opener?.elim next (next.leave · place))
  | _ => .ok ((context? kind place lexeme).elim next next.enter)

/-! ## §3 Where no token can be taken -/

/-- Whether a chevron here follows one that closed a type-parameter block. -/
def isSecondChevron (s : Scan) (rest : Text) : Bool :=
  s.lastClosed.any (·.kind == .typeBody)
    && (s.tokens.last?.map (·.kind)) == some .rightAngle && rest.head? == some '>'

/-- Skips a run of control characters, which is an error, but not the last one. -/
def skip (s : Scan) (run : Text) : Scan :=
  { s with
    offset := s.offset + width run
    errors := s.errors ++ [.controlCharacters s.offset (width run)] }

/-- The error where several kinds match equally well. In a block whose base has letters for digits,
a number and a name have an error of their own. -/
def ambiguity (s : Scan) (rest : Text) (ms : List View.Match) : LexError :=
  let kinds := ms.map (·.kind)
  let sequence := rest.take (View.greatestLength ms)
  let base := s.top.digitBase
  if s.top.kind = .blockBody ∧ 10 < base.value ∧ kinds.length = 2 ∧ kinds.contains .number
      ∧ kinds.contains .name then
    .numberOrName s.offset sequence base
  else .severalTokens s.offset (width sequence) s.top.kind kinds

/-- **`step`** — takes one token from the text that is left, or skips one run of control
characters. Gives the state behind it and the number of characters taken. -/
def step (s : Scan) (config : LexerConfig) (rest : Text) :
    Except (Failure LexError) (Scan × Nat) := do
  let found ← ((s.view config rest).allMatches).mapError .refused
  match View.winners found with
  | [m] => return (← s.take m.kind (rest.take m.length), m.length)
  | [] =>
    if s.isSecondChevron rest then refuse (.shiftInTypeParam s.offset)
    else
      let run := Lexicon.controlLength rest
      if 0 < run then return (s.skip (rest.take run), run)
      else refuse (.noToken s.offset s.top.kind rest)
  | ms => refuse (s.ambiguity rest ms)

/-! ## §4 The end -/

/-- **`awaited`** — what an open context waits for. -/
def awaited (tokens : TokenList) (context : Context) : Closer :=
  match context with
  | .blockBody opener _ => expectedCloser ((tokens.get? opener).map (·.kind))
  | .typeBody _ => .chevron
  | _ => (context.ending?.bind Ending.text?).elim .quote .text

/-- The error of a context that is open at the end; there is none for the root. -/
def openError (s : Scan) (context : Context) : Option LexError :=
  context.opener?.map fun opener =>
    .unterminated context.kind (s.tokens.span opener) (awaited s.tokens context) s.offset

/-- The contexts that are open without leave: a rest-of-file string at the top level may stay
open. -/
def openContexts (s : Scan) : List Context :=
  match s.stack with
  | [context, bottom] => if context.ending? = some .endOfSource then [bottom] else s.stack
  | stack => stack

/-- **`finish`** — the result at the end of the source. Every open context is an error, innermost
first. -/
def finish (s : Scan) : Except (Failure (List LexError)) Tokenized :=
  match s.errors ++ s.openContexts.filterMap s.openError with
  | [] => .ok ⟨s.tokens, s.loneReturns⟩
  | errors => refuse errors

/-! ## §5 The scan -/

/-- **`run`** — scans the text that is left. Each step takes at least one character, so the text
gets shorter. -/
def run (config : LexerConfig) (s : Scan) : Text → Except (Failure (List LexError)) Tokenized
  | [] => s.finish
  | c :: t =>
    match s.step config (c :: t) with
    | .ok (next, taken) => run config next (t.drop (taken - 1))
    | .error (.refused e) => refuse (s.errors ++ [e])
    | .error (.broken f) => fault f
termination_by t => t.length
decreasing_by simp only [List.length_drop, List.length_cons]; omega

end Scan

/-- **`tokenize`** — the tokens of a text. -/
def tokenize (config : LexerConfig) (t : Text) : Except (Failure (List LexError)) Tokenized :=
  Scan.run config .start t

end DewyFront
