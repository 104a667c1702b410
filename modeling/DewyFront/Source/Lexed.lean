/-
# DewyFront.Source.Lexed — the tokens and items of a source

* §1 why a source is refused, and what is said about it;
* §2 what lexing gives;
* §3 lexing.
-/
import DewyFront.ParseError
import DewyFront.Source
import DewyFront.Token.Scan
import DewyFront.Tree.OfTokens

namespace DewyFront

/-! ## §1 Refusals -/

/-- **`Refusal`** — every cause that was found to refuse a source, all of one stage. -/
inductive Refusal where
  | lexical (causes : List LexError)
  | grammatical (causes : List ParseError)
deriving DecidableEq, Repr

/-- What is said about each cause, under the name of the source. -/
def Refusal.diagnostics (name : Option String) : Refusal → List Diagnostic
  | lexical causes => causes.map (·.diagnostic.attach name)
  | grammatical causes => causes.map (·.diagnostic.attach name)

/-- The warnings about lone carriage returns at some offsets, under the name of the source. -/
def loneReturnWarnings (name : Option String) (offsets : List Nat) : List Diagnostic :=
  offsets.map fun offset => (loneReturnWarning offset).attach name

/-! ## §2 The result -/

/-- **`Lexed`** — the tokens of a source, the items they form, and the offsets of lone carriage
returns. -/
structure Lexed where
  tokens : TokenList
  trees : List Tree
  loneReturns : List Nat

/-! ## §3 Lexing -/

namespace Source

/-- **`encodingIssues`** — what rules a source out before it is scanned: a byte order mark at its
start, and a size that spans cannot reach. -/
def encodingIssues (s : Source) : List LexError :=
  (if s.hasByteOrderMark then [.byteOrderMark byteOrderMarkSize] else []) ++
    if s.isOversized then [.oversized] else []

/-- **`lex`** — lexes a source, unless its encoding rules it out. -/
def lex (config : LexerConfig) (s : Source) : Except (Failure Refusal) Lexed :=
  match s.encodingIssues with
  | [] => do
    let out ← (tokenize config s.text).mapError (.map .lexical)
    let trees ← (out.tokens.trees s.text).mapError (.map fun cause => .lexical [cause])
    return ⟨out.tokens, trees, out.loneReturns⟩
  | issues => refuse (.lexical issues)

end Source

end DewyFront
