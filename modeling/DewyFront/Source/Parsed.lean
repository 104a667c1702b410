/-
# DewyFront.Source.Parsed — the expressions of a source

A refusal by the lexer, by settling or by grouping ends the work. The chains that grouping gives do
not depend on each other, and all that is wrong with any of them is found.

* §1 the chains of a source;
* §2 the expressions of some chains;
* §3 parsing.
-/
import DewyFront.Chain.Grouping
import DewyFront.Expr.OfChain
import DewyFront.Source.Lexed
import DewyFront.Tree.Settled

namespace DewyFront

/-! ## §1 Chains -/

/-- A cause as the only one to refuse a source. -/
def onlyGrammatical {α : Type} (outcome : Except (Failure ParseError) α) :
    Except (Failure Refusal) α :=
  outcome.mapError (.map fun cause => .grammatical [cause])

/-- **`Lexed.settled`** — the settled items of a source. -/
def Lexed.settled (l : Lexed) : Except (Failure Refusal) (List Tree) :=
  onlyGrammatical (Tree.settle l.trees)

/-- **`Lexed.chains`** — the chains of a source. -/
def Lexed.chains (l : Lexed) : Except (Failure Refusal) (List Chain) := do
  onlyGrammatical (Chain.ofTrees (← l.settled))

/-! ## §2 Expressions -/

/-- Puts the outcome of one chain in front of that of the others. -/
def combine {ε α : Type} :
    Except (Failure ε) α → Except (Failure (List ε)) (List α) → Except (Failure (List ε)) (List α)
  | .error (.broken f), _ => fault f
  | .error (.refused _), .error (.broken f) => fault f
  | .error (.refused cause), .error (.refused causes) => refuse (cause :: causes)
  | .error (.refused cause), .ok _ => refuse [cause]
  | .ok _, .error failure => .error failure
  | .ok a, .ok as => .ok (a :: as)

/-- **`Expr.ofAll`** — the expressions of some chains, or the causes to refuse every chain that is
refused. -/
def Expr.ofAll (config : ParseConfig) :
    List Chain → Except (Failure (List ParseError)) (List Expr)
  | [] => .ok []
  | chain :: chains => combine (Expr.ofChain config chain) (Expr.ofAll config chains)

/-! ## §3 Parsing -/

/-- **`Parsed`** — the expressions of a source, and the offsets of lone carriage returns. -/
structure Parsed where
  items : List Expr
  loneReturns : List Nat

/-- **`Source.parse`** — parses a source. -/
def Source.parse (config : ParseConfig) (s : Source) : Except (Failure Refusal) Parsed := do
  let lexed ← s.lex config.lexer
  let chains ← lexed.chains
  let items ← (Expr.ofAll config chains).mapError (.map .grammatical)
  return ⟨items, lexed.loneReturns⟩

end DewyFront
