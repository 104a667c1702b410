/-
# DewyFront.Chain.Grouping — settled items to chains

A chain is made of chunks with binary operators between them, and may end with a semicolon; a chunk
is an operand with operators in front of it and behind it. A chain goes on as long as it can, so
`a b` are two chains and `a + b` is one. A keyword takes the chains that belong to it, and what it
takes is one operand.

* §1 words: items whose insides are grouped;
* §2 the place in a list of words;
* §3 operators in front and behind;
* §4 chains, chunks and operands;
* §5 lists of words, and items to words.
-/
import DewyFront.Chain
import DewyFront.Failure
import DewyFront.ParseError
import DewyFront.Precedence
import DewyFront.Tree

namespace DewyFront
namespace Chain

/-- The outcome of grouping. -/
abbrev Grouped := Except (Failure ParseError)

/-! ## §1 Words -/

/-- **`Word`** — a settled item as grouping sees it. What is inside an operand is grouped already; a
refusal there counts once the operand is reached. -/
inductive Word where
  | operator (op : Op) (span : Span)
  | operand (content : Grouped Operand) (span : Span)
  | semicolon (span : Span)
  | keyword (keyword : Keyword) (span : Span)
  | closingElse (span : Span)
  /-- An item that settling leaves none of. -/
  | unsettled (span : Span)

/-- Where a word stands. -/
def Word.span : Word → Span
  | operator _ s | operand _ s | semicolon s | keyword _ s | closingElse s | unsettled s => s

/-- Whether a word is an `else`. -/
def Word.isElse : Word → Bool
  | keyword .elseWord _ | closingElse _ => true
  | _ => false

/-! ## §2 The place -/

/-- **`Cursor`** — the words that are left, and where the last one taken ends. -/
structure Cursor where
  words : List Word
  stop : Span

namespace Cursor

/-- The place behind a word. -/
def behind (word : Word) (rest : List Word) : Cursor := ⟨rest, word.span.endPoint⟩

/-- **`atEnd`** — whether nothing more can belong to the chain. -/
def atEnd (c : Cursor) : Bool :=
  match c.words with
  | [] | .semicolon _ :: _ => true
  | word :: _ => word.isElse

end Cursor

/-! ## §3 Operators around an operand -/

/-- **`takeOperators`** — the operators at the front that satisfy `p`, and the place behind them. -/
def takeOperators (p : Op → Bool) (stop : Span) : List Word → List Operator × Cursor
  | .operator op span :: rest =>
    if p op then
      let (more, c) := takeOperators p span.endPoint rest
      (⟨op, span⟩ :: more, c)
    else ([], ⟨.operator op span :: rest, stop⟩)
  | words => ([], ⟨words, stop⟩)

/-- Whether an operator can only stand behind its operand. -/
def isOnlyAfter (op : Op) : Bool := op.isAfter && !op.isBinary

/-- The refusal where an operand should follow but nothing does: it names the operator in front, if
there is one. -/
def missingChunk (last : Option Operator) (c : Cursor) : ParseError :=
  last.elim (.expectedExpression c.stop) .operatorWithoutOperand

/-- The links of a semicolon: it is joined to its expression by a juxtaposition of its own. -/
def semicolonLinks (span : Span) : Chain :=
  [.operator ⟨.bond .semicolon, .point span.start⟩, .operand (.atom .semicolon) span]

/-- A semicolon, if one is next. -/
def takeSemicolon (c : Cursor) : Chain × Cursor :=
  match c.words with
  | .semicolon span :: rest => (semicolonLinks span, ⟨rest, span.endPoint⟩)
  | _ => ([], c)

/-! ## §4 Chains -/

mutual
/-- **`group`** — one chain. An operator that is all there is stands for itself as a value. The
number bounds the depth of calls. -/
def group : Nat → Cursor → Grouped (Chain × Cursor)
  | 0, _ => fault .stalledGrouping
  | n + 1, c =>
    match c.words with
    | [.operator op span] => .ok ([.operand (.atom (.operator op)) span], ⟨[], span.endPoint⟩)
    | _ => do
      let (first, c) ← chunk n none c
      let (more, c) ← chunks n c
      let (last, c) := takeSemicolon c
      return (first ++ more ++ last, c)
/-- **`chunks`** — binary operators, each with the chunk behind it. -/
def chunks : Nat → Cursor → Grouped (Chain × Cursor)
  | 0, _ => fault .stalledGrouping
  | n + 1, c =>
    match c.words with
    | .operator op span :: rest =>
      if op.isBinary then
        let operator : Operator := ⟨op, span⟩
        let c : Cursor := ⟨rest, span.endPoint⟩
        if c.atEnd then refuse (.missingOperand operator)
        else do
          let (next, c) ← chunk n (some operator) c
          let (more, c) ← chunks n c
          return (.operator operator :: next ++ more, c)
      else .ok ([], c)
    | _ => .ok ([], c)
/-- **`chunk`** — an operand with the operators around it; `last` is the operator before it. -/
def chunk : Nat → Option Operator → Cursor → Grouped (Chain × Cursor)
  | 0, _, _ => fault .stalledGrouping
  | n + 1, last, c =>
    let (before, c) := takeOperators Op.isBefore c.stop c.words
    match c.words with
    | [] => refuse (missingChunk (before.getLast? <|> last) c)
    | word :: rest => do
      let (content, span, c) ← operand n word (.behind word rest)
      let (after, c) := takeOperators isOnlyAfter c.stop c.words
      return (before.map .operator ++ .operand content span :: after.map .operator, c)
/-- **`operand`** — the operand that a word is, or that a keyword begins. The cursor stands behind
the word. -/
def operand : Nat → Word → Cursor → Grouped (Operand × Span × Cursor)
  | 0, _, _ => fault .stalledGrouping
  | n + 1, word, c =>
    match word with
    | .operand content span => do return (← content, span, c)
    | .semicolon span => refuse (.expectedExpression span)
    | .operator op span => refuse (.operatorWithoutOperand ⟨op, span⟩)
    | .closingElse span => refuse (.elseWithoutFlow span)
    | .unsettled _ => fault .unsettledItem
    | .keyword k span =>
      if k = .elseWord then refuse (.elseWithoutFlow span)
      else if k.isFlow then do
        let (arm, c) ← arm n k span c
        let (arms, otherwise, c) ← arms n c
        return (.flow (arm :: arms) otherwise, span.merge c.stop, c)
      else if k.isDeclaration then
        if c.atEnd then refuse (.expectedExpression span.endPoint)
        else do
          let (target, c) ← group n c
          return (.declare k target, span.merge c.stop, c)
      else if c.atEnd then .ok (.keyword k none, span.merge c.stop, c)
      else do
        let (target, c) ← group n c
        return (.keyword k (some target), span.merge c.stop, c)
/-- **`arm`** — the condition and the clause of a flow keyword. -/
def arm : Nat → Keyword → Span → Cursor → Grouped (Arm × Cursor)
  | 0, _, _, _ => fault .stalledGrouping
  | n + 1, k, span, c =>
    if c.atEnd then refuse (.incompleteFlow k span .condition)
    else do
      let (condition, c) ← group n c
      if c.atEnd then refuse (.incompleteFlow k span .clause)
      else do
        let (clause, c) ← group n c
        return (.mk k condition clause, c)
/-- **`arms`** — what follows the first arm of a flow expression: further arms, each behind an
`else`, and what stands behind a last `else`. -/
def arms : Nat → Cursor → Grouped (List Arm × Option Chain × Cursor)
  | 0, _ => fault .stalledGrouping
  | n + 1, c =>
    match c.words with
    | .keyword .elseWord elseSpan :: .keyword k span :: rest =>
      if k.isFlow then do
        let (arm, c) ← arm n k span ⟨rest, span.endPoint⟩
        let (arms, otherwise, c) ← arms n c
        return (arm :: arms, otherwise, c)
      else closing n ⟨.keyword k span :: rest, elseSpan.endPoint⟩
    | .keyword .elseWord span :: rest => closing n ⟨rest, span.endPoint⟩
    | .closingElse span :: rest => closing n ⟨rest, span.endPoint⟩
    | _ => .ok ([], none, c)
/-- **`closing`** — what stands behind the last `else` of a flow expression. -/
def closing : Nat → Cursor → Grouped (List Arm × Option Chain × Cursor)
  | 0, _ => fault .stalledGrouping
  | n + 1, c =>
    if c.atEnd then refuse (.expectedExpression c.stop)
    else do
      let (otherwise, c) ← group n c
      return ([], some otherwise, c)
end

/-! ## §5 Lists of items -/

/-- The chains that are left. -/
def groupFrom (depth : Nat) : Nat → Cursor → Grouped (List Chain)
  | 0, c => if c.words.isEmpty then .ok [] else fault .stalledGrouping
  | n + 1, c =>
    if c.words.isEmpty then .ok []
    else do
      let (chain, c) ← group depth c
      return chain :: (← groupFrom depth n c)

/-- **`ofWords`** — the chains of a list of words. Every chain takes a word, and between two words
the calls are at most four deep. -/
def ofWords (words : List Word) : Grouped (List Chain) :=
  let start := words.head?.elim Span.nowhere fun w => .point w.span.start
  groupFrom (4 * words.length + 4) words.length ⟨words, start⟩

/-- From the first item through the last. -/
def innerSpan (items : List Tree) (fallback : Span) : Span :=
  match items.head?, items.getLast? with
  | some first, some last => first.span.merge last.span
  | _, _ => fallback

/-- The word of an item without items inside. -/
def leafWord (l : Leaf) (span : Span) : Word :=
  match l with
  | .atom .semicolon => .semicolon span
  | .atom a => .operand (.ok (.atom a)) span
  | .operator op => .operator op span
  | .keyword k => .keyword k span
  | .closingElse => .closingElse span
  | .trivia | .backtick | .marker _ => .unsettled span

mutual
/-- **`wordOf`** — an item as a word; the lists inside are grouped. -/
def wordOf : Tree → Word
  | .leaf l span => leafWord l span
  | .block kind base inner span =>
    .operand ((ofWords (wordsOf inner)).map (.block kind base)) span
  | .istring pieces span => .operand ((piecesOf span pieces).map .istring) span
/-- Items as words. -/
def wordsOf : List Tree → List Word
  | [] => []
  | item :: rest => wordOf item :: wordsOf rest
/-- The pieces of a string that stands at `span`. A hole stands where its items do. -/
def piecesOf (span : Span) : List Tree.Piece → Grouped (List Piece)
  | [] => .ok []
  | .text t :: rest => do return .text t :: (← piecesOf span rest)
  | .block kind base inner :: rest => do
    let chains ← ofWords (wordsOf inner)
    return .hole (.block kind base chains) (innerSpan inner span) :: (← piecesOf span rest)
  | .escape _ _ inner :: rest => do
    let chains ← ofWords (wordsOf inner)
    return .hole (.escape chains) (innerSpan inner span) :: (← piecesOf span rest)
end

/-- **`ofTrees`** — the chains of settled items. -/
def ofTrees (items : List Tree) : Grouped (List Chain) := ofWords (wordsOf items)

end Chain
end DewyFront
