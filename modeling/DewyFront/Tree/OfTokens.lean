/-
# DewyFront.Tree.OfTokens — tokens to token trees

Paired delimiters become blocks that own what stands between them, strings become text or pieces,
names and symbols are told apart, and the tokens of a number become one literal. Layout stays, so
that it can still be seen which items touch.

* §1 lexemes: tokens with their text and their place;
* §2 names and symbols;
* §3 numbers;
* §4 strings;
* §5 items.
-/
import DewyFront.Failure
import DewyFront.LexError
import DewyFront.Token.List
import DewyFront.Tree

namespace DewyFront

/-! ## §1 Lexemes -/

/-- **`Lexeme`** — a token with its place in the list and its text. -/
structure Lexeme where
  place : Nat
  kind : TokenKind
  span : Span
  partner : Option Nat
  text : Text
deriving DecidableEq, Repr

/-- The tokens of a list with their texts. -/
def TokenList.lexemes (l : TokenList) (source : Text) : List Lexeme :=
  l.toList.zipIdx.map fun (t, i) => ⟨i, t.kind, t.span, t.partner, t.text source⟩

/-- **`Enclosed`** — what an opener encloses: the lexemes inside, the closer, and those behind. -/
structure Enclosed where
  inner : List Lexeme
  closer : Lexeme
  after : List Lexeme

namespace Lexeme

/-- Whether a lexeme begins where another ends. -/
def touches (l r : Lexeme) : Bool := l.span.stop == r.span.start

/-- Whether a lexeme is a dot. -/
def isDot (l : Lexeme) : Bool := l.kind == .symbol && l.text == ['.']

/-- **`enclosed?`** — what an opener encloses among the lexemes behind it. The closer of an opener
that is its own partner is the opener. -/
def enclosed? (l : Lexeme) (rest : List Lexeme) : Option Enclosed := do
  let partner ← l.partner
  let distance := partner - l.place
  let closer ← (l :: rest)[distance]?
  return ⟨rest.take (distance - 1), closer, rest.drop distance⟩

end Lexeme

theorem Lexeme.enclosed?_lengths {l : Lexeme} {rest : List Lexeme} {e : Enclosed}
    (h : l.enclosed? rest = some e) :
    e.inner.length ≤ rest.length ∧ e.after.length ≤ rest.length := by
  simp only [Lexeme.enclosed?, bind, Option.bind_eq_some_iff, pure, Option.some.injEq] at h
  obtain ⟨p, _, c, _, rfl⟩ := h
  simp only [List.length_take, List.length_drop]
  omega

/-! ## §2 Names and symbols -/

namespace Tree

/-- **`ofWord`** — a name is an operator or a keyword where it spells one, else an identifier. -/
def ofWord (l : Lexeme) : Tree :=
  match Symbol.ofWord? l.text, Keyword.ofWord? l.text with
  | some symbol, _ => .leaf (.operator (.symbol symbol)) l.span
  | none, some keyword => .leaf (.keyword keyword) l.span
  | none, none => .leaf (.atom (.identifier l.text)) l.span

/-- **`markLeaf?`** — the marks that are not operators: range marks, ellipses, backticks, semicolons
and the two symbols that are names. -/
def markLeaf? (t : Text) : Option Leaf :=
  if t = ['.', '.'] then some (.atom .rangeMark)
  else if t = ['.', '.', '.'] then some (.atom .ellipsis)
  else if t = ['\x60'] then some .backtick
  else if t = [';'] then some (.atom .semicolon)
  else if t = ['∞'] ∨ t = ['∅'] then some (.atom (.identifier t))
  else (Symbol.ofMarks? t).map fun s => .operator (.symbol s)

/-- A symbol token as an item. -/
def ofMarks (l : Lexeme) : Except (Failure LexError) Tree :=
  match markLeaf? l.text with
  | some found => .ok (.leaf found l.span)
  | none => fault .unknownSymbol

/-! ## §3 Numbers -/

/-- A text without separators. -/
def withoutSeparators (t : Text) : Text := t.filter (· != '_')

/-- **`integerLit`** — the digits of a number. Without a lead they are read in `base`. -/
def integerLit (base : Radix) (t : Text) : IntegerLit :=
  match Radix.ofLead? t with
  | some own => ⟨own, withoutSeparators (t.drop 2)⟩
  | none => ⟨base, withoutSeparators t⟩

/-- **`fraction?`** — the digits behind a whole number and a dot that touch each other, and what
stands behind them. A number that itself stands behind a dot has no fraction. -/
def fraction? (previous : Option Lexeme) (l : Lexeme) :
    List Lexeme → Option (Text × Span × List Lexeme)
  | dot :: digits :: rest =>
    if !(previous.any fun p => p.touches l && p.isDot) && dot.isDot && digits.kind == .number
        && l.touches dot && dot.touches digits then
      some (withoutSeparators digits.text, digits.span, rest)
    else none
  | _ => none

/-- **`exponent?`** — the exponent in front of some lexemes, and what stands behind it. -/
def exponent? (base : Radix) : List Lexeme → Option (Exponent × Span × List Lexeme)
  | l :: rest =>
    if l.kind == .exponent then
      some (⟨(l.text.headD 'e').toLower, integerLit base (l.text.drop 1)⟩, l.span, rest)
    else none
  | [] => none

/-- **`number`** — a number with the fraction and the exponent that belong to it, and the lexemes
behind. -/
def number (base : Radix) (previous : Option Lexeme) (l : Lexeme) (rest : List Lexeme) :
    Tree × List Lexeme :=
  let whole := integerLit base l.text
  let (fraction, span, rest) := match fraction? previous l rest with
    | some (digits, s, more) => (some digits, l.span.merge s, more)
    | none => (none, l.span, rest)
  let (exponent, span, rest) := match exponent? base rest with
    | some (e, s, more) => (some e, span.merge s, more)
    | none => (none, span, rest)
  let atom := if fraction.isNone ∧ exponent.isNone then Atom.integer whole
    else .real ⟨whole, fraction, exponent⟩
  (.leaf (.atom atom) span, rest)

theorem length_number_le (base : Radix) (previous : Option Lexeme) (l : Lexeme)
    (rest : List Lexeme) : (number base previous l rest).2.length ≤ rest.length := by
  have hf : ∀ {d s more}, fraction? previous l rest = some (d, s, more) →
      more.length ≤ rest.length := by
    intro d s more h
    unfold fraction? at h
    split at h
    · split at h
      · simp only [Option.some.injEq, Prod.mk.injEq] at h
        obtain ⟨_, _, rfl⟩ := h
        simp only [List.length_cons]; omega
      · cases h
    · cases h
  have he : ∀ {ls e s more}, exponent? base ls = some (e, s, more) →
      more.length ≤ ls.length := by
    intro ls e s more h
    unfold exponent? at h
    split at h
    · split at h
      · simp only [Option.some.injEq, Prod.mk.injEq] at h
        obtain ⟨_, _, rfl⟩ := h
        simp only [List.length_cons]; omega
      · cases h
    · cases h
  simp only [number]
  cases hfr : fraction? previous l rest with
  | none =>
    cases hex : exponent? base rest with
    | none => simp
    | some x => obtain ⟨e, s, more⟩ := x; simpa using he hex
  | some y =>
    obtain ⟨d, s, mid⟩ := y
    cases hex : exponent? base mid with
    | none => simpa [hex] using hf hfr
    | some x =>
      obtain ⟨e, s', more⟩ := x
      simpa [hex] using Nat.le_trans (he hex) (hf hfr)

/-! ## §4 Strings -/

/-- **`simpleEscape`** — the character that a backslash and a letter denote; other characters denote
themselves. -/
def simpleEscape : Char → Char
  | 'n' => '\n'
  | 'r' => '\r'
  | 't' => '\t'
  | 'b' => '\x08'
  | 'f' => '\x0c'
  | 'v' => '\x0b'
  | 'a' => '\x07'
  | '0' => '\x00'
  | c => c

/-- The value of digits in hexadecimal, which may have a plus sign in front. -/
def hexValue? (digits : Text) : Option Nat :=
  let digits := if digits.head? = some '+' then digits.drop 1 else digits
  if digits.isEmpty then none
  else digits.foldl (fun v c => do
    let v ← v
    let d ← Radix.digitValue? c
    if d < 16 then some (16 * v + d) else none) (some 0)

/-- The character of a code point, if it has one. -/
def scalar? (n : Nat) : Option Char := if n.isValidChar then some (Char.ofNat n) else none

/-- **`codePoint`** — the character that the digits of an escape denote. They begin at its third
byte. -/
def codePoint (l : Lexeme) : Except (Failure LexError) Char :=
  match dropBytes 2 l.text with
  | none => fault .splitCharacter
  | some digits =>
    match (hexValue? digits).bind scalar? with
    | some d => .ok d
    | none => refuse (.invalidCodePoint l.span digits)

/-- **`escapeText`** — the text that an escape denotes. A newline behind a backslash denotes
nothing. -/
def escapeText (l : Lexeme) : Except (Failure LexError) Text :=
  match l.text.drop 1 with
  | [] | '\n' :: _ => .ok []
  | c :: _ => if c = 'u' ∨ c = 'U' then do return [← codePoint l] else .ok [simpleEscape c]

/-- A piece for a text, unless it is empty. -/
def textPiece (t : Text) : List Piece := if t.isEmpty then [] else [.text t]

/-- **`joinTexts`** — puts neighbouring texts together: the text before the first hole, and what
comes from there on. -/
def joinTexts : List Piece → Text × List Piece
  | [] => ([], [])
  | piece :: pieces =>
    match piece, joinTexts pieces with
    | .text t, (lead, more) => (t ++ lead, more)
    | hole, (lead, more) => ([], hole :: textPiece lead ++ more)

/-- **`ofPieces`** — a string: a literal when it has no holes. -/
def ofPieces (pieces : List Piece) (span : Span) : Tree :=
  match joinTexts pieces with
  | (lead, []) => .leaf (.atom (.string lead)) span
  | (lead, holes) => .istring (textPiece lead ++ holes) span

/-- **`ofBasedString`** — the digits between the quotes of a based string, without layout and
separators. -/
def ofBasedString (l : Lexeme) (e : Enclosed) : Tree :=
  let base := (Radix.ofLead? l.text).getD .decimal
  let digits := (e.inner.filter (·.kind == .basedStringText)).flatMap (·.text)
  .leaf (.atom (.basedString base (withoutSeparators digits))) (l.span.merge e.closer.span)

/-! ## §5 Items -/

/-- The base that an opener gives to the digits of its block, if it gives one. -/
def blockBase? (l : Lexeme) : Option Radix :=
  match l.kind with
  | .basedBlockOpener => Radix.ofLead? l.text
  | .holeEscape => some .hexadecimal
  | _ => none

/-- The delimiters of a block: the last character of its opener and the first of its closer. -/
def blockKind (l closer : Lexeme) : Except (Failure LexError) Delimiters :=
  match Delimiters.ofPair? (l.text.getLastD '[') (closer.text.headD ']') with
  | some kind => .ok kind
  | none => fault .mismatchedPair

/-- **`StringBody`** — the lexemes of a string, its span, its closer, and the lexemes behind it. A
string without a closer takes everything there is. -/
structure StringBody where
  inner : List Lexeme
  span : Span
  closer : Option Lexeme
  after : List Lexeme

/-- What a string opener encloses. -/
def stringBody (l : Lexeme) (rest : List Lexeme) : StringBody :=
  match l.enclosed? rest with
  | some e => ⟨e.inner, l.span.merge e.closer.span, some e.closer, e.after⟩
  | none => ⟨rest, l.span.merge (rest.getLast?.elim l.span (·.span)), none, []⟩

theorem stringBody_lengths (l : Lexeme) (rest : List Lexeme) :
    (stringBody l rest).inner.length ≤ rest.length ∧
    (stringBody l rest).after.length ≤ rest.length := by
  unfold stringBody
  split
  · next e h => exact Lexeme.enclosed?_lengths h
  · simp

mutual
/-- **`ofLexemes`** — the items of some lexemes. Digits without a lead are read in `base`;
`previous` is the lexeme in front. -/
def ofLexemes (base : Radix) (previous : Option Lexeme) :
    List Lexeme → Except (Failure LexError) (List Tree)
  | [] => .ok []
  | l :: rest =>
    match l.kind with
    | .blank | .lineComment | .blockComment => do
      return .leaf .trivia l.span :: (← ofLexemes base (some l) rest)
    | .name => do return ofWord l :: (← ofLexemes base (some l) rest)
    | .symbol | .shift => do
      let tree ← ofMarks l
      return tree :: (← ofLexemes base (some l) rest)
    | .hashtag => do
      return .leaf (.atom (.hashtag (l.text.drop 1))) l.span :: (← ofLexemes base (some l) rest)
    | .number =>
      have := length_number_le base previous l rest
      do return (number base previous l rest).1 ::
        (← ofLexemes base none (number base previous l rest).2)
    | .leftBracket | .leftParen | .leftBrace | .leftAngle | .basedBlockOpener =>
      match h : l.enclosed? rest with
      | none => fault .unpairedOpener
      | some e =>
        have := Lexeme.enclosed?_lengths h
        do
          let kind ← blockKind l e.closer
          let inner ← ofLexemes ((blockBase? l).getD .decimal) (some l) e.inner
          return .block kind (blockBase? l) inner (l.span.merge e.closer.span) ::
            (← ofLexemes base (some e.closer) e.after)
    | .stringOpener | .rawStringOpener | .restOfFileOpener | .rawRestOfFileOpener
    | .heredocOpener | .rawHeredocOpener =>
      have := stringBody_lengths l rest
      do
        let pieces ← piecesOf (stringBody l rest).inner
        return ofPieces pieces (stringBody l rest).span ::
          (← ofLexemes base (stringBody l rest).closer (stringBody l rest).after)
    | .basedStringOpener =>
      match h : l.enclosed? rest with
      | none => fault .unpairedOpener
      | some e =>
        have := Lexeme.enclosed?_lengths h
        do return ofBasedString l e :: (← ofLexemes base (some e.closer) e.after)
    | _ => fault .tokenOutOfPlace
termination_by ls => ls.length
decreasing_by all_goals simp only [List.length_cons]; omega
/-- **`piecesOf`** — the pieces of a string: its texts and escapes one by one, and its holes. -/
def piecesOf : List Lexeme → Except (Failure LexError) (List Piece)
  | [] => .ok []
  | l :: rest =>
    match l.kind with
    | .stringText | .rawStringText => do return .text l.text :: (← piecesOf rest)
    | .stringEscape => do
      let t ← escapeText l
      return .text t :: (← piecesOf rest)
    | .leftBrace | .holeEscape =>
      match h : l.enclosed? rest with
      | none => fault .unpairedOpener
      | some e =>
        have := Lexeme.enclosed?_lengths h
        do
          let kind ← blockKind l e.closer
          let inner ← ofLexemes ((blockBase? l).getD .decimal) (some l) e.inner
          let hole := if l.kind = .holeEscape then Piece.escape kind (blockBase? l) inner
            else Piece.block kind (blockBase? l) inner
          return hole :: (← piecesOf e.after)
    | _ => fault .tokenOutOfPlace
termination_by ls => ls.length
decreasing_by all_goals simp only [List.length_cons]; omega
end

end Tree

/-- **`TokenList.trees`** — the items of a token list. -/
def TokenList.trees (l : TokenList) (source : Text) : Except (Failure LexError) (List Tree) :=
  Tree.ofLexemes .decimal none (l.lexemes source)

end DewyFront
