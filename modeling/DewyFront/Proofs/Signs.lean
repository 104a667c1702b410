/-
# DewyFront.Proofs.Signs — what items and chains are written with

A sign is what stands in a source and is no layout: a literal or a name, a symbol, a keyword, the two
ends of a block or of a string. Items are read off in the order they stand in, and so are the links of
a chain; an operator that was made of others is read as its parts, and a juxtaposition as nothing.

* §1 signs;
* §2 operators;
* §3 items;
* §4 chains;
* §5 words.
-/
import DewyFront.Chain.Grouping

namespace DewyFront

/-! ## §1 Signs -/

/-- **`Sign`** — a part of a source that is no layout. -/
inductive Sign where
  | atom (atom : Atom) (span : Span)
  | symbol (symbol : Symbol)
  | backtick
  | keyword (keyword : Keyword)
  /-- The opener of a block that stands at `span`. -/
  | block (kind : Delimiters) (base : Option Radix) (span : Span)
  /-- The opener of a string with holes that stands at `span`. -/
  | istring (span : Span)
  /-- A piece of a string that is no hole. -/
  | text (text : Text)
  /-- The opener of a hole for a value. -/
  | hole (kind : Delimiters) (base : Option Radix)
  /-- The opener of a hole for code points. -/
  | escape
  /-- The end of what was opened last. -/
  | closing
deriving DecidableEq, Repr

/-- **`isWritten`** — whether a sign takes bytes; only a bound that a range lacks takes none. -/
def Sign.isWritten : Sign → Bool
  | atom a span => !(a == .undefined && span.isEmpty)
  | _ => true

/-! ## §2 Operators -/

mutual
/-- **`Op.signs`** — the signs of an operator: those of its parts, and none for a juxtaposition. -/
def Op.signs : Op → List Sign
  | .symbol s => [.symbol s]
  | .backtick _ => [.backtick]
  | .juxtapose _ | .bond _ => []
  | .inverted comparison => [.symbol .wordNot, .symbol comparison]
  | .chain head tail => .symbol head :: Op.signsAll tail
  | .broadcast inner => .symbol .dot :: Op.signs inner
  | .assign inner => Op.signs inner ++ [.symbol .assign]
/-- The signs of some operators. -/
def Op.signsAll : List Op → List Sign
  | [] => []
  | op :: ops => Op.signs op ++ Op.signsAll ops
end

@[simp] theorem Op.signsAll_eq_flatMap (ops : List Op) : Op.signsAll ops = ops.flatMap Op.signs := by
  induction ops with
  | nil => rfl
  | cons op ops ih => rw [Op.signsAll, ih, List.flatMap_cons]

mutual
/-- An operator is written with symbols and backticks. -/
theorem Op.eq_of_mem_signs : ∀ {op : Op} {sign : Sign}, sign ∈ op.signs →
    (∃ s, sign = .symbol s) ∨ sign = .backtick
  | .symbol s, sign, h => by
    rw [Op.signs] at h
    exact .inl ⟨s, List.mem_singleton.mp h⟩
  | .backtick side, sign, h => by
    rw [Op.signs] at h
    exact .inr (List.mem_singleton.mp h)
  | .juxtapose m, sign, h | .bond b, sign, h => by
    rw [Op.signs] at h
    cases h
  | .inverted comparison, sign, h => by
    rw [Op.signs] at h
    rcases List.mem_cons.mp h with rfl | h
    · exact .inl ⟨.wordNot, rfl⟩
    · exact .inl ⟨comparison, List.mem_singleton.mp h⟩
  | .chain head tail, sign, h => by
    rw [Op.signs] at h
    rcases List.mem_cons.mp h with rfl | h
    · exact .inl ⟨head, rfl⟩
    · exact Op.eq_of_mem_signsAll h
  | .broadcast inner, sign, h => by
    rw [Op.signs] at h
    rcases List.mem_cons.mp h with rfl | h
    · exact .inl ⟨.dot, rfl⟩
    · exact Op.eq_of_mem_signs h
  | .assign inner, sign, h => by
    rw [Op.signs] at h
    rcases List.mem_append.mp h with h | h
    · exact Op.eq_of_mem_signs h
    · exact .inl ⟨.assign, List.mem_singleton.mp h⟩
theorem Op.eq_of_mem_signsAll : ∀ {ops : List Op} {sign : Sign}, sign ∈ Op.signsAll ops →
    (∃ s, sign = .symbol s) ∨ sign = .backtick
  | [], sign, h => by
    rw [Op.signsAll] at h
    cases h
  | op :: ops, sign, h => by
    rw [Op.signsAll] at h
    rcases List.mem_append.mp h with h | h
    · exact Op.eq_of_mem_signs h
    · exact Op.eq_of_mem_signsAll h
end

/-- Everything in an operator is written. -/
theorem Op.isWritten_of_mem {op : Op} {sign : Sign} (h : sign ∈ op.signs) : sign.isWritten = true := by
  rcases Op.eq_of_mem_signs h with ⟨s, rfl⟩ | rfl <;> rfl

/-! ## §3 Items -/

namespace Tree

/-- The signs of an item without items inside. -/
def leafSigns (span : Span) : Leaf → List Sign
  | .trivia | .marker _ => []
  | .atom (.operator op) => op.signs
  | .atom a => [.atom a span]
  | .backtick => [.backtick]
  | .operator op => op.signs
  | .keyword k => [.keyword k]
  | .closingElse => [.keyword .elseWord]

mutual
/-- **`signs`** — the signs of an item, in order. -/
def signs : Tree → List Sign
  | .leaf l span => leafSigns span l
  | .block kind base inner span => .block kind base span :: (signsAll inner ++ [.closing])
  | .istring pieces span => .istring span :: (pieceSigns pieces ++ [.closing])
/-- The signs of some items. -/
def signsAll : List Tree → List Sign
  | [] => []
  | item :: rest => signs item ++ signsAll rest
/-- The signs of the pieces of a string. -/
def pieceSigns : List Piece → List Sign
  | [] => []
  | .text t :: rest => .text t :: pieceSigns rest
  | .block kind base inner :: rest =>
    .hole kind base :: (signsAll inner ++ .closing :: pieceSigns rest)
  | .escape _ _ inner :: rest => .escape :: (signsAll inner ++ .closing :: pieceSigns rest)
end

theorem signsAll_append (front back : List Tree) :
    signsAll (front ++ back) = signsAll front ++ signsAll back := by
  induction front with
  | nil => rfl
  | cons item front ih => rw [List.cons_append, signsAll, signsAll, ih, List.append_assoc]

end Tree

/-! ## §4 Chains -/

namespace Chain

/-- The signs of an operand without chains inside; `read` says how an operator is read. -/
def atomSigns (read : Op → List Sign) (span : Span) : Atom → List Sign
  | .operator op => read op
  | a => [.atom a span]

mutual
/-- **`signs`** — the signs of a chain, in order; `read` says how an operator is read. -/
def signs (read : Op → List Sign) : List Link → List Sign
  | [] => []
  | .operator o :: rest => read o.op ++ signs read rest
  | .operand content span :: rest => operandSigns read span content ++ signs read rest
/-- The signs of an operand that stands at `span`. -/
def operandSigns (read : Op → List Sign) (span : Span) : Operand → List Sign
  | .atom a => atomSigns read span a
  | .block kind base inner => .block kind base span :: (signsAll read inner ++ [.closing])
  | .escape inner => .escape :: (signsAll read inner ++ [.closing])
  | .istring pieces => .istring span :: (pieceSigns read pieces ++ [.closing])
  | .flow arms none => armSigns read [] arms
  | .flow arms (some otherwise) =>
    armSigns read [] arms ++ .keyword .elseWord :: signs read otherwise
  | .declare k target => .keyword k :: signs read target
  | .keyword k none => [.keyword k]
  | .keyword k (some operand) => .keyword k :: signs read operand
/-- The signs of some chains. -/
def signsAll (read : Op → List Sign) : List (List Link) → List Sign
  | [] => []
  | chain :: chains => signs read chain ++ signsAll read chains
/-- The signs of the pieces of a string. A hole stands where what is inside does. -/
def pieceSigns (read : Op → List Sign) : List Piece → List Sign
  | [] => []
  | .text t :: rest => .text t :: pieceSigns read rest
  | .hole (.block kind base inner) _ :: rest =>
    .hole kind base :: (signsAll read inner ++ .closing :: pieceSigns read rest)
  | .hole content span :: rest => operandSigns read span content ++ pieceSigns read rest
/-- The signs of some arms: `lead` stands in front of the first, and an `else` of every other. -/
def armSigns (read : Op → List Sign) (lead : List Sign) : List Arm → List Sign
  | [] => []
  | .mk k condition clause :: rest =>
    lead ++ .keyword k :: (signs read condition ++ (signs read clause ++
      armSigns read [.keyword .elseWord] rest))
end

/-- The signs of what stands behind a last `else`. -/
def otherwiseSigns (read : Op → List Sign) : Option Chain → List Sign
  | none => []
  | some chain => .keyword .elseWord :: signs read chain

variable {read : Op → List Sign}

theorem operandSigns_flow (span : Span) (arms : List Arm) (otherwise : Option Chain) :
    operandSigns read span (.flow arms otherwise) =
      armSigns read [] arms ++ otherwiseSigns read otherwise := by
  cases otherwise with
  | none => rw [operandSigns, otherwiseSigns, List.append_nil]
  | some chain => rw [operandSigns, otherwiseSigns]

theorem signs_append (front back : Chain) :
    signs read (front ++ back) = signs read front ++ signs read back := by
  induction front with
  | nil => simp [signs]
  | cons link front ih =>
    cases link with
    | operator o => rw [List.cons_append, signs, signs, ih, List.append_assoc]
    | operand content span => rw [List.cons_append, signs, signs, ih, List.append_assoc]

theorem signs_operators (os : List Operator) :
    signs read (os.map .operator) = os.flatMap fun o => read o.op := by
  induction os with
  | nil => simp [signs]
  | cons o os ih => rw [List.map_cons, signs, ih, List.flatMap_cons]

/-! ## §5 Words -/

/-- **`Word.signs`** — the signs of a word. A semicolon is read with the juxtaposition that joins it to
its expression. -/
def Word.signs (read : Op → List Sign) : Word → List Sign
  | .operator op _ => read op
  | .operand (.ok content) span => operandSigns read span content
  | .operand (.error _) _ | .unsettled _ => []
  | .semicolon span => read (.bond .semicolon) ++ [.atom .semicolon span]
  | .keyword k _ => [.keyword k]
  | .closingElse _ => [.keyword .elseWord]

end Chain

end DewyFront
