/-
# DewyFront.Operator — everything that stands between, before or after operands

Beside the spelled symbols there are operators that nobody writes: the juxtapositions, which stand
where two operands touch, and the compound operators, which adjacent operators are folded into.

* §1 juxtapositions and backticks;
* §2 `Op`, all operators, with decidable equality;
* §3 how operators are shown;
* §4 occurrences in source.
-/
import DewyFront.Span
import DewyFront.Symbol

namespace DewyFront

/-! ## §1 Juxtapositions -/

/-- **`Meanings`** — what a plain juxtaposition may still turn out to mean. Calling and indexing
bind at one level, multiplying at a lower one. -/
structure Meanings where
  call : Bool
  index : Bool
  multiply : Bool
deriving DecidableEq, Repr

namespace Meanings

/-- The names of the meanings that are left: call, index, multiply. -/
def names (m : Meanings) : List String :=
  (if m.call then ["CallJuxtapose"] else []) ++
  (if m.index then ["IndexJuxtapose"] else []) ++
  (if m.multiply then ["MultiplyJuxtapose"] else [])

/-- The meanings of the upper level: call and index. -/
def upper (m : Meanings) : Meanings := ⟨m.call, m.index, false⟩

/-- The meanings of the lower level: multiply. -/
def lower (m : Meanings) : Meanings := ⟨false, false, m.multiply⟩

/-- Whether the upper level has a meaning left. -/
def hasUpper (m : Meanings) : Bool := m.call || m.index

/-- Whether the lower level has a meaning left. -/
def hasLower (m : Meanings) : Bool := m.multiply

/-- **`label`** — one meaning is named alone; any other number of them is listed. -/
def label (m : Meanings) : String :=
  match m.names with
  | [name] => name
  | names => "QJuxtapose(" ++ ", ".intercalate names ++ ")"

end Meanings

/-- **`Bond`** — juxtapositions whose meaning is fixed by what they join: a bound to `..`, an
operand to `...`, a `<...>` block to what takes it as parameters, and an expression to its `;`. -/
inductive Bond where
  | range | ellipsis | typeParam | semicolon
deriving DecidableEq, Repr

/-- The name of a bond. -/
def Bond.label : Bond → String
  | range => "RangeJuxtapose"
  | ellipsis => "EllipsisJuxtapose"
  | typeParam => "TypeParamJuxtapose"
  | semicolon => "SemicolonJuxtapose"

/-- **`Side`** — where a unary operator stands. -/
inductive Side where
  /-- The operator stands in front of its operand. -/
  | before
  /-- The operator stands behind its operand. -/
  | after
deriving DecidableEq, Repr

/-! ## §2 Operators -/

/-- **`Op`** — every operator of an expression. -/
inductive Op where
  | symbol (symbol : Symbol)
  /-- A backtick that stands before or after its operand. -/
  | backtick (side : Side)
  /-- A plain juxtaposition with the meanings it may still have. -/
  | juxtapose (meanings : Meanings)
  | bond (bond : Bond)
  /-- A comparison inverted by a leading `not`. -/
  | inverted (comparison : Symbol)
  /-- A binary operator followed by operators on its right operand, as in `a *-b`. -/
  | chain (head : Symbol) (tail : List Op)
  /-- A binary operator applied element by element, as in `a .+ b`. -/
  | broadcast (inner : Op)
  /-- An operator fused with `=`, as in `a += b`. -/
  | assign (inner : Op)
deriving Repr

namespace Op

mutual
/-- Decides whether two operators are the same. -/
def same : Op → Op → Bool
  | .symbol s, .symbol t => s == t
  | .backtick s, .backtick t => s == t
  | .juxtapose m, .juxtapose n => m == n
  | .bond b, .bond c => b == c
  | .inverted s, .inverted t => s == t
  | .chain s xs, .chain t ys => s == t && sameAll xs ys
  | .broadcast x, .broadcast y => same x y
  | .assign x, .assign y => same x y
  | _, _ => false
/-- Decides whether two lists of operators are the same. -/
def sameAll : List Op → List Op → Bool
  | [], [] => true
  | x :: xs, y :: ys => same x y && sameAll xs ys
  | _, _ => false
end

mutual
theorem same_iff : ∀ a b : Op, same a b = true ↔ a = b
  | .symbol _, b => by cases b <;> simp [same]
  | .backtick _, b => by cases b <;> simp [same]
  | .juxtapose _, b => by cases b <;> simp [same]
  | .bond _, b => by cases b <;> simp [same]
  | .inverted _, b => by cases b <;> simp [same]
  | .chain _ xs, b => by cases b <;> simp [same, sameAll_iff xs]
  | .broadcast x, b => by cases b <;> simp [same, same_iff x]
  | .assign x, b => by cases b <;> simp [same, same_iff x]
theorem sameAll_iff : ∀ xs ys : List Op, sameAll xs ys = true ↔ xs = ys
  | [], ys => by cases ys <;> simp [sameAll]
  | x :: xs, ys => by cases ys <;> simp [sameAll, same_iff x, sameAll_iff xs]
end

instance : DecidableEq Op := fun a b => decidable_of_iff _ (same_iff a b)

/-! ## §3 How operators are shown -/

mutual
/-- **`spelled`** — an operator as diagnostics and trees show it: a compound operator is its parts
written one after the other. -/
def spelled : Op → String
  | .symbol s => s.spelling
  | .backtick _ => "`"
  | .juxtapose m => m.label
  | .bond b => b.label
  | .inverted s => "not " ++ s.spelling
  | .chain head tail => head.spelling ++ spelledAll tail
  | .broadcast inner => "." ++ spelled inner
  | .assign inner => spelled inner ++ "="
/-- A list of operators, one after the other. -/
def spelledAll : List Op → String
  | [] => ""
  | op :: ops => spelled op ++ spelledAll ops
end

end Op

/-! ## §4 Occurrences -/

/-- **`Operator`** — an operator where it stands. -/
structure Operator where
  op : Op
  span : Span
deriving DecidableEq, Repr

end DewyFront
