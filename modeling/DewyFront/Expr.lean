/-
# DewyFront.Expr — expression trees

A tree says how an expression nests. Where two nestings are equally good, an ambiguous node holds
all of them. A juxtaposition whose place is settled but whose meaning is not keeps every meaning
that is left on its operator.

* §1 expressions;
* §2 decidable equality;
* §3 what a node is.
-/
import DewyFront.Atom
import DewyFront.Delimiters
import DewyFront.Keyword

namespace DewyFront

/-! ## §1 Expressions -/

mutual
/-- **`Expr`** — an expression and where it stands. -/
inductive Expr where
  | atom (atom : Atom) (span : Span)
  | binary (operator : Operator) (left right : Expr) (span : Span)
  /-- An operator in front of its operand. -/
  | before (operator : Operator) (operand : Expr) (span : Span)
  /-- An operator behind its operand. -/
  | after (operator : Operator) (operand : Expr) (span : Span)
  /-- A run of one operator. -/
  | flat (operator : Operator) (operands : List Expr) (span : Span)
  /-- Every reading of a stretch that can be read in several ways. -/
  | ambiguous (candidates : List Expr) (span : Span)
  | block (kind : Delimiters) (base : Option Radix) (inner : List Expr) (span : Span)
  /-- A hole for code points in a string. -/
  | escape (inner : List Expr) (span : Span)
  | istring (pieces : List Expr.Piece) (span : Span)
  | flow (arms : List Expr.Arm) (otherwise : Option Expr) (span : Span)
  | declare (keyword : Keyword) (target : Expr) (span : Span)
  | keyword (keyword : Keyword) (operand : Option Expr) (span : Span)
/-- A piece of a string with holes. -/
inductive Expr.Piece where
  | text (text : Text)
  | hole (content : Expr)
/-- A flow keyword with its condition and its clause. -/
inductive Expr.Arm where
  | mk (keyword : Keyword) (condition clause : Expr)
end

namespace Expr

/-! ## §2 Equality -/

mutual
/-- Decides whether two expressions are the same. -/
def same : Expr → Expr → Bool
  | .atom a s, .atom b t => a == b && s == t
  | .binary o l r s, .binary p m q t => o == p && same l m && same r q && s == t
  | .before o e s, .before p f t => o == p && same e f && s == t
  | .after o e s, .after p f t => o == p && same e f && s == t
  | .flat o es s, .flat p fs t => o == p && sameAll es fs && s == t
  | .ambiguous es s, .ambiguous fs t => sameAll es fs && s == t
  | .block k b es s, .block l c fs t => k == l && b == c && sameAll es fs && s == t
  | .escape es s, .escape fs t => sameAll es fs && s == t
  | .istring ps s, .istring qs t => samePieces ps qs && s == t
  | .flow xs none s, .flow ys none t => sameArms xs ys && s == t
  | .flow xs (some e) s, .flow ys (some f) t => sameArms xs ys && same e f && s == t
  | .declare k e s, .declare l f t => k == l && same e f && s == t
  | .keyword k none s, .keyword l none t => k == l && s == t
  | .keyword k (some e) s, .keyword l (some f) t => k == l && same e f && s == t
  | _, _ => false
/-- Decides whether two lists of expressions are the same. -/
def sameAll : List Expr → List Expr → Bool
  | [], [] => true
  | e :: es, f :: fs => same e f && sameAll es fs
  | _, _ => false
/-- Decides whether two lists of pieces are the same. -/
def samePieces : List Piece → List Piece → Bool
  | [], [] => true
  | .text s :: ps, .text t :: qs => s == t && samePieces ps qs
  | .hole e :: ps, .hole f :: qs => same e f && samePieces ps qs
  | _, _ => false
/-- Decides whether two lists of arms are the same. -/
def sameArms : List Arm → List Arm → Bool
  | [], [] => true
  | .mk k c e :: xs, .mk l d f :: ys => k == l && same c d && same e f && sameArms xs ys
  | _, _ => false
end

mutual
theorem same_iff : ∀ a b : Expr, same a b = true ↔ a = b
  | .atom _ _, b => by cases b <;> simp [same]
  | .binary _ l r _, b => by cases b <;> simp [same, same_iff l, same_iff r, and_assoc]
  | .before _ e _, b => by cases b <;> simp [same, same_iff e, and_assoc]
  | .after _ e _, b => by cases b <;> simp [same, same_iff e, and_assoc]
  | .flat _ es _, b => by cases b <;> simp [same, sameAll_iff es, and_assoc]
  | .ambiguous es _, b => by cases b <;> simp [same, sameAll_iff es]
  | .block _ _ es _, b => by cases b <;> simp [same, sameAll_iff es, and_assoc]
  | .escape es _, b => by cases b <;> simp [same, sameAll_iff es]
  | .istring ps _, b => by cases b <;> simp [same, samePieces_iff ps]
  | .flow xs none _, b => by
    cases b with
    | flow ys o t => cases o <;> simp [same, sameArms_iff xs]
    | _ => simp [same]
  | .flow xs (some e) _, b => by
    cases b with
    | flow ys o t => cases o <;> simp [same, sameArms_iff xs, same_iff e, and_assoc]
    | _ => simp [same]
  | .declare _ e _, b => by cases b <;> simp [same, same_iff e, and_assoc]
  | .keyword _ none _, b => by
    cases b with
    | keyword l o t => cases o <;> simp [same]
    | _ => simp [same]
  | .keyword _ (some e) _, b => by
    cases b with
    | keyword l o t => cases o <;> simp [same, same_iff e, and_assoc]
    | _ => simp [same]
theorem sameAll_iff : ∀ es fs : List Expr, sameAll es fs = true ↔ es = fs
  | [], fs => by cases fs <;> simp [sameAll]
  | e :: es, fs => by cases fs <;> simp [sameAll, same_iff e, sameAll_iff es]
theorem samePieces_iff : ∀ ps qs : List Piece, samePieces ps qs = true ↔ ps = qs
  | [], qs => by cases qs <;> simp [samePieces]
  | .text _ :: ps, qs => by
    rcases qs with _ | ⟨q, qs⟩
    · simp [samePieces]
    · cases q <;> simp [samePieces, samePieces_iff ps]
  | .hole e :: ps, qs => by
    rcases qs with _ | ⟨q, qs⟩
    · simp [samePieces]
    · cases q <;> simp [samePieces, same_iff e, samePieces_iff ps]
theorem sameArms_iff : ∀ xs ys : List Arm, sameArms xs ys = true ↔ xs = ys
  | [], ys => by cases ys <;> simp [sameArms]
  | .mk _ c e :: xs, ys => by
    rcases ys with _ | ⟨y, ys⟩
    · simp [sameArms]
    · cases y; simp [sameArms, same_iff c, same_iff e, sameArms_iff xs, and_assoc]
end

instance : DecidableEq Expr := fun a b => decidable_of_iff _ (same_iff a b)

/-! ## §3 Nodes -/

/-- Where an expression stands. -/
def span : Expr → Span
  | atom _ s | binary _ _ _ s | before _ _ s | after _ _ s | flat _ _ s | ambiguous _ s
  | block _ _ _ s | escape _ s | istring _ s | flow _ _ s | declare _ _ s | keyword _ _ s => s

/-- The atom of an expression. -/
def atom? : Expr → Option Atom
  | atom a _ => some a
  | _ => none

/-- Whether an expression is the semicolon that ends another. -/
def isSemicolon (e : Expr) : Bool := e.atom? == some .semicolon

/-- Whether an expression is a range mark. -/
def isRangeMark (e : Expr) : Bool := e.atom? == some .rangeMark

/-- The operator between the two parts of an expression. -/
def binaryOperator? : Expr → Option Operator
  | binary o _ _ _ => some o
  | _ => none

/-- The least span that covers some expressions. -/
def spanOfAll (first : Expr) (rest : List Expr) : Span := first.span.mergeAll (rest.map span)

end Expr

end DewyFront
