/-
# DewyFront.Atom — operands without parts

Numbers keep their digits as they were written, without separators: their value is not computed
here.

* §1 number literals;
* §2 atoms;
* §3 how atoms are shown.
-/
import DewyFront.Operator
import DewyFront.Quoted
import DewyFront.Radix

namespace DewyFront

/-! ## §1 Number literals -/

/-- **`IntegerLit`** — the digits of an integer in their base. -/
structure IntegerLit where
  base : Radix
  digits : Text
deriving DecidableEq, Repr

/-- **`Exponent`** — the exponent of a real: its marker, `e` or `p`, and its power. -/
structure Exponent where
  marker : Char
  power : IntegerLit
deriving DecidableEq, Repr

/-- **`RealLit`** — a number with a fraction, an exponent or both. -/
structure RealLit where
  whole : IntegerLit
  fraction : Option Text
  exponent : Option Exponent
deriving DecidableEq, Repr

/-- An integer with the lead of its base, which decimals do without. -/
def IntegerLit.text (i : IntegerLit) : Text :=
  if i.base = .decimal then i.digits else i.base.lead ++ i.digits

/-- A marker and its power. -/
def Exponent.text (e : Exponent) : Text := e.marker :: e.power.text

/-- A real as it may be written. -/
def RealLit.text (r : RealLit) : Text :=
  r.whole.text ++ r.fraction.elim [] ('.' :: ·) ++ r.exponent.elim [] Exponent.text

/-! ## §2 Atoms -/

/-- **`Atom`** — an operand that has no parts. -/
inductive Atom where
  | identifier (name : Text)
  /-- A name behind a hash sign, which is not part of it. -/
  | hashtag (name : Text)
  | integer (literal : IntegerLit)
  | real (literal : RealLit)
  | string (text : Text)
  /-- Digits in quotes, without layout and separators. -/
  | basedString (base : Radix) (digits : Text)
  /-- The range mark of two dots. -/
  | rangeMark
  /-- Three dots. -/
  | ellipsis
  /-- The semicolon that ends an expression. -/
  | semicolon
  /-- An operator that stands alone is a value. -/
  | operator (op : Op)
deriving DecidableEq, Repr

namespace Atom

/-- The bound that a range has where none is written. -/
def undefined : Atom := .identifier "undefined".toList

/-- Literals that denote numbers. -/
def isNumeric : Atom → Bool
  | integer _ | real _ | basedString _ _ => true
  | _ => false

/-- Literals that denote text. -/
def isText : Atom → Bool
  | string _ => true
  | _ => false

/-! ## §3 Showing -/

/-- **`label`** — an atom in a tree: its kind with its content. -/
def label : Atom → String
  | identifier name => "Identifier(" ++ String.ofList name ++ ")"
  | hashtag name => "Hashtag(#" ++ String.ofList name ++ ")"
  | integer literal => "Integer(" ++ String.ofList literal.text ++ ")"
  | real literal => "Real(" ++ String.ofList literal.text ++ ")"
  | string text => "String(" ++ Quoted.quote text ++ ")"
  | basedString base digits => "BasedString(" ++ String.ofList (base.lead ++ '\'' :: digits) ++ "')"
  | rangeMark => "RangeMarker(..)"
  | ellipsis => "Ellipsis(...)"
  | semicolon => "Semicolon(;)"
  | operator op => "OpFn(" ++ op.spelled ++ ")"

end Atom

end DewyFront
