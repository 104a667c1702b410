/-
# DewyFront.Radix — the number bases of the language

A base is written as `0` and a letter of either case, in front of digits (`0x1f`), of a based
string (`0u'vv'`) or of a block whose bare digits it governs (`0x[1f]`).
-/
import DewyFront.Text

namespace DewyFront

/-- **`Radix`** — the eleven bases. -/
inductive Radix where
  | binary | ternary | quaternary | seximal | octal | decimal | dozenal | hexadecimal
  | base32 | base36 | base64
deriving DecidableEq, Repr, Inhabited

namespace Radix

/-- All bases, from the smallest. -/
def all : List Radix :=
  [binary, ternary, quaternary, seximal, octal, decimal, dozenal, hexadecimal, base32, base36,
   base64]

/-- How many digits a base has. -/
def value : Radix → Nat
  | binary => 2
  | ternary => 3
  | quaternary => 4
  | seximal => 6
  | octal => 8
  | decimal => 10
  | dozenal => 12
  | hexadecimal => 16
  | base32 => 32
  | base36 => 36
  | base64 => 64

/-- The letter that names a base, in lower case. -/
def letter : Radix → Char
  | binary => 'b'
  | ternary => 't'
  | quaternary => 'q'
  | seximal => 's'
  | octal => 'o'
  | decimal => 'd'
  | dozenal => 'z'
  | hexadecimal => 'x'
  | base32 => 'u'
  | base36 => 'r'
  | base64 => 'g'

/-- **`lead`** — how a base is written in front of what it governs. -/
def lead (r : Radix) : Text := ['0', r.letter]

/-- The base that a letter of either case names. -/
def ofLetter? (c : Char) : Option Radix := all.find? (·.letter == c.toLower)

/-- **`ofLead?`** — the base whose lead a text begins with, in either case. -/
def ofLead? : Text → Option Radix
  | '0' :: c :: _ => ofLetter? c
  | _ => none

/-- The value of a digit among `0`–`9` and the letters of either case, which count on from ten. -/
def digitValue? (c : Char) : Option Nat :=
  if '0' ≤ c ∧ c ≤ '9' then some (c.toNat - '0'.toNat)
  else if 'a' ≤ c ∧ c ≤ 'z' then some (c.toNat - 'a'.toNat + 10)
  else if 'A' ≤ c ∧ c ≤ 'Z' then some (c.toNat - 'A'.toNat + 10)
  else none

/-- **`isDigit`** — the digits of each base. Dozenal writes ten and eleven as `x` and `e`; base 64
adds `+ - / _ =` to the digits and all letters; every other base takes the digits, then the
letters, whose value lies below it. -/
def isDigit (r : Radix) (c : Char) : Bool :=
  match r with
  | dozenal => c.isDigit || c == 'x' || c == 'X' || c == 'e' || c == 'E'
  | base64 => c.isAlphanum || c == '+' || c == '-' || c == '/' || c == '_' || c == '='
  | _ => (digitValue? c).any (· < r.value)

end Radix

end DewyFront
