/-
# DewyFront.Quoted — text between double quotes, on one line and free of doubt

Listings and trees show text with quotes around it. Every character that cannot be shown as it is,
and every character that would be mistaken for part of the notation, is written with a backslash.
-/
import DewyFront.Printable
import DewyFront.Text

namespace DewyFront
namespace Quoted

/-- A code point in lower-case hexadecimal, without leading zeros. -/
def hexDigits (n : Nat) : Text := Nat.toDigits 16 n

/-- **`character`** — how a character is written between quotes. -/
def character (c : Char) : Text :=
  if c = '\x00' then ['\\', '0']
  else if c = '\t' then ['\\', 't']
  else if c = '\r' then ['\\', 'r']
  else if c = '\n' then ['\\', 'n']
  else if c = '\\' then ['\\', '\\']
  else if c = '"' then ['\\', '"']
  else if Printable.isShown c then [c]
  else ['\\', 'u', '\x7b'] ++ hexDigits c.toNat ++ ['\x7d']

/-- **`body`** — a text as it is written between quotes. -/
def body (t : Text) : Text := t.flatMap character

/-- **`quote`** — a text in quotes. -/
def quote (t : Text) : String := String.ofList ('"' :: body t ++ ['"'])

end Quoted
end DewyFront
