/-
# DewyFront.Token.Context — what the lexer is inside of

A context is begun by an opening token and remembers its place, so that the closing token can be
paired with it. A string also remembers what ends it, and a block the base of its bare digits.
-/
import DewyFront.Radix
import DewyFront.Token.Kind

namespace DewyFront

/-- **`Ending`** — what ends a string. -/
inductive Ending where
  /-- The same run of quotes that opened it. -/
  | quotes (run : Text)
  /-- The delimiter that its opener names. -/
  | delimiter (delimiter : Text)
  /-- Nothing but the end of the source. -/
  | endOfSource
deriving DecidableEq, Repr

/-- The text that ends a string, if a text does. -/
def Ending.text? : Ending → Option Text
  | quotes run => some run
  | delimiter d => some d
  | endOfSource => none

/-- **`Context`** — an entry of the lexer's stack. -/
inductive Context where
  | root
  | stringBody (opener : Nat) (ending : Ending)
  | rawStringBody (opener : Nat) (ending : Ending)
  | basedStringBody (opener : Nat) (ending : Ending) (base : Radix)
  | blockBody (opener : Nat) (base : Radix)
  | typeBody (opener : Nat)
deriving DecidableEq, Repr

namespace Context

/-- The kind of a context. -/
def kind : Context → ContextKind
  | root => .root
  | stringBody .. => .stringBody
  | rawStringBody .. => .rawStringBody
  | basedStringBody .. => .basedStringBody
  | blockBody .. => .blockBody
  | typeBody _ => .typeBody

/-- The place of the token that began a context. Only the root has none. -/
def opener? : Context → Option Nat
  | root => none
  | stringBody i _ | rawStringBody i _ | basedStringBody i _ _ | blockBody i _ | typeBody i => some i

/-- What ends a string; other contexts are ended by delimiters. -/
def ending? : Context → Option Ending
  | stringBody _ e | rawStringBody _ e | basedStringBody _ e _ => some e
  | root | blockBody .. | typeBody _ => none

/-- **`digitBase`** — the base of digits without a lead. Only a block can change it. -/
def digitBase : Context → Radix
  | blockBody _ base => base
  | _ => .decimal

end Context

end DewyFront
