/-
# DewyFront.Failure — refusals, and states that the stages never reach

A stage ends in one of three ways: with its result, with a refusal that names what is wrong with
the source, or with a fault. Faults mark the branches that the earlier stages rule out; they are
kept apart from refusals, so that one can say of a stage that it never ends in one.
-/

namespace DewyFront

/-- **`Fault`** — a broken assumption of a stage about what it is given. -/
inductive Fault where
  /-- A closing delimiter was taken outside of a block. -/
  | closerOutsideBlock
  /-- A token stands where its kind is not read. -/
  | tokenOutOfPlace
  /-- The opener of a block or of a based string has no closer. -/
  | unpairedOpener
  /-- Two paired delimiters do not enclose a block. -/
  | mismatchedPair
  /-- A symbol token spells no operator. -/
  | unknownSymbol
  /-- What a token is about begins inside a character. -/
  | splitCharacter
  /-- A juxtaposition lacks an item on one side. -/
  | strayMarker
  /-- A juxtaposition with a backtick was left over. -/
  | unresolvedBacktick
  /-- Layout, a bare backtick or a juxtaposition marker reached grouping. -/
  | unsettledItem
  /-- Grouping went on without end. -/
  | stalledGrouping
  /-- Two operators bind an operand equally hard. -/
  | equalPowers
  /-- An operand is contested, but by no juxtaposition. -/
  | incomparablePowers
  /-- A fork was asked for at something other than a juxtaposition. -/
  | forkOffJuxtaposition
  /-- An operator can be reduced in two ways at once. -/
  | competingForms
  /-- An operand in a flat run is drawn to neither side. -/
  | idleFlatOperand
  /-- A reduction ended with other than one node. -/
  | stalledReduction
deriving DecidableEq, Repr

/-- **`Failure`** — how a stage ends without a result. -/
inductive Failure (ε : Type) where
  /-- The source is refused for a cause. -/
  | refused (cause : ε)
  /-- The stage was given what it never is. -/
  | broken (fault : Fault)
deriving DecidableEq, Repr

namespace Failure

/-- Says the cause in other terms. -/
def map {ε δ : Type} (f : ε → δ) : Failure ε → Failure δ
  | refused cause => refused (f cause)
  | broken fault => broken fault

end Failure

/-- Ends a stage with a refusal. -/
def refuse {ε α : Type} (cause : ε) : Except (Failure ε) α := .error (.refused cause)

/-- Ends a stage with a fault. -/
def fault {ε α : Type} (f : Fault) : Except (Failure ε) α := .error (.broken f)

end DewyFront
