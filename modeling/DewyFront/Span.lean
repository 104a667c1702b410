/-
# DewyFront.Span — half-open byte ranges of a source

A span says where something stands: from the byte offset `start` up to, not including, `stop`.
Empty spans are places between characters, such as the place where a juxtaposition is inserted.

* §1 the type, its measures and its order;
* §2 spans built from unchecked offsets, which must fit 32 bits;
* §3 the text under a span.
-/
import DewyFront.Text

namespace DewyFront

/-! ## §1 Spans -/

/-- **`Span`** — the bytes from `start` up to `stop`. -/
structure Span where
  start : Nat
  stop : Nat
deriving DecidableEq, Repr, Inhabited

namespace Span

/-- The span of things that stand nowhere in the source. -/
def nowhere : Span := ⟨0, 0⟩

/-- The empty span at an offset. -/
def point (offset : Nat) : Span := ⟨offset, offset⟩

/-- The number of bytes covered. -/
def size (s : Span) : Nat := s.stop - s.start

/-- Whether a span covers nothing. -/
def isEmpty (s : Span) : Bool := s.start == s.stop

/-- Whether the byte at an offset is covered. -/
def contains (s : Span) (offset : Nat) : Bool := s.start ≤ offset && offset < s.stop

/-- **`merge`** — the least span that covers both. -/
def merge (s t : Span) : Span := ⟨min s.start t.start, max s.stop t.stop⟩

/-- The least span that covers a span and all of a list. -/
def mergeAll (s : Span) (ts : List Span) : Span := ts.foldl merge s

/-- The empty span where a span ends. -/
def endPoint (s : Span) : Span := point s.stop

/-- **`touches`** — `t` begins exactly where `s` ends. -/
def touches (s t : Span) : Bool := s.stop == t.start

/-- Spans are ordered by where they start, then by where they stop. -/
instance : Ord Span where
  compare s t := (compare s.start t.start).then (compare s.stop t.stop)

/-- The two offsets, as in labels: `3..7`. -/
def offsets (s : Span) : String := s!"{s.start}..{s.stop}"

/-- The span in interval notation: `[3..7)`. -/
def interval (s : Span) : String := s!"[{s.offsets})"

/-! ## §2 Checked construction -/

/-- The largest offset a span can hold. -/
def limit : Nat := 4294967295

/-- Why two offsets are not a span. -/
inductive RangeError where
  | startTooLarge (start : Nat)
  | endTooLarge (stop : Nat)
  | inverted (start stop : Nat)
deriving DecidableEq, Repr

/-- The wording of a refused range. -/
def RangeError.message : RangeError → String
  | .startTooLarge start => s!"span start {start} exceeds u32::MAX ({limit})"
  | .endTooLarge stop => s!"span end {stop} exceeds u32::MAX ({limit})"
  | .inverted start stop => s!"span start {start} is after span end {stop}"

/-- **`ofRange?`** — the span of two offsets, in order and within the limit. An inverted range is
refused as such even where it is also too large. -/
def ofRange? (start stop : Nat) : Except RangeError Span :=
  if stop < start then .error (.inverted start stop)
  else if limit < start then .error (.startTooLarge start)
  else if limit < stop then .error (.endTooLarge stop)
  else .ok ⟨start, stop⟩

/-! ## §3 The text under a span -/

/-- **`slice`** — the text a span covers; empty when the span leaves the text or splits a
character. -/
def slice (s : Span) (t : Text) : Text :=
  if s.stop < s.start then []
  else ((dropBytes s.start t).bind (takeBytes (s.stop - s.start))).getD []

end Span

end DewyFront
