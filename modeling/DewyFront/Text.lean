/-
# DewyFront.Text — source text as a list of characters, measured in bytes

Every function that reads source reads a list of characters from its front, so that it recurses on
what it reads. Offsets, however, are byte offsets of the UTF-8 encoding. This module holds the two
notions that tie the views together:

* §1 `width`, the number of bytes of a text, which turns concatenation into addition;
* §2 cutting a text at byte offsets, which is defined only where no character is split.
-/

namespace DewyFront

/-- A stretch of source, character by character. -/
abbrev Text := List Char

/-! ## §1 Byte widths -/

/-- **`width`** — the number of bytes of a text in UTF-8. -/
def width (t : Text) : Nat := t.foldr (fun c n => c.utf8Size + n) 0

@[simp] theorem width_nil : width [] = 0 := rfl

@[simp] theorem width_cons (c : Char) (t : Text) : width (c :: t) = c.utf8Size + width t := rfl

@[simp] theorem width_append (s t : Text) : width (s ++ t) = width s + width t := by
  induction s with
  | nil => simp
  | cons c s ih => rw [List.cons_append, width_cons, width_cons, ih, Nat.add_assoc]

/-! ## §2 Cutting at byte offsets -/

/-- **`dropBytes`** — the text after its first `n` bytes; nothing when `n` splits a character or
lies past the end. -/
def dropBytes : Nat → Text → Option Text
  | 0, t => some t
  | _ + 1, [] => none
  | n + 1, c :: t => if c.utf8Size ≤ n + 1 then dropBytes (n + 1 - c.utf8Size) t else none

/-- **`takeBytes`** — the first `n` bytes of a text; nothing when `n` splits a character or lies
past the end. -/
def takeBytes : Nat → Text → Option Text
  | 0, _ => some []
  | _ + 1, [] => none
  | n + 1, c :: t =>
    if c.utf8Size ≤ n + 1 then (takeBytes (n + 1 - c.utf8Size) t).map (c :: ·) else none

/-- **`runLength`** — how many characters at the front of a text satisfy `p`, up to the first that
does not. -/
def runLength (p : Char → Bool) (t : Text) : Nat := (t.takeWhile p).length

end DewyFront
