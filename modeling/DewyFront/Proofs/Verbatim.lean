/-
# DewyFront.Proofs.Verbatim — raw strings denote what stands in them

A raw string has neither escapes nor holes, so nothing competes with its text but what ends it. It ends
where its closer occurs for the first time, and what stands in front of that is the text, whatever the
characters are.

* §1 first occurrences;
* §2 strings of one text;
* §3 raw strings.
-/
import DewyFront.Proofs.Interiors
import DewyFront.Proofs.Openings

namespace DewyFront

variable {d t : Text} {q : Char}

/-! ## §1 First occurrences -/

/-- **`FirstAtEnd`** — in a text with what ends it behind it, the first occurrence of the latter is the
one at the end. -/
def FirstAtEnd (d t : Text) : Prop :=
  ∀ before after, t ++ d = before ++ (d ++ after) → t.length ≤ before.length

theorem firstAtEnd_iff : FirstAtEnd d t ↔ ∀ n < t.length, ¬ d <+: (t ++ d).drop n := by
  constructor
  · intro h n hn hprefix
    obtain ⟨after, hafter⟩ := hprefix
    have hle := h ((t ++ d).take n) after (by rw [hafter, List.take_append_drop])
    rw [List.length_take] at hle
    omega
  · intro h before after heq
    by_contra hlt
    apply h before.length (Nat.lt_of_not_le hlt)
    rw [heq, List.drop_left]
    exact List.prefix_append d after

instance (d t : Text) : Decidable (FirstAtEnd d t) := decidable_of_iff _ firstAtEnd_iff.symm

/-- **The text of a string goes on to the first place where the string can end.** -/
theorem FirstAtEnd.bodyLength_eq (h : FirstAtEnd d t) {hasHoles : Bool}
    (hmarks : hasHoles = true → ∀ a ∈ t, a ≠ '\\' ∧ a ≠ '\x7b') :
    View.bodyLength (some d) hasHoles (t ++ d) = t.length := by
  refine View.bodyLength_append hmarks (fun before after heq hafter hprefix => ?_)
    (View.bodyLength_of_prefix (List.prefix_refl d))
  obtain ⟨more, hmore⟩ := hprefix
  have hle := h before more (by rw [heq, List.append_assoc, hmore])
  have hpos := List.length_pos_of_ne_nil hafter
  rw [heq, List.length_append] at hle
  omega

/-! ## §2 Strings of one text -/

/-- The text in front of what ends a string is a row of at most one fragment. -/
theorem Interior.exists_reads_of_firstAtEnd {context : Context} {hasHoles : Bool} {closer : TokenKind}
    (h : Interior context hasHoles closer d) (hfirst : FirstAtEnd d t)
    (hmarks : hasHoles = true → ∀ a ∈ t, a ≠ '\\' ∧ a ≠ '\x7b') :
    ∃ fs, context.Reads d fs ∧ Fragment.spelled fs = t ∧ Fragment.denoted fs = t := by
  have hlength : View.bodyLength (some d) hasHoles (t ++ (Fragment.spelled [] ++ d)) = t.length :=
    hfirst.bodyLength_eq hmarks
  obtain ⟨fs, hfs, hspelled, hdenoted⟩ := h.exists_reads_text .nil hlength
  rw [Fragment.spelled_nil, List.append_nil] at hspelled
  rw [Fragment.denoted_nil, List.append_nil] at hdenoted
  exact ⟨fs, hfs, hspelled, hdenoted⟩

namespace Source

/-- **A string of one text denotes it**, if what ends the string occurs behind the text for the first time
and fits there. -/
theorem denotes_of_text {config : LexerConfig} {s : Source} {lexeme : Text}
    {opener closer : TokenKind} {context : Context} {hasHoles : Bool}
    (hopener : opener.opensText = true) (hopens : Scan.Opens config opener lexeme (t ++ d) context)
    (hinterior : Interior context hasHoles closer d) (hfirst : FirstAtEnd d t)
    (hmarks : hasHoles = true → ∀ a ∈ t, a ≠ '\\' ∧ a ≠ '\x7b') (hfits : context.Fits closer d [])
    (htext : s.text = lexeme ++ (t ++ d)) (hissues : s.encodingIssues = []) :
    s.Denotes config t := by
  obtain ⟨fs, hfs, hspelled, hdenoted⟩ := hinterior.exists_reads_of_firstAtEnd hfirst hmarks
  rw [← hspelled] at hopens htext
  have hdenotes := denotes_of_reads hopener hopens hfs hinterior.closer_eq hfits htext hissues
  rwa [hdenoted] at hdenotes

/-! ## §3 Raw strings -/

theorem raw_denotes_of_quotes (config : LexerConfig) (name : Option String) (hq : View.isQuote q = true)
    {n : Nat} (hn : n % 2 = 1) (ht : t = [] ∨ t.head? ≠ some q ∧ FirstAtEnd (List.replicate n q) t)
    (hsize : size ⟨'r' :: (List.replicate n q ++ (t ++ List.replicate n q)), name⟩ ≤ Span.limit) :
    Denotes config ⟨'r' :: (List.replicate n q ++ (t ++ List.replicate n q)), name⟩ t := by
  have hhead : t.head? ≠ some q := by
    rcases ht with rfl | ⟨hhead, -⟩
    · exact fun h => by cases h
    · exact hhead
  have hfirst : FirstAtEnd (List.replicate n q) t := by
    rcases ht with rfl | ⟨-, hfirst⟩
    · exact fun _ _ _ => Nat.zero_le _
    · exact hfirst
  have hinterior := Interior.rawQuoted 0 (List.replicate n q)
  have hopens := Scan.opens_raw_quotes config hq hn hhead
  exact denotes_of_text rfl hopens hinterior hfirst (fun h => by cases h)
    (hinterior.fits_closer fun h => by cases h) rfl (encodingIssues_eq_nil_iff.mpr ⟨rfl, hsize⟩)

theorem raw_denotes_of_delimiter (config : LexerConfig) (name : Option String)
    (hq : View.isQuote q = true) (hd : View.IsDelimiter d) (hfirst : FirstAtEnd d t)
    (hsize : size ⟨'#' :: 'r' :: q :: (d ++ q :: (t ++ d)), name⟩ ≤ Span.limit) :
    Denotes config ⟨'#' :: 'r' :: q :: (d ++ q :: (t ++ d)), name⟩ t := by
  have hinterior := Interior.rawDelimited 0 d
  have hopens := Scan.opens_raw_delimiter config hq hd (t ++ d)
  have htext : '#' :: 'r' :: q :: (d ++ q :: (t ++ d)) =
      '#' :: 'r' :: q :: (d ++ [q]) ++ (t ++ d) := by simp
  exact denotes_of_text rfl hopens hinterior hfirst (fun h => by cases h)
    (hinterior.fits_closer fun h => by cases h) htext (encodingIssues_eq_nil_iff.mpr ⟨rfl, hsize⟩)

/-- **Raw strings are verbatim.** Between odd runs of a quote behind the sigil, and between a raw heredoc's
opener and its delimiter, any text is read as it stands, if what ends the string occurs behind it for the
first time and, between quotes, the text does not begin with one, and if the source is not oversized. -/
theorem raw_denotes (config : LexerConfig) (name : Option String) (hq : View.isQuote q = true)
    (t : Text) :
    (∀ n, n % 2 = 1 → (t = [] ∨ t.head? ≠ some q ∧ FirstAtEnd (List.replicate n q) t) →
      let s : Source := ⟨'r' :: (List.replicate n q ++ (t ++ List.replicate n q)), name⟩
      s.size ≤ Span.limit → s.Denotes config t) ∧
    ∀ d, View.IsDelimiter d → FirstAtEnd d t →
      let s : Source := ⟨'#' :: 'r' :: q :: (d ++ q :: (t ++ d)), name⟩
      s.size ≤ Span.limit → s.Denotes config t := by
  constructor
  · intro n hn ht s hsize
    exact raw_denotes_of_quotes config name hq hn ht hsize
  · intro d hd hfirst s hsize
    exact raw_denotes_of_delimiter config name hq hd hfirst hsize

/-- A text of marks, an opener of a comment, a quote and a letter of two bytes, between three quotes and in a
heredoc. -/
theorem raw_denotes_of_marks :
    let t : Text := ['\\', '\x7b', '%', '\x7b', '"', 'é']
    View.isQuote '"' = true ∧ (t.head? ≠ some '"' ∧ FirstAtEnd ['"', '"', '"'] t) ∧
    Denotes default ⟨['r', '"', '"', '"', '\\', '\x7b', '%', '\x7b', '"', 'é', '"', '"', '"'], none⟩ t ∧
    View.IsDelimiter ['E', 'O'] ∧ FirstAtEnd ['E', 'O'] t ∧
    Denotes default ⟨['#', 'r', '"', 'E', 'O', '"', '\\', '\x7b', '%', '\x7b', '"', 'é', 'E', 'O'], none⟩
      t := by
  intro t
  have hhead : t.head? ≠ some '"' := by decide
  have hquotes : FirstAtEnd ['"', '"', '"'] t := by decide
  have hdelimiter : View.IsDelimiter ['E', 'O'] := by decide
  have hfirst : FirstAtEnd ['E', 'O'] t := by decide
  obtain ⟨hquoted, hheredoc⟩ := raw_denotes default none (q := '"') rfl t
  exact ⟨rfl, ⟨hhead, hquotes⟩, hquoted 3 rfl (.inr ⟨hhead, hquotes⟩) (by decide), hdelimiter, hfirst,
    hheredoc ['E', 'O'] hdelimiter hfirst (by decide)⟩

end Source

end DewyFront
