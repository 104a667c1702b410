/-
# DewyFront.Proofs.Literals — string literals denote any text

Every character has a spelling between quotes: the character itself, if it neither ends the string nor
begins something else; a backslash and the character, if the two are no escape of another one; the escape
that is named after it; its four hexadecimal digits. However the characters of a text are spelled, the
spellings between two quotes are read as that text.

* §1 digits;
* §2 spellings;
* §3 escapes;
* §4 whole literals.
-/
import DewyFront.Proofs.Interiors
import DewyFront.Proofs.Openings

namespace DewyFront

/-! ## §1 Digits -/

/-- **`fourDigits`** — the four lower-case hexadecimal digits of a number below 65536. -/
def fourDigits (n : Nat) : Text :=
  [n / 4096, n / 256 % 16, n / 16 % 16, n % 16].map Nat.digitChar

/-- A digit of either case has the value of the one in lower case. -/
theorem digit_of_toLower {c : Char} {k : Nat} (hk : k < 16) (h : c.toLower = Nat.digitChar k) :
    View.isHexDigit c = true ∧ Radix.digitValue? c = some k ∧ c ≠ '+' := by
  have hlower : ∀ k < 16, View.isHexDigit (Nat.digitChar k) = true ∧
      Radix.digitValue? (Nat.digitChar k) = some k ∧ Nat.digitChar k ≠ '+' := by decide
  have hupper : ∀ n < 26, ∀ k < 16, (Char.ofNat (65 + n)).toLower = Nat.digitChar k →
      View.isHexDigit (Char.ofNat (65 + n)) = true ∧
      Radix.digitValue? (Char.ofNat (65 + n)) = some k ∧ Char.ofNat (65 + n) ≠ '+' := by decide
  by_cases hc : 65 ≤ c.toNat ∧ c.toNat ≤ 90
  · obtain ⟨n, hn⟩ : ∃ n, c.toNat = 65 + n := ⟨c.toNat - 65, by omega⟩
    have hchar : c = Char.ofNat (65 + n) := by rw [← hn, Char.ofNat_toNat]
    rw [hchar] at h ⊢
    exact hupper n (by omega) k hk h
  · have hsame : c.toLower = c := by
      unfold Char.toLower
      rw [dif_neg]
      exact fun hbounds => hc ⟨UInt32.le_iff_toNat_le.mp hbounds.1, UInt32.le_iff_toNat_le.mp hbounds.2⟩
    rw [← hsame, h]
    exact hlower k hk

/-- **Digits of either case are read as the number that they write.** -/
theorem of_fourDigits {digits : Text} {n : Nat} (hn : n < 65536)
    (h : digits.map Char.toLower = fourDigits n) : digits.length = View.escapeDigits ∧
      (∀ d ∈ digits, View.isHexDigit d = true) ∧ Tree.hexValue? digits = some n := by
  have hlength := congrArg List.length h
  rw [List.length_map] at hlength
  obtain ⟨a, b, c, d, rfl⟩ : ∃ a b c d, digits = [a, b, c, d] := by
    match digits, hlength with
    | [a, b, c, d], _ => exact ⟨a, b, c, d, rfl⟩
  simp only [fourDigits, List.map_cons, List.map_nil, List.cons.injEq, and_true] at h
  obtain ⟨ha, hb, hc, hd⟩ := h
  obtain ⟨hhexa, hvala, hplus⟩ := digit_of_toLower (by omega) ha
  obtain ⟨hhexb, hvalb, -⟩ := digit_of_toLower (by omega) hb
  obtain ⟨hhexc, hvalc, -⟩ := digit_of_toLower (by omega) hc
  obtain ⟨hhexd, hvald, -⟩ := digit_of_toLower (by omega) hd
  refine ⟨rfl, ?_, ?_⟩
  · simp [hhexa, hhexb, hhexc, hhexd]
  · have hfits : n / 4096 < 16 ∧ n / 256 % 16 < 16 ∧ n / 16 % 16 < 16 ∧ n % 16 < 16 := by omega
    have hsum : 16 * (16 * (16 * (n / 4096) + n / 256 % 16) + n / 16 % 16) + n % 16 = n := by omega
    simp [Tree.hexValue?, hplus, hvala, hvalb, hvalc, hvald, hfits, hsum]

/-! ## §2 Spellings -/

/-- **`namedEscapes`** — the letters that name a character behind a backslash. -/
def namedEscapes : List (Char × Char) :=
  [('n', '\n'), ('r', '\r'), ('t', '\t'), ('b', '\x08'), ('f', '\x0c'), ('v', '\x0b'), ('a', '\x07'),
   ('0', '\x00')]

/-- **`Spells`** — the spellings of a character between two quotes. -/
inductive Spells (q c : Char) : Text → Prop
  /-- The character itself. -/
  | itself (hquote : c ≠ q) (hbackslash : c ≠ '\\') (hbrace : c ≠ '\x7b') : Spells q c [c]
  /-- A backslash and the character. -/
  | escaped (h : c ∉ ['n', 'r', 't', 'b', 'f', 'v', 'a', '0', 'u', 'U', '\n']) : Spells q c ['\\', c]
  /-- The escape that is named after it. -/
  | named {letter : Char} (h : (letter, c) ∈ namedEscapes) : Spells q c ['\\', letter]
  /-- Its code point, in digits of either case. -/
  | codePoint {u : Char} {digits : Text} (hu : u = 'u' ∨ u = 'U') (hc : c.toNat < 0x10000)
      (hdigits : digits.map Char.toLower = fourDigits c.toNat) : Spells q c ('\\' :: u :: digits)

/-! ## §3 Escapes -/

variable {q c a : Char} {e s t rest : Text}

/-- A backslash and one character. -/
theorem escapeText_simple {l : Lexeme} (hu : ¬ (a = 'u' ∨ a = 'U')) (hnewline : a ≠ '\n')
    (hl : l.text = ['\\', a]) : Tree.escapeText l = .ok [Tree.simpleEscape a] := by
  have htail : l.text.drop 1 = [a] := by rw [hl]; rfl
  unfold Tree.escapeText
  rw [htail]
  simp [hu]

/-- A backslash and a code point, whose digits begin at the third byte. -/
theorem escapeText_codePoint {u : Char} {digits : Text} {l : Lexeme} (hu : u = 'u' ∨ u = 'U')
    (hvalue : Tree.hexValue? digits = some c.toNat) (hl : l.text = '\\' :: u :: digits) :
    Tree.escapeText l = .ok [c] := by
  have hwidth : width ['\\', u] = 2 := by rcases hu with rfl | rfl <;> rfl
  have hdrop : dropBytes 2 l.text = some digits := by
    rw [hl, ← hwidth]
    exact dropBytes_width ['\\', u] digits
  have hscalar : Tree.scalar? c.toNat = some c := by
    have hvalid : c.toNat.isValidChar := c.valid
    rw [Tree.scalar?, if_pos hvalid, Char.ofNat_toNat]
  have hcodePoint : Tree.codePoint l = .ok c := by
    rw [Tree.codePoint, hdrop]
    dsimp only
    rw [hvalue, Option.bind_some, hscalar]
  have htail : l.text.drop 1 = u :: digits := by rw [hl]; rfl
  unfold Tree.escapeText
  rw [htail]
  rcases hu with rfl | rfl <;> simp [hcodePoint, bind, Except.bind, pure, Except.pure]

/-- **`Escapes`** — an escape that denotes a character. -/
structure Escapes (c : Char) (e : Text) : Prop where
  marks : Marks .stringEscape e
  cooked : ∀ l : Lexeme, l.text = e → Tree.escapeText l = .ok [c]

/-- **Every spelling is the character itself or an escape of it.** -/
theorem Spells.cases_escapes (h : Spells q c e) :
    (e = [c] ∧ c ≠ q ∧ c ≠ '\\' ∧ c ≠ '\x7b') ∨ Escapes c e := by
  cases h with
  | itself hquote hbackslash hbrace => exact .inl ⟨rfl, hquote, hbackslash, hbrace⟩
  | escaped h =>
    simp only [List.mem_cons, List.not_mem_nil, or_false, not_or] at h
    obtain ⟨hn, hr, ht, hb, hf, hv, ha, hzero, hu, hU, hnewline⟩ := h
    have hletter : ¬ (c = 'u' ∨ c = 'U') := not_or.mpr ⟨hu, hU⟩
    have hself : Tree.simpleEscape c = c := by simp [Tree.simpleEscape, *]
    refine .inr ⟨.simple hletter, fun l hl => ?_⟩
    rw [escapeText_simple hletter hnewline hl, hself]
  | @named letter h =>
    have hall : ∀ p ∈ namedEscapes, ¬ (p.1 = 'u' ∨ p.1 = 'U') ∧ p.1 ≠ '\n' ∧
        Tree.simpleEscape p.1 = p.2 := by decide
    obtain ⟨hletter, hnewline, hsimple⟩ := hall _ h
    refine .inr ⟨.simple hletter, fun l hl => ?_⟩
    rw [escapeText_simple hletter hnewline hl, hsimple]
  | codePoint hu hc hdigits =>
    obtain ⟨hlength, hhex, hvalue⟩ := of_fourDigits hc hdigits
    exact .inr ⟨.codePoint hu hlength hhex, fun l hl => escapeText_codePoint hu hvalue hl⟩

/-! ## §4 Whole literals -/

/-- The inside of a string between single quotes. -/
theorem interior_quote (q : Char) :
    Interior (.stringBody 0 (.quotes [q])) true .stringCloser [q] := .quoted 0 [q]

theorem ne_of_isQuote (hq : View.isQuote q = true) : q ≠ '\\' ∧ q ≠ '\x7b' := by
  rcases View.eq_of_isQuote hq with rfl | rfl <;> decide

/-- A text that stands for itself goes on to an escape or to the quote. -/
theorem bodyLength_plain (ht : ∀ a ∈ t, a ≠ q ∧ a ≠ '\\' ∧ a ≠ '\x7b')
    (hrest : View.bodyLength (some [q]) true rest = 0) :
    View.bodyLength (some [q]) true (t ++ rest) = t.length := by
  refine View.bodyLength_append (fun _ a ha => (ht a ha).2) (fun before after heq hafter hprefix => ?_)
    hrest
  obtain ⟨a, after, rfl⟩ := List.exists_cons_of_ne_nil hafter
  have ha : a ∈ t := heq ▸ List.mem_append_right _ List.mem_cons_self
  exact (ht a ha).1 (List.cons_prefix_cons.mp hprefix).1.symm

/-- **Spellings are a text that stands for itself and a row behind it**, which begins with an escape if it
begins with anything. -/
theorem exists_reads_of_spells (hq : View.isQuote q = true) {es : List Text}
    (h : List.Forall₂ (Spells q) s es) :
    ∃ t fs, es.flatten = t ++ Fragment.spelled fs ∧ s = t ++ Fragment.denoted fs ∧
      (∀ a ∈ t, a ≠ q ∧ a ≠ '\\' ∧ a ≠ '\x7b') ∧
      Context.Reads (.stringBody 0 (.quotes [q])) [q] fs ∧
      View.bodyLength (some [q]) true (Fragment.spelled fs ++ [q]) = 0 := by
  induction h with
  | nil =>
    exact ⟨[], [], rfl, rfl, List.forall_mem_nil _, .nil, View.bodyLength_of_prefix (List.prefix_refl _)⟩
  | @cons c e s es hc _ ih =>
    obtain ⟨t, fs, hes, hs, ht, hfs, hstops⟩ := ih
    rcases hc.cases_escapes with ⟨rfl, hplain⟩ | hescape
    · refine ⟨c :: t, fs, ?_, ?_, List.forall_mem_cons.mpr ⟨hplain, ht⟩, hfs, hstops⟩
      · rw [List.flatten_cons, hes]
        rfl
      · rw [hs]
        rfl
    · -- The text ends here: it is a fragment of the row that the escape stands in front of.
      obtain ⟨fs', hfs', hspelled, hdenoted⟩ :=
        (interior_quote q).exists_reads_text hfs (bodyLength_plain ht hstops)
      have hmark : ∀ rest, (e ++ rest).head? = some '\\' := fun rest => by
        rw [List.head?_append, hescape.marks.head?_eq, Option.some_or]
      refine ⟨[], ⟨.stringEscape, e, [c]⟩ :: fs', ?_, ?_, List.forall_mem_nil _,
        .cons ?_ (.escape hescape.cooked) hfs', ?_⟩
      · rw [List.flatten_cons, hes, Fragment.spelled_cons, hspelled, List.nil_append]
      · rw [hs, Fragment.denoted_cons, hdenoted]
        rfl
      · refine (interior_quote q).fits_escape hescape.marks fun hprefix => ?_
        have hhead := List.head?_eq_some_iff.mp (hmark (Fragment.spelled fs' ++ [q]))
        obtain ⟨more, hmore⟩ := hhead
        rw [hmore] at hprefix
        exact (ne_of_isQuote hq).1 (List.cons_prefix_cons.mp hprefix).1
      · rw [Fragment.spelled_cons, List.append_assoc]
        exact View.bodyLength_of_backslash (hmark _)

/-- No spelling begins with the quote. -/
theorem head?_flatten_of_spells (hq : View.isQuote q = true) {es : List Text}
    (h : List.Forall₂ (Spells q) s es) : es.flatten.head? ≠ some q := by
  cases h with
  | nil => exact fun hhead => by cases hhead
  | @cons c e s es hc _ =>
    rw [List.flatten_cons, List.head?_append]
    rcases hc.cases_escapes with ⟨rfl, hquote, -⟩ | hescape
    · exact fun hhead => hquote (Option.some.inj hhead)
    · rw [hescape.marks.head?_eq]
      exact fun hhead => (ne_of_isQuote hq).1 (Option.some.inj hhead).symm

namespace Source

variable {spellings : List Text}

/-- **String literals denote any text.** However the characters of a text are spelled, a source that is
their spellings between two equal quotes, and is not oversized, is lexed to one item, the atom of that text,
which spans the source. -/
theorem denotes_of_spells (config : LexerConfig) (name : Option String) (hq : View.isQuote q = true)
    (h : List.Forall₂ (Spells q) s spellings)
    (hsize : size ⟨q :: (spellings.flatten ++ [q]), name⟩ ≤ Span.limit) :
    Denotes config ⟨q :: (spellings.flatten ++ [q]), name⟩ s := by
  obtain ⟨t, fs, hes, hs, ht, hfs, hstops⟩ := exists_reads_of_spells hq h
  obtain ⟨fs', hfs', hspelled, hdenoted⟩ :=
    (interior_quote q).exists_reads_text hfs (bodyLength_plain ht hstops)
  have hopens : Scan.Opens config .stringOpener [q] (Fragment.spelled fs' ++ [q])
      (.stringBody 0 (.quotes [q])) := by
    refine Scan.opens_quotes (n := 1) config hq rfl ?_
    rw [hspelled, ← hes]
    exact head?_flatten_of_spells hq h
  have hcloser : Context.Fits (.stringBody 0 (.quotes [q])) .stringCloser [q] [] :=
    (interior_quote q).fits_closer fun _ =>
      ⟨fun heq => (ne_of_isQuote hq).1 (Option.some.inj heq),
        fun heq => (ne_of_isQuote hq).2 (Option.some.inj heq)⟩
  rw [hs, ← hdenoted]
  refine denotes_of_reads rfl hopens hfs' (.inl rfl) hcloser ?_ ?_
  · rw [hspelled, ← hes]
    rfl
  · refine encodingIssues_eq_nil_iff.mpr ⟨?_, hsize⟩
    rcases View.eq_of_isQuote hq with rfl | rfl <;> rfl

/-- A letter, a newline by its name, a quote behind a backslash and a letter of two bytes by its code point
with a capital among its digits. -/
theorem denotes_of_spells_of_four :
    let s : Text := ['a', '\n', '"', 'é']
    let spellings : List Text := [['a'], ['\\', 'n'], ['\\', '"'], ['\\', 'u', '0', '0', 'E', '9']]
    View.isQuote '"' = true ∧ List.Forall₂ (Spells '"') s spellings ∧
    Denotes default ⟨['"', 'a', '\\', 'n', '\\', '"', '\\', 'u', '0', '0', 'E', '9', '"'], none⟩ s := by
  intro s spellings
  have hspells : List.Forall₂ (Spells '"') s spellings :=
    .cons (.itself (by decide) (by decide) (by decide)) (.cons (.named (by decide))
      (.cons (.escaped (by decide)) (.cons (.codePoint (.inl rfl) (by decide) (by decide)) .nil)))
  exact ⟨rfl, hspells, denotes_of_spells default none rfl hspells (by decide)⟩

end Source

end DewyFront
