/-
# DewyFront.Proofs.Openings — what opens a string at the start of a source

At the start of a source only a few kinds of tokens begin with a quote, with a sigil and a quote, or with
a hash sign. Of these the opener of the string is the longest, so it stands there.

* §1 runs of quotes;
* §2 delimiters;
* §3 sigils;
* §4 quotes;
* §5 heredocs.
-/
import DewyFront.Proofs.Brackets
import DewyFront.Proofs.Strings

namespace DewyFront

namespace View

variable {v : View} {q : Char} {t d : Text} {kind : TokenKind} {n : Nat}

/-! ## §1 Runs of quotes -/

theorem runLength_replicate (n : Nat) (ht : t.head? ≠ some q) :
    runLength (· == q) (List.replicate n q ++ t) = n := by
  induction n with
  | zero =>
    cases t with
    | nil => rfl
    | cons c t =>
      have hc : ¬ (c == q) = true := fun heq => ht (congrArg some (eq_of_beq heq))
      simp [runLength, hc]
  | succ n ih =>
    rw [List.replicate_succ, List.cons_append]
    simpa [runLength] using ih

/-- **A run of quotes opens the string that it closes**: an odd run in front of a text that does not begin
with the quote. With nothing between the two runs they are one, and half of it opens. -/
theorem quoteRun_replicate (hq : isQuote q = true) (hn : n % 2 = 1) (ht : t.head? ≠ some q) :
    quoteRun (List.replicate n q ++ (t ++ List.replicate n q)) = some n := by
  obtain ⟨m, rfl⟩ : ∃ m, n = m + 1 := ⟨n - 1, by omega⟩
  rw [List.replicate_succ, List.cons_append, quoteRun, if_pos hq]
  dsimp only
  cases t with
  | nil =>
    have hrun : runLength (· == q) (List.replicate m q ++ ([] ++ q :: List.replicate m q)) =
        m + (m + 1) := by
      have hlength := runLength_replicate (q := q) (t := []) (m + (m + 1)) (by simp)
      rw [List.replicate_add, List.append_nil] at hlength
      exact hlength
    rw [hrun, if_pos (by omega)]
    congr 1
    omega
  | cons c t =>
    have hrun := runLength_replicate (t := c :: t ++ (q :: List.replicate m q)) m ht
    rw [hrun, if_neg (by omega)]
    congr 1
    omega

/-! ## §2 Delimiters -/

/-- **`IsDelimiter`** — characters of delimiters, with no space at either end. -/
structure IsDelimiter (d : Text) : Prop where
  nonempty : d ≠ []
  characters : ∀ c ∈ d, Lexicon.isDelimiterCharacter c = true
  front : d.head? ≠ some ' '
  back : d.getLast? ≠ some ' '

instance (d : Text) : Decidable (IsDelimiter d) :=
  decidable_of_iff (d ≠ [] ∧ d.all Lexicon.isDelimiterCharacter = true ∧ d.head? ≠ some ' ' ∧
    d.getLast? ≠ some ' ')
    ⟨fun h => ⟨h.1, List.all_eq_true.mp h.2.1, h.2.2.1, h.2.2.2⟩,
      fun h => ⟨h.nonempty, List.all_eq_true.mpr h.characters, h.front, h.back⟩⟩

theorem isDelimiterCharacter_of_isQuote (hq : isQuote q = true) :
    Lexicon.isDelimiterCharacter q = false := by
  rcases eq_of_isQuote hq with rfl | rfl <;> decide

/-- What stands in front of the second quote is the delimiter. -/
theorem takeWhile_quote (hq : isQuote q = true)
    (hd : ∀ c ∈ d, Lexicon.isDelimiterCharacter c = true) (t : Text) :
    (d ++ q :: t).takeWhile Lexicon.isDelimiterCharacter = d ∧
      (d ++ q :: t).dropWhile Lexicon.isDelimiterCharacter = q :: t := by
  have hstop := Bool.eq_false_iff.mp (isDelimiterCharacter_of_isQuote hq)
  rw [List.takeWhile_append_of_pos hd, List.dropWhile_append_of_pos hd,
    List.takeWhile_cons_of_neg hstop, List.dropWhile_cons_of_neg hstop, List.append_nil]
  exact ⟨rfl, rfl⟩

/-- **A delimiter between quotes opens a heredoc.** -/
theorem heredoc_of_isDelimiter (hd : IsDelimiter d) (hq : isQuote q = true) {sigil : Text}
    (hrest : v.rest = sigil ++ q :: (d ++ q :: t)) :
    v.heredoc sigil = .ok (some (sigil.length + d.length + 2)) := by
  obtain ⟨htake, hdrop⟩ := takeWhile_quote hq hd.characters t
  obtain ⟨c, d', rfl⟩ := List.exists_cons_of_ne_nil hd.nonempty
  have hspace : ¬ (c :: d').all (· == ' ') = true := by
    intro hall
    have hc : c = ' ' := eq_of_beq (List.all_eq_true.mp hall c List.mem_cons_self)
    exact hd.front (congrArg some hc)
  have hedge : ¬ ((c :: d').head? = some ' ' ∨ (c :: d').getLast? = some ' ') :=
    not_or.mpr ⟨hd.front, hd.back⟩
  have hquote : ¬ (!isQuote q || (c :: d').isEmpty) = true := by
    rw [hq]
    exact Bool.false_ne_true
  have hnext : ¬ (q :: t).head? ≠ some q := not_not.mpr rfl
  rw [heredoc_of_quote hrest, htake, hdrop, if_neg hquote, if_neg hnext, if_neg hspace, if_neg hedge]

/-- **What a heredoc opens with is a delimiter**, if it is taken up to the second quote. -/
theorem isDelimiter_of_heredoc {sigil : Text} (hrest : v.rest = sigil ++ q :: (d ++ q :: t))
    (h : v.heredoc sigil = .ok (some (sigil.length + d.length + 2))) : IsDelimiter d := by
  obtain ⟨quote, delimiter, more, hopener, -, hne, hall, hhead, hlast, hlength⟩ := exists_of_heredoc h
  -- Both read the same text, and their delimiters are of the same length.
  have hbody := List.append_cancel_left (hrest.symm.trans hopener)
  obtain ⟨rfl, hbody⟩ := List.cons.inj hbody
  obtain ⟨rfl, -⟩ := List.append_inj hbody (by omega)
  exact ⟨hne, hall, hhead, hlast⟩

/-! ## §3 Sigils -/

/-- **`TakesAtMost`** — a kind is not refused, and takes no more than so many characters. -/
def TakesAtMost (v : View) (kind : TokenKind) (n : Nat) : Prop :=
  ∃ found, v.matchKind kind = .ok found ∧ ∀ k, found = some k → k ≤ n

theorem TakesAtMost.of_none (h : v.matchKind kind = .ok none) : v.TakesAtMost kind n :=
  ⟨none, h, fun _ hk => by cases hk⟩

theorem TakesAtMost.of_some (h : v.matchKind kind = .ok (some n)) : v.TakesAtMost kind n :=
  ⟨some n, h, fun _ hk => Nat.le_of_eq (Option.some.inj hk).symm⟩

end View

namespace Scan

variable {config : LexerConfig} {q c : Char} {t d rest run : Text} {kind opener : TokenKind} {n : Nat}
  {context : Context}

/-- **What opens a string takes more than its sigil**, and whatever else begins there takes no more than
that. -/
theorem opens_of_sigil (sigil : Text) (hopener : opener.awaitsCloser = true)
    (hlegal : opener.isLegalIn .root = true) (hbegins : context? opener 0 (sigil ++ run) = some context)
    (hrun : run ≠ [])
    (htaken : (Scan.start.view config (sigil ++ run ++ rest)).matchKind opener =
      .ok (some (sigil ++ run).length))
    (hothers : ∀ kind, kind.isLegalIn .root = true → kind ≠ opener →
      (Scan.start.view config (sigil ++ run ++ rest)).TakesAtMost kind sigil.length) :
    Opens config opener (sigil ++ run) rest context := by
  refine ⟨hopener, hbegins, stands_of_longest hlegal htaken fun kind hkind hne => ?_⟩
  obtain ⟨found, hfound, hle⟩ := hothers kind hkind hne
  refine ⟨found, hfound, fun k hk => Nat.lt_of_le_of_lt (hle k hk) ?_⟩
  show sigil.length < (sigil ++ run).length
  have hpos := List.length_pos_iff.mpr hrun
  rw [List.length_append]
  omega

/-! ## §4 Quotes -/

/-- At a quote only strings begin. -/
theorem takesAtMost_quote (hq : View.isQuote q = true) (hlegal : kind.isLegalIn .root = true)
    (hkind : kind ≠ .stringOpener) : (Scan.start.view config (q :: t)).TakesAtMost kind n := by
  refine .of_none ?_
  cases kind with
  | stringOpener => exact absurd rfl hkind
  | rightBracket | rightParen | rightBrace | rightAngle | stringCloser | heredocCloser | stringText
  | stringEscape | holeEscape | rawStringText | basedStringText => cases hlegal
  | _ => rcases View.eq_of_isQuote hq with rfl | rfl <;> rfl

/-- At the sigil of a raw string begins a name besides, of one letter. -/
theorem takesAtMost_raw_quote (hq : View.isQuote q = true) (hlegal : kind.isLegalIn .root = true)
    (hkind : kind ≠ .rawStringOpener) :
    (Scan.start.view config ('r' :: q :: t)).TakesAtMost kind 1 := by
  cases kind with
  | rawStringOpener => exact absurd rfl hkind
  | name => exact .of_some (by rcases View.eq_of_isQuote hq with rfl | rfl <;> rfl)
  | rightBracket | rightParen | rightBrace | rightAngle | stringCloser | heredocCloser | stringText
  | stringEscape | holeEscape | rawStringText | basedStringText => cases hlegal
  | _ => exact .of_none (by rcases View.eq_of_isQuote hq with rfl | rfl <;> rfl)

/-- **Quotes open a string.** -/
theorem opens_quotes (config : LexerConfig) (hq : View.isQuote q = true) (hn : n % 2 = 1)
    (ht : t.head? ≠ some q) : Opens config .stringOpener (List.replicate n q) (t ++ List.replicate n q)
      (.stringBody 0 (.quotes (List.replicate n q))) := by
  have hrun := View.quoteRun_replicate hq hn ht
  obtain ⟨m, rfl⟩ : ∃ m, n = m + 1 := ⟨n - 1, by omega⟩
  refine opens_of_sigil [] rfl rfl rfl (List.cons_ne_nil q _) ?_ fun kind hlegal hkind =>
    takesAtMost_quote hq hlegal hkind
  rw [List.nil_append, List.length_cons, List.length_replicate]
  exact congrArg _ hrun

/-- **Quotes behind the sigil open a raw string.** -/
theorem opens_raw_quotes (config : LexerConfig) (hq : View.isQuote q = true) (hn : n % 2 = 1)
    (ht : t.head? ≠ some q) :
    Opens config .rawStringOpener ('r' :: List.replicate n q) (t ++ List.replicate n q)
      (.rawStringBody 0 (.quotes (List.replicate n q))) := by
  have hrun := congrArg (Option.map (· + 1)) (View.quoteRun_replicate hq hn ht)
  obtain ⟨m, rfl⟩ : ∃ m, n = m + 1 := ⟨n - 1, by omega⟩
  refine opens_of_sigil ['r'] rfl rfl rfl (List.cons_ne_nil q _) ?_ fun kind hlegal hkind =>
    takesAtMost_raw_quote hq hlegal hkind
  rw [List.singleton_append, List.length_cons, List.length_cons, List.length_replicate]
  exact congrArg _ hrun

/-! ## §5 Heredocs -/

/-- At a hash sign, a quote and no other quote only heredocs begin. -/
theorem takesAtMost_hash_quote (hq : View.isQuote q = true) (hc : View.isQuote c = false)
    (hlegal : kind.isLegalIn .root = true) (hkind : kind ≠ .heredocOpener) :
    (Scan.start.view config ('#' :: q :: c :: t)).TakesAtMost kind n := by
  refine .of_none ?_
  have hquotes : c ≠ '"' ∧ c ≠ '\'' := by simpa [View.isQuote] using hc
  cases kind with
  | heredocOpener => exact absurd rfl hkind
  | restOfFileOpener =>
    show Except.ok (View.either "#\"\"\"" "#'''" ('#' :: q :: c :: t)) = _
    have hnone : View.either "#\"\"\"" "#'''" ('#' :: q :: c :: t) = none := by
      simp [View.either, hquotes.1.symm, hquotes.2.symm]
    rw [hnone]
  | rightBracket | rightParen | rightBrace | rightAngle | stringCloser | heredocCloser | stringText
  | stringEscape | holeEscape | rawStringText | basedStringText => cases hlegal
  | _ => rcases View.eq_of_isQuote hq with rfl | rfl <;> rfl

/-- With the sigil of raw strings between them a hashtag begins besides, of the two characters. -/
theorem takesAtMost_hash_raw_quote (hq : View.isQuote q = true) (hc : View.isQuote c = false)
    (hlegal : kind.isLegalIn .root = true) (hkind : kind ≠ .rawHeredocOpener) :
    (Scan.start.view config ('#' :: 'r' :: q :: c :: t)).TakesAtMost kind 2 := by
  have hquotes : c ≠ '"' ∧ c ≠ '\'' := by simpa [View.isQuote] using hc
  cases kind with
  | rawHeredocOpener => exact absurd rfl hkind
  | rawRestOfFileOpener =>
    refine .of_none ?_
    show Except.ok (View.either "#r\"\"\"" "#r'''" ('#' :: 'r' :: q :: c :: t)) = _
    have hnone : View.either "#r\"\"\"" "#r'''" ('#' :: 'r' :: q :: c :: t) = none := by
      simp [View.either, hquotes.1.symm, hquotes.2.symm]
    rw [hnone]
  | hashtag => exact .of_some (by rcases View.eq_of_isQuote hq with rfl | rfl <;> rfl)
  | rightBracket | rightParen | rightBrace | rightAngle | stringCloser | heredocCloser | stringText
  | stringEscape | holeEscape | rawStringText | basedStringText => cases hlegal
  | _ => exact .of_none (by rcases View.eq_of_isQuote hq with rfl | rfl <;> rfl)

/-- A delimiter begins with no quote. -/
theorem isQuote_of_isDelimiter (hd : View.IsDelimiter (c :: d)) : View.isQuote c = false := by
  by_contra hquote
  have hstop := View.isDelimiterCharacter_of_isQuote (Bool.not_eq_false _ ▸ hquote)
  rw [hd.characters c List.mem_cons_self] at hstop
  cases hstop

/-- **A sigil and a delimiter between quotes open a heredoc**, where nothing else takes more than the
sigil. -/
theorem opens_heredoc (sigil : Text) (hq : View.isQuote q = true) (hd : View.IsDelimiter d)
    (rest : Text) (hopener : opener.awaitsCloser = true) (hlegal : opener.isLegalIn .root = true)
    (hbegins : context? opener 0 (sigil ++ q :: (d ++ [q])) = some context)
    (hmatch : ∀ v : View, v.matchKind opener = v.heredoc sigil)
    (hothers : ∀ c t kind, View.isQuote c = false → kind.isLegalIn .root = true → kind ≠ opener →
      (Scan.start.view config (sigil ++ q :: c :: t)).TakesAtMost kind sigil.length) :
    Opens config opener (sigil ++ q :: (d ++ [q])) rest context := by
  have htext : sigil ++ q :: (d ++ [q]) ++ rest = sigil ++ q :: (d ++ q :: rest) := by simp
  refine opens_of_sigil sigil hopener hlegal hbegins (List.cons_ne_nil q _) ?_ fun kind hlegal hkind => ?_
  · have hlength : (sigil ++ q :: (d ++ [q])).length = sigil.length + d.length + 2 := by
      simp only [List.length_cons, List.length_append, List.length_nil]
      omega
    rw [hmatch, hlength]
    exact View.heredoc_of_isDelimiter (t := rest) hd hq htext
  · obtain ⟨c, d, rfl⟩ := List.exists_cons_of_ne_nil hd.nonempty
    rw [htext]
    exact hothers c _ kind (isQuote_of_isDelimiter hd) hlegal hkind

/-- **A hash sign and a delimiter between quotes open a heredoc.** -/
theorem opens_delimiter (config : LexerConfig) (hq : View.isQuote q = true) (hd : View.IsDelimiter d)
    (rest : Text) : Opens config .heredocOpener ('#' :: q :: (d ++ [q])) rest
      (.stringBody 0 (.delimiter d)) := by
  have hbegins : context? .heredocOpener 0 ('#' :: q :: (d ++ [q])) =
      some (.stringBody 0 (.delimiter d)) := by
    simp [context?]
  exact opens_heredoc ['#'] hq hd rest rfl rfl hbegins (fun _ => rfl) fun _ _ _ hc hlegal hkind =>
    takesAtMost_hash_quote hq hc hlegal hkind

/-- **With the sigil of raw strings they open a raw heredoc.** -/
theorem opens_raw_delimiter (config : LexerConfig) (hq : View.isQuote q = true)
    (hd : View.IsDelimiter d) (rest : Text) :
    Opens config .rawHeredocOpener ('#' :: 'r' :: q :: (d ++ [q])) rest
      (.rawStringBody 0 (.delimiter d)) := by
  have hbegins : context? .rawHeredocOpener 0 ('#' :: 'r' :: q :: (d ++ [q])) =
      some (.rawStringBody 0 (.delimiter d)) := by
    simp [context?]
  exact opens_heredoc ['#', 'r'] hq hd rest rfl rfl hbegins (fun _ => rfl) fun _ _ _ hc hlegal hkind =>
    takesAtMost_hash_raw_quote hq hc hlegal hkind

end Scan

end DewyFront
