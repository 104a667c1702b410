/-
# DewyFront.Proofs.Trailing — matches with a closing delimiter behind the text

A character that closes blocks, or one that ends lines, is in no name, number, symbol or opener. So these
are the same with such a character behind the text, whatever follows it. With a closing delimiter there
every matcher that matches takes as much, but for those that read on to the end: a comment that lacks its
newline, a string that is not ended, and the delimiter of a heredoc.

* §1 runs and prefixes;
* §2 the lexicon;
* §3 strings and numbers;
* §4 matchers.
-/
import DewyFront.Proofs.Matching
import Mathlib.Data.List.TakeWhile

namespace DewyFront

/-- **`IsBlockCloser`** — the characters that close blocks. -/
def IsBlockCloser (c : Char) : Prop := c = ')' ∨ c = ']' ∨ c = '\x7d'

/-- The characters that end lines: a newline, and a carriage return. -/
def IsLineBreak (c : Char) : Prop := c = '\n' ∨ c = '\r'

/-- **`IsOutside`** — characters that are in no name, number, symbol or opener. -/
def IsOutside (c : Char) : Prop := IsBlockCloser c ∨ IsLineBreak c

variable {c : Char} {t : Text}

/-- What can be checked of each of them holds of all. -/
@[elab_as_elim] theorem IsOutside.forall {p : Char → Prop} (hc : IsOutside c)
    (h : p ')' ∧ p ']' ∧ p '\x7d' ∧ p '\n' ∧ p '\r') : p c := by
  obtain ⟨hparen, hbracket, hbrace, hnewline, hreturn⟩ := h
  rcases hc with (rfl | rfl | rfl) | (rfl | rfl) <;> assumption

/-! ## §1 Runs and prefixes -/

/-- A run that ends within a text ends there whatever follows. -/
theorem runLength_append_of_lt {p : Char → Bool} (h : runLength p t < t.length) (more : Text) :
    runLength p (t ++ more) = runLength p t := by
  induction t with
  | nil => cases h
  | cons d t ih =>
    unfold runLength at ih h ⊢
    rw [List.takeWhile_cons] at h
    rw [List.cons_append, List.takeWhile_cons, List.takeWhile_cons]
    split
    · next hd =>
      rw [if_pos hd, List.length_cons, List.length_cons] at h
      rw [List.length_cons, List.length_cons, ih (Nat.lt_of_succ_lt_succ h)]
    · rfl

/-- A run through a whole text meets only what it is a run of. -/
theorem of_runLength_eq {p : Char → Bool} (h : t.length ≤ runLength p t) : ∀ d ∈ t, p d = true := by
  exact List.takeWhile_eq_self_iff.mp
    ((List.takeWhile_prefix p).eq_of_length (Nat.le_antisymm (runLength_le p t) h))

/-- What begins a text and is not longer than its front begins the front. -/
theorem isPrefixOf_append_iff {s : Text} (hs : s.length ≤ t.length) (x : Text) :
    s.isPrefixOf (t ++ x) = s.isPrefixOf t := by
  rw [Bool.eq_iff_iff, List.isPrefixOf_iff_prefix, List.isPrefixOf_iff_prefix]
  exact ⟨fun h => List.prefix_of_prefix_length_le h (List.prefix_append t x) hs,
    fun h => h.trans (List.prefix_append t x)⟩

/-- What begins a text and is longer than a front of it has the next character. -/
theorem mem_of_isPrefixOf {s x : Text} (h : s.isPrefixOf (t ++ c :: x) = true)
    (hs : t.length < s.length) : c ∈ s ∧ ∀ a ∈ t, a ∈ s := by
  have hfront : t ++ [c] <+: s := by
    refine List.prefix_of_prefix_length_le ?_ (List.isPrefixOf_iff_prefix.mp h) ?_
    · exact ⟨x, by rw [List.append_assoc]; rfl⟩
    · rw [List.length_append]
      exact hs
  exact ⟨hfront.subset (List.mem_append_right t (List.mem_singleton_self c)),
    fun a ha => hfront.subset (List.mem_append_left _ ha)⟩

/-- A spelling without a character begins no more texts with that character behind them. -/
theorem isPrefixOf_append_cons {s : Text} (hs : c ∉ s) (t x : Text) :
    s.isPrefixOf (t ++ c :: x) = s.isPrefixOf t := by
  by_cases hlength : s.length ≤ t.length
  · exact isPrefixOf_append_iff hlength _
  · rw [Bool.eq_false_iff.mpr fun h => hlength (length_le_of_isPrefixOf h)]
    exact Bool.eq_false_iff.mpr fun h => hs (mem_of_isPrefixOf h (Nat.lt_of_not_le hlength)).1

/-- A stretch that ends within a text ends there whatever follows. -/
theorem takeWhile_append_of_dropWhile {p : Char → Bool} (h : t.dropWhile p ≠ []) (more : Text) :
    (t ++ more).takeWhile p = t.takeWhile p := by
  rw [List.takeWhile_append, if_neg]
  intro hlength
  refine h (List.dropWhile_eq_nil_iff.mpr ?_)
  exact of_runLength_eq (Nat.le_of_eq hlength.symm)

/-- A stretch ends in front of a character that it does not take. -/
theorem takeWhile_append_cons {p : Char → Bool} (hc : p c = false) (t x : Text) :
    (t ++ c :: x).takeWhile p = t.takeWhile p := by
  by_cases hends : t.dropWhile p = []
  · have hall := List.dropWhile_eq_nil_iff.mp hends
    rw [List.takeWhile_append_of_pos hall, List.takeWhile_cons_of_neg (Bool.eq_false_iff.mp hc),
      List.append_nil, List.takeWhile_eq_self_iff.mpr hall]
  · exact takeWhile_append_of_dropWhile hends _

theorem runLength_append_cons {p : Char → Bool} (hc : p c = false) (t x : Text) :
    runLength p (t ++ c :: x) = runLength p t :=
  congrArg List.length (takeWhile_append_cons hc t x)

/-- What stands behind such a stretch stands there whatever follows. -/
theorem head?_dropWhile_append {p : Char → Bool} (h : t.dropWhile p ≠ []) (more : Text) :
    ((t ++ more).dropWhile p).head? = (t.dropWhile p).head? := by
  rw [List.dropWhile_append, if_neg (mt List.isEmpty_iff.mp h), List.head?_append_of_ne_nil _ h]

/-- What a check lets pass passes it whatever the error of the check says. -/
theorem pass_of_pass {p : Prop} [Decidable p] {e e' : LexError} {x x' : Except LexError (Option Nat)}
    {found : Option Nat} (h : (if p then .error e else x) = .ok found)
    (hx : x = .ok found → x' = .ok found) : (if p then .error e' else x') = .ok found := by
  by_cases hp : p
  · rw [if_pos hp] at h
    cases h
  · rw [if_neg hp] at h ⊢
    exact hx h

/-! ## §2 The lexicon -/

theorem Radix.isDigit_outside (hc : IsOutside c) (base : Radix) : base.isDigit c = false := by
  refine hc.forall ?_
  cases base <;> decide

theorem Radix.ofLead?_append_cons (hc : IsOutside c) (t x : Text) :
    ofLead? (t ++ c :: x) = ofLead? t := by
  have hletter : ofLetter? c = none := hc.forall (by decide)
  rcases t with _ | ⟨a, _ | ⟨b, t⟩⟩
  · refine hc.forall ?_
    simp [ofLead?]
  · by_cases ha : a = '0'
    · subst ha
      exact hletter
    · simp [ofLead?, ha]
  · by_cases ha : a = '0'
    · subst ha
      rfl
    · simp [ofLead?, ha]

namespace Lexicon

theorem nameLength_append_cons (hc : IsOutside c) (t x : Text) :
    nameLength (t ++ c :: x) = nameLength t := by
  have hdecoration : isDecoration c = false := hc.forall (by decide)
  have hstart : isNameStart c = false := hc.forall (by decide)
  have hcontinue : isNameContinue c = false := hc.forall (by decide)
  have hdrop : (t ++ c :: x).drop (runLength isDecoration t) =
      t.drop (runLength isDecoration t) ++ c :: x :=
    List.drop_append_of_le_length (runLength_le _ _)
  unfold nameLength
  rw [runLength_append_cons hdecoration]
  dsimp only
  rw [hdrop]
  cases t.drop (runLength isDecoration t) with
  | nil =>
    -- Behind nothing but decorations the character would have to begin the name.
    rw [List.nil_append]
    dsimp only
    rw [hstart, if_neg Bool.false_ne_true]
  | cons d rest =>
    rw [List.cons_append]
    dsimp only
    rw [runLength_append_cons (by rw [hcontinue, hdecoration]; rfl)]

theorem longestOf_append_cons {table : List Text} (h : ∀ s ∈ table, c ∉ s) (t x : Text) :
    longestOf table (t ++ c :: x) = longestOf table t := by
  unfold longestOf
  exact List.foldl_ext _ _ 0 fun best s hs => by rw [isPrefixOf_append_cons (h s hs)]

theorem symbolLength_append_cons (hc : IsOutside c) (t x : Text) :
    symbolLength (t ++ c :: x) = symbolLength t := by
  have hsymbols : ∀ s ∈ symbols, c ∉ s := hc.forall (by decide)
  exact longestOf_append_cons hsymbols t x

theorem shiftLength_append_cons (hc : IsOutside c) (t x : Text) :
    shiftLength (t ++ c :: x) = shiftLength t := by
  have hshifts : ∀ s ∈ shifts, c ∉ s := hc.forall (by decide)
  exact longestOf_append_cons hshifts t x

/-- Without a brace behind the percent sign a comment goes on to its newline, or to the end. -/
theorem lineCommentLength_percent (h : t.head? ≠ some '{') : lineCommentLength ('%' :: t) =
    if runLength (· != '\n') t < t.length then runLength (· != '\n') t + 2
    else runLength (· != '\n') t + 1 := by
  rw [lineCommentLength]
  rintro more rfl
  exact h rfl

/-- A line comment ends where it did, unless it lacks its newline. -/
theorem lineCommentLength_concat (hc : IsBlockCloser c) (ht : t ≠ [])
    (h : lineCommentLength t = t.length → '\n' ∈ t) :
    lineCommentLength (t ++ [c]) = lineCommentLength t := by
  have hbrace : c ≠ '{' := by rcases hc with rfl | rfl | rfl <;> decide
  obtain ⟨a, rest, rfl⟩ := List.exists_cons_of_ne_nil ht
  by_cases ha : a = '%'
  · subst ha
    by_cases hopens : rest.head? = some '{'
    · obtain ⟨more, rfl⟩ := List.head?_eq_some_iff.mp hopens
      rfl
    · have hconcat : (rest ++ [c]).head? ≠ some '{' := by
        cases rest with
        | nil => exact fun h => hbrace (Option.some.inj h)
        | cons b rest => exact hopens
      rw [lineCommentLength_percent hopens] at h ⊢
      rw [List.cons_append, lineCommentLength_percent hconcat]
      by_cases hlt : runLength (· != '\n') rest < rest.length
      · rw [runLength_append_of_lt hlt, if_pos hlt, List.length_append, List.length_singleton,
          if_pos (by omega)]
      · have hle := runLength_le (· != '\n') rest
        rw [if_neg hlt, List.length_cons] at h
        have hmem := (List.mem_cons.mp (h (by omega))).resolve_left (by decide)
        exact absurd (of_runLength_eq (Nat.le_of_not_lt hlt) _ hmem) (by decide)
  · simp [lineCommentLength, ha]

/-- A comment that is closed is closed whatever follows. -/
theorem scanNested_append {openers : List Nat} {chars bytes n : Nat} (more : Text)
    (h : scanNested openers chars bytes t = .closed n) :
    scanNested openers chars bytes (t ++ more) = .closed n := by
  fun_induction scanNested openers chars bytes t with
  | case1 openers chars bytes rest ih =>
    rw [List.cons_append, List.cons_append, scanNested]
    exact ih h
  | case2 chars bytes rest first outer inner ih =>
    rw [List.cons_append, List.cons_append, scanNested]
    exact ih h
  | case3 openers chars bytes rest hopeners =>
    rw [List.cons_append, List.cons_append, scanNested, ← h]
    exact hopeners
  | case4 openers chars bytes d rest hopens hcloses ih =>
    cases rest with
    | nil => cases h
    | cons b rest =>
      -- Two characters are looked at, and both are there already.
      have hrest := ih h
      rw [List.cons_append] at hrest ⊢
      rw [List.cons_append, scanNested]
      · exact hrest
      · rintro more' rfl heq
        cases heq
        exact hopens rest rfl rfl
      · rintro more' rfl heq
        cases heq
        exact hcloses rest rfl rfl
  | case5 => cases h

theorem scanNested_ne_absent (openers : List Nat) (chars bytes : Nat) (t : Text) :
    scanNested openers chars bytes t ≠ .absent := by
  fun_induction scanNested openers chars bytes t with
  | case1 _ _ _ _ ih | case2 _ _ _ _ _ _ ih | case4 _ _ _ _ _ _ _ ih => exact ih
  | case3 | case5 => exact fun h => by cases h

/-- A block comment is the same with a closer behind it, if it is closed. -/
theorem scanComment_concat (hc : IsBlockCloser c) (ht : t ≠ [])
    (h : ∀ openers, scanComment t ≠ .unterminated openers) : scanComment (t ++ [c]) = scanComment t := by
  have hbrace : c ≠ '{' := by rcases hc with rfl | rfl | rfl <;> decide
  obtain ⟨a, rest, rfl⟩ := List.exists_cons_of_ne_nil ht
  by_cases hopens : a = '%' ∧ rest.head? = some '{'
  · obtain ⟨rfl, hhead⟩ := hopens
    obtain ⟨more, rfl⟩ := List.head?_eq_some_iff.mp hhead
    rw [List.cons_append, List.cons_append, scanComment, scanComment]
    cases hscan : scanNested [0] 2 2 more with
    | closed n => exact scanNested_append [c] hscan
    | absent => exact absurd hscan (scanNested_ne_absent _ _ _ _)
    | unterminated openers => exact absurd hscan (h openers)
  · have habsent : ∀ rest : Text, ¬ (a = '%' ∧ rest.head? = some '{') →
        scanComment (a :: rest) = .absent := by
      intro rest hrest
      rw [scanComment]
      intro more heq
      cases heq
      exact hrest ⟨rfl, rfl⟩
    rw [habsent rest hopens, List.cons_append, habsent]
    rintro ⟨ha, hhead⟩
    cases rest with
    | nil => exact hbrace (Option.some.inj hhead)
    | cons b rest => exact hopens ⟨ha, hhead⟩

end Lexicon

namespace View

/-! ## §3 Strings and numbers -/

/-- Quotes end in front of what is none. -/
theorem quoteRun_append_cons (hc : isQuote c = false) (t x : Text) :
    quoteRun (t ++ c :: x) = quoteRun t := by
  cases t with
  | nil => simp [quoteRun, hc]
  | cons q t =>
    rw [List.cons_append, quoteRun, quoteRun]
    by_cases hq : isQuote q = true
    · have hne : (c == q) = false := by
        refine beq_false_of_ne ?_
        rintro rfl
        rw [hc] at hq
        cases hq
      have hrun := runLength_append_cons (p := (· == q)) hne t x
      rw [if_pos hq, if_pos hq, hrun]
    · rw [if_neg hq, if_neg hq]

theorem isQuote_outside (hc : IsOutside c) : isQuote c = false := hc.forall (by decide)

/-- The text of a string ends before what ends the string. -/
theorem bodyLength_le_of_infix {d : Text} (hasHoles : Bool) (h : d <:+: t) :
    d.length + bodyLength (some d) hasHoles t ≤ t.length := by
  induction t with
  | nil => rw [List.eq_nil_of_infix_nil h]; rfl
  | cons a t ih =>
    rw [bodyLength]
    split
    · exact h.length_le
    · next hgoes =>
      rw [Option.any_some, Bool.or_eq_true, not_or] at hgoes
      rcases List.infix_cons_iff.mp h with hbegins | hwithin
      · exact absurd (List.isPrefixOf_iff_prefix.mpr hbegins) hgoes.2
      · have hrest := ih hwithin
        rw [List.length_cons]
        omega

/-- The text of a string ends where it did, if what ends the string is still to come. -/
theorem bodyLength_concat {d : Text} (hasHoles : Bool) (h : d <:+: t) (c : Char) :
    bodyLength (some d) hasHoles (t ++ [c]) = bodyLength (some d) hasHoles t := by
  have hle := bodyLength_le_of_infix hasHoles h
  clear h
  induction t with
  | nil =>
    obtain rfl : d = [] := List.eq_nil_of_length_eq_zero (Nat.le_zero.mp (Nat.le_of_add_right_le hle))
    simp [bodyLength]
  | cons a t ih =>
    have hbegins : d.isPrefixOf (a :: t ++ [c]) = d.isPrefixOf (a :: t) :=
      isPrefixOf_append_iff (Nat.le_of_add_right_le hle) [c]
    rw [List.cons_append] at hbegins
    rw [bodyLength] at hle
    rw [List.cons_append, bodyLength, bodyLength, Option.any_some, Option.any_some, hbegins]
    split
    · rfl
    · next hgoes =>
      rw [Option.any_some, if_neg hgoes, List.length_cons] at hle
      rw [ih (by omega)]

theorem single_concat (d : Char) (ht : t ≠ []) : single d (t ++ [c]) = single d t := by
  rw [single, single, List.head?_append_of_ne_nil t ht]

/-- A backslash and what it governs. -/
theorem escape_of_rest {v : View} {b : Char} (h : v.rest = '\\' :: b :: t) : v.escape =
    if b = 'u' ∨ b = 'U' then
      if t.head? = some '{' then .ok none
      else if min (runLength isHexDigit t) escapeDigits < escapeDigits then
        .error (.shortEscape v.start ('\\' :: b :: t.take (min (runLength isHexDigit t) escapeDigits))
          escapeDigits)
      else .ok (some (2 + escapeDigits))
    else .ok (some 2) := by
  rw [escape, h]
  rfl

theorem escape_of_head {v : View} (h : v.rest.head? ≠ some '\\') : v.escape = .ok none := by
  unfold escape
  split
  · next heq => exact absurd (by rw [heq]; rfl) h
  · next heq => exact absurd (by rw [heq]; rfl) h
  · rfl

/-- An escape that is whole is the same with a closer behind it. -/
theorem escape_concat (hc : IsBlockCloser c) {v v' : View} (hrest : v'.rest = v.rest ++ [c])
    (hv : v.rest ≠ []) {found : Option Nat} (h : v.escape = .ok found) : v'.escape = .ok found := by
  have hdigit : isHexDigit c = false := Radix.isDigit_outside (.inl hc) .hexadecimal
  by_cases hhead : v.rest.head? = some '\\'
  · obtain ⟨rest, hsplit⟩ := List.head?_eq_some_iff.mp hhead
    cases rest with
    | nil =>
      rw [escape, hsplit] at h
      cases h
    | cons b t =>
      have hsplit' : v'.rest = '\\' :: b :: (t ++ [c]) := by rw [hrest, hsplit]; rfl
      rw [escape_of_rest hsplit] at h
      rw [escape_of_rest hsplit']
      by_cases hb : b = 'u' ∨ b = 'U'
      · rw [if_pos hb] at h ⊢
        cases t with
        | nil => cases h
        | cons d t =>
          rw [List.head?_append_of_ne_nil _ (List.cons_ne_nil d t), runLength_append_cons hdigit]
          split at h
          · next hbrace => rw [if_pos hbrace]; exact h
          · next hbrace =>
            rw [if_neg hbrace]
            exact pass_of_pass h id
      · rw [if_neg hb] at h ⊢
        exact h
  · rw [escape_of_head hhead] at h
    rw [escape_of_head (by rw [hrest, List.head?_append_of_ne_nil _ hv]; exact hhead)]
    exact h

theorem holeEscape_append_cons (hc : IsOutside c) (t x : Text) :
    holeEscape (t ++ c :: x) = holeEscape t := by
  have hbrace : c ≠ '{' := hc.forall (by decide)
  have hslash : c ≠ '\\' := hc.forall (by decide)
  have hu : ¬ (c = 'u' ∨ c = 'U') := hc.forall (by decide)
  rcases t with _ | ⟨a, _ | ⟨b, _ | ⟨d, t⟩⟩⟩
  · simp [holeEscape, hslash]
  · by_cases ha : a = '\\' ∧ x.head? = some '{'
    · obtain ⟨rfl, hhead⟩ := ha
      obtain ⟨more, rfl⟩ := List.head?_eq_some_iff.mp hhead
      exact if_neg hu
    · rw [List.singleton_append, holeEscape]
      · simp [holeEscape]
      · rintro b' more heq
        cases heq
        exact ha ⟨rfl, rfl⟩
  · simp [holeEscape, hbrace]
  · by_cases ha : a = '\\' ∧ d = '{'
    · obtain ⟨rfl, rfl⟩ := ha
      rfl
    · have hnone : ∀ more : Text, holeEscape (a :: b :: d :: more) = none := by
        intro more
        rw [holeEscape]
        intro b' more' heq
        cases heq
        exact ha ⟨rfl, rfl⟩
      rw [List.cons_append, List.cons_append, List.cons_append, hnone, hnone]

/-- Without its sigil there is no heredoc. -/
theorem heredoc_of_not_sigil {v : View} {sigil : Text} (h : sigil.isPrefixOf v.rest = false) :
    v.heredoc sigil = .ok none := by
  rw [heredoc, h]
  rfl

/-- What a heredoc is made of behind its sigil: a quote, a delimiter, and the quote again. -/
theorem heredoc_of_quote {v : View} {sigil : Text} {q : Char} (h : v.rest = sigil ++ q :: t) :
    v.heredoc sigil =
      if (!isQuote q || (t.takeWhile Lexicon.isDelimiterCharacter).isEmpty) = true then .ok none
      else if (t.dropWhile Lexicon.isDelimiterCharacter).head? ≠ some q then
        .error (.incompleteDelimiter v.start sigil q (t.takeWhile Lexicon.isDelimiterCharacter)
          (t.dropWhile Lexicon.isDelimiterCharacter).head?)
      else if (t.takeWhile Lexicon.isDelimiterCharacter).all (· == ' ') = true then
        .error (.blankDelimiter (v.start + width sigil + 1)
          (width (t.takeWhile Lexicon.isDelimiterCharacter)))
      else if (t.takeWhile Lexicon.isDelimiterCharacter).head? = some ' ' ∨
          (t.takeWhile Lexicon.isDelimiterCharacter).getLast? = some ' ' then
        .error (.delimiterEdgeSpace (v.start + width sigil + 1)
          (t.takeWhile Lexicon.isDelimiterCharacter) q)
      else .ok (some (sigil.length + (t.takeWhile Lexicon.isDelimiterCharacter).length + 2)) := by
  have hbegins : sigil.isPrefixOf v.rest = true := by
    rw [h]
    exact List.isPrefixOf_iff_prefix.mpr (List.prefix_append _ _)
  rw [heredoc, hbegins, h, List.drop_left]
  rfl

/-- Without a quote behind its sigil there is no heredoc. -/
theorem heredoc_of_not_quote {v : View} {sigil : Text} (h : v.rest = sigil ++ t)
    (ht : t.head?.any isQuote = false) : v.heredoc sigil = .ok none := by
  cases t with
  | nil =>
    have hbegins : sigil.isPrefixOf v.rest = true := List.isPrefixOf_iff_prefix.mpr ⟨[], h.symm⟩
    rw [heredoc, hbegins, h, List.drop_left]
    rfl
  | cons q t =>
    have hq : isQuote q = false := ht
    rw [heredoc_of_quote h, hq]
    rfl

/-- The opener of a heredoc is the same with a closer behind it, unless the closer would begin its
delimiter. -/
theorem heredoc_concat (hc : IsBlockCloser c) {v v' : View} (hrest : v'.rest = v.rest ++ [c])
    {sigil : Text} (hsigil : c ∉ sigil) (hquote : ∀ q, isQuote q = true → v.rest ≠ sigil ++ [q])
    {found : Option Nat} (h : v.heredoc sigil = .ok found) : v'.heredoc sigil = .ok found := by
  have hnone : isQuote c = false := by rcases hc with rfl | rfl | rfl <;> decide
  cases hbegins : sigil.isPrefixOf v.rest with
  | false =>
    rw [heredoc_of_not_sigil hbegins] at h
    rw [heredoc_of_not_sigil (by rw [hrest, isPrefixOf_append_cons hsigil, hbegins])]
    exact h
  | true =>
    obtain ⟨body, hbody⟩ := List.isPrefixOf_iff_prefix.mp hbegins
    cases body with
    | nil =>
      -- Only the sigil is left, and a closer is no quote.
      have hbody' : v'.rest = sigil ++ [c] := by rw [hrest, ← hbody, List.append_nil]
      rw [heredoc_of_not_quote hbody.symm rfl] at h
      rw [heredoc_of_not_quote hbody' hnone]
      exact h
    | cons q body =>
      have hbody' : v'.rest = sigil ++ q :: (body ++ [c]) := by
        rw [hrest, ← hbody, List.append_assoc, List.cons_append]
      rw [heredoc_of_quote hbody.symm] at h
      rw [heredoc_of_quote hbody']
      by_cases hq : isQuote q = true
      · have hne : body ≠ [] := by
          rintro rfl
          exact hquote q hq hbody.symm
        by_cases hends : body.dropWhile Lexicon.isDelimiterCharacter = []
        · -- The text ends within the delimiter, which is refused.
          have htake : body.takeWhile Lexicon.isDelimiterCharacter = body := by
            have happend :=
              List.takeWhile_append_dropWhile (p := Lexicon.isDelimiterCharacter) (l := body)
            rw [hends, List.append_nil] at happend
            exact happend
          rw [hends, htake, hq, List.isEmpty_eq_false_iff.mpr hne] at h
          cases h
        · rw [takeWhile_append_of_dropWhile hends, head?_dropWhile_append hends]
          split at h
          · next hempty => rw [if_pos hempty]; exact h
          · next hempty =>
            rw [if_neg hempty]
            exact pass_of_pass h fun h => pass_of_pass h fun h => pass_of_pass h id
      · rw [Bool.not_eq_true] at hq
        rw [hq] at h ⊢
        exact h

theorem digitRun_append_cons (hc : IsOutside c) (base : Radix) (t x : Text) :
    digitRun base (t ++ c :: x) = digitRun base t := by
  have hne : (c == '_') = false := hc.forall (by decide)
  exact runLength_append_cons (by rw [Radix.isDigit_outside hc, hne]; rfl) t x

theorem any_isDigit_append_cons (hc : IsOutside c) (base : Radix) (t x : Text) :
    (t ++ c :: x).head?.any base.isDigit = t.head?.any base.isDigit := by
  cases t with
  | nil => exact Radix.isDigit_outside hc base
  | cons d t => rfl

/-- **A number is the same**, and refused for the same digits. -/
theorem numberAt_append_cons (hc : IsOutside c) (v : View) (start : Nat) (t x : Text) :
    v.numberAt start (t ++ c :: x) = v.numberAt start t := by
  unfold numberAt
  rw [Radix.ofLead?_append_cons hc]
  cases hlead : Radix.ofLead? t with
  | none =>
    dsimp only
    rw [any_isDigit_append_cons hc, digitRun_append_cons hc]
  | some base =>
    have hdrop : (t ++ c :: x).drop 2 = t.drop 2 ++ c :: x :=
      List.drop_append_of_le_length (two_le_length_of_ofLead? (by rw [hlead]; rfl))
    have hdigits : (t.drop 2 ++ c :: x).take (digitRun base (t.drop 2)) =
        (t.drop 2).take (digitRun base (t.drop 2)) :=
      List.take_append_of_le_length (runLength_le _ _)
    dsimp only
    rw [hdrop, any_isDigit_append_cons hc, digitRun_append_cons hc, hdigits]

/-- A number depends on the limit and on the base around it, but not on where it begins. -/
theorem numberAt_related {v v' : View} (hconfig : v'.config = v.config)
    (hbase : v'.context.digitBase = v.context.digitBase) (start start' : Nat) (t : Text) :
    Related LexError.SameCode Eq (v.numberAt start t) (v'.numberAt start' t) := by
  unfold numberAt
  cases Radix.ofLead? t with
  | none =>
    dsimp only
    rw [hbase]
    exact .ok rfl
  | some base =>
    dsimp only
    rw [hconfig]
    split
    · split
      · exact .error rfl
      · exact .ok rfl
    · exact .ok rfl

/-! ## §4 Matchers -/

theorem hashtag_append_cons (hc : IsOutside c) (t x : Text) : hashtag (t ++ c :: x) = hashtag t := by
  have hhash : c ≠ '#' := hc.forall (by decide)
  cases t with
  | nil => simp [hashtag, hhash]
  | cons a t =>
    rw [List.cons_append]
    by_cases ha : a = '#'
    · subst ha
      rw [hashtag, hashtag, Lexicon.nameLength_append_cons hc]
    · simp [hashtag, ha]

theorem rawString_append_cons (hc : isQuote c = false) (ht : t ≠ []) (x : Text) :
    rawString (t ++ c :: x) = rawString t := by
  obtain ⟨a, t, rfl⟩ := List.exists_cons_of_ne_nil ht
  rw [List.cons_append]
  by_cases ha : a = 'r'
  · subst ha
    rw [rawString, rawString, quoteRun_append_cons hc]
  · simp [rawString, ha]

theorem basedString_append_cons (hc : IsOutside c) (t x : Text) :
    basedString (t ++ c :: x) = basedString t := by
  rw [basedString, basedString, Radix.ofLead?_append_cons hc]
  split
  · next hlead =>
    rw [List.drop_append_of_le_length (two_le_length_of_ofLead? hlead),
      quoteRun_append_cons (isQuote_outside hc)]
  · rfl

theorem basedBlock_append_cons (hc : IsOutside c) (t x : Text) :
    basedBlock (t ++ c :: x) = basedBlock t := by
  have hbracket : c ≠ '[' := hc.forall (by decide)
  rw [basedBlock, basedBlock, Radix.ofLead?_append_cons hc]
  by_cases hlead : (Radix.ofLead? t).isSome = true
  · have hhead : (t.drop 2 ++ c :: x).head? = some '[' ↔ (t.drop 2).head? = some '[' := by
      cases t.drop 2 with
      | nil => exact iff_of_false (fun h => hbracket (Option.some.inj h)) (fun h => by cases h)
      | cons d t => exact Iff.rfl
    rw [List.drop_append_of_le_length (two_le_length_of_ofLead? hlead)]
    simp only [hlead, true_and, hhead]
  · rw [if_neg (fun h => hlead h.1), if_neg (fun h => hlead h.1)]

end View

/-- A context whose opener comes one place later. -/
def Context.shift : Context → Context
  | root => root
  | stringBody i e => stringBody (i + 1) e
  | rawStringBody i e => rawStringBody (i + 1) e
  | basedStringBody i e base => basedStringBody (i + 1) e base
  | blockBody i base => blockBody (i + 1) base
  | typeBody i => typeBody (i + 1)

/-- **`Context.Matches`** — two contexts in which the same matches are found: they differ in the places
of their openers, or one is the root and the other a block. -/
inductive Context.Matches : Context → Context → Prop
  | shift {context : Context} (h : context.kind ≠ .root) : Matches context context.shift
  | block {opener : Nat} : Matches .root (.blockBody opener .decimal)

namespace Context

@[simp] theorem kind_shift (context : Context) : context.shift.kind = context.kind := by
  cases context <;> rfl

/-- They are of one kind, or one is the root and the other a block. -/
theorem Matches.kinds {context context' : Context} (h : context.Matches context') :
    context.kind ≠ .root ∧ context'.kind = context.kind ∨
      context.kind = .root ∧ context'.kind = .blockBody := by
  cases h with
  | shift hroot => exact .inl ⟨hroot, kind_shift context⟩
  | block => exact .inr ⟨rfl, rfl⟩

theorem Matches.ending?_eq {context context' : Context} (h : Matches context context') :
    context'.ending? = context.ending? := by
  cases h with
  | shift => cases context <;> rfl
  | block => rfl

theorem Matches.digitBase_eq {context context' : Context} (h : Matches context context') :
    context'.digitBase = context.digitBase := by
  cases h with
  | shift => cases context <;> rfl
  | block => rfl

end Context

namespace View

/-- **`Extends`** — what matchers see with a closer behind the text that is left. -/
structure Extends (c : Char) (v v' : View) : Prop where
  config : v'.config = v.config
  rest : v'.rest = v.rest ++ [c]
  context : v.context.Matches v'.context
  previous : v'.previous = some .number ↔ v.previous = some .number

/-- **`IsOpenEnded`** — what matchers see where a token would read on to the end of the text: a line
comment that lacks its newline, or the quote behind the sigil of a heredoc. -/
def IsOpenEnded (v : View) : Prop :=
  (TokenKind.lineComment.isLegalIn v.context.kind = true ∧
    Lexicon.lineCommentLength v.rest = v.rest.length ∧ '\n' ∉ v.rest) ∨
  (v.context.kind.isExpression = true ∧
    ∃ sigil ∈ [['#'], ['#', 'r']], ∃ q, isQuote q = true ∧ v.rest = sigil ++ [q])

variable {v v' : View}

theorem basedText_concat (hc : IsBlockCloser c) (h : Extends c v v') : v'.basedText = v.basedText := by
  have hne : (c == '_') = false := by rcases hc with rfl | rfl | rfl <;> decide
  have hrest := h.rest
  have hcontext := h.context
  unfold basedText
  generalize v.context = context at hcontext
  generalize v'.context = context' at hcontext
  cases hcontext with
  | shift =>
    cases context with
    | basedStringBody i e base =>
      dsimp only [Context.shift]
      rw [hrest, runLength_append_cons (by rw [Radix.isDigit_outside (.inl hc), hne]; rfl)]
    | _ => rfl
  | block => rfl

/-- Without a number in front there is no exponent. -/
theorem exponent_of_previous (h : v.previous ≠ some .number) : v.exponent = .ok none := by
  unfold exponent
  split
  · next heq _ => exact absurd heq h
  · rfl

theorem exponent_concat (hc : IsBlockCloser c) (h : Extends c v v') (hv : v.rest ≠ [])
    {found : Option Nat} (hfound : v.exponent = .ok found) : v'.exponent = .ok found := by
  obtain ⟨a, t, hsplit⟩ := List.exists_cons_of_ne_nil hv
  by_cases hprevious : v.previous = some .number
  · have hprevious' := h.previous.mpr hprevious
    unfold exponent at hfound ⊢
    rw [hprevious, hsplit] at hfound
    rw [hprevious', h.rest, hsplit, List.cons_append]
    dsimp only at hfound ⊢
    split at hfound
    · next ha =>
      rw [if_pos ha]
      cases hnumber : v.numberAt (v.start + 1) t with
      | error e =>
        rw [hnumber] at hfound
        cases hfound
      | ok n =>
        rw [hnumber] at hfound
        obtain ⟨_, hnumber', rfl⟩ := (numberAt_related h.config h.context.digitBase_eq _
          (v'.start + 1) t).exists_ok hnumber
        rw [numberAt_append_cons (.inl hc), hnumber']
        exact hfound
    · next ha => rw [if_neg ha]; exact hfound
  · rw [exponent_of_previous hprevious] at hfound
    rw [exponent_of_previous (mt h.previous.mp hprevious)]
    exact hfound

/-- The text of a string is the same with a closer behind it, if the string is ended by a text that is
still to come. -/
theorem stringText_concat (h : Extends c v v') (hasHoles : Bool) {d : Text}
    (hd : v.context.ending?.bind Ending.text? = some d) (hwithin : d <:+: v.rest) :
    v'.stringText hasHoles = v.stringText hasHoles := by
  rw [stringText, stringText, h.context.ending?_eq, hd, h.rest, bodyLength_concat hasHoles hwithin]

/-- A block comment is closed where it was. -/
theorem blockComment_concat (hc : IsBlockCloser c) (h : Extends c v v') (hv : v.rest ≠ [])
    {found : Option Nat} (hfound : v.blockComment = .ok found) : v'.blockComment = .ok found := by
  have hscan := Lexicon.scanComment_concat hc hv
  unfold blockComment at hfound ⊢
  rw [h.rest]
  cases hcomment : Lexicon.scanComment v.rest with
  | absent | closed n =>
    rw [hcomment] at hfound hscan
    rw [hscan fun openers heq => by cases heq]
    exact hfound
  | unterminated openers =>
    rw [hcomment] at hfound
    cases hfound

/-- What closes a string within the text closes it with more behind the text. -/
theorem closed_append {closing : Option Text} (h : ∀ s, closing = some s → s <:+: t) (more : Text) :
    closed closing (t ++ more) = closed closing t := by
  cases closing with
  | none => rfl
  | some s =>
    rw [closed, closed, Option.bind_some, Option.bind_some, isPrefixOf_append_iff (h s rfl).length_le]

/-- The text of a string is read in a string, which some text ends unless the source does. -/
theorem exists_ending_of_isText {context : Context} {kind : TokenKind}
    (hending : context.ending? ≠ some .endOfSource)
    (hkind : (kind == .stringText || kind == .rawStringText) = true)
    (hlegal : kind.isLegalIn context.kind = true) :
    ∃ d, context.ending?.bind Ending.text? = some d := by
  have hstring : ∃ e, context.ending? = some e := by
    rw [Bool.or_eq_true, beq_iff_eq, beq_iff_eq] at hkind
    rcases hkind with rfl | rfl
    · cases context <;> first | exact ⟨_, rfl⟩ | cases hlegal
    · cases context <;> first | exact ⟨_, rfl⟩ | cases hlegal
  obtain ⟨e, he⟩ := hstring
  rw [he] at hending ⊢
  cases e with
  | endOfSource => exact absurd rfl hending
  | quotes run => exact ⟨run, rfl⟩
  | delimiter d => exact ⟨d, rfl⟩

/-- **A kind of token that matches takes as much with a closer behind the text**, unless it would
read on to the end, or what ends its string does not come any more. -/
theorem matchKind_concat (hc : IsBlockCloser c) (h : Extends c v v') (hv : v.rest ≠ [])
    (hopen : ¬ v.IsOpenEnded) (hending : v.context.ending? ≠ some .endOfSource)
    (htext : ∀ d, v.context.ending?.bind Ending.text? = some d → d <:+: v.rest) {kind : TokenKind}
    (hlegal : kind.isLegalIn v.context.kind = true)
    (hkind : kind ≠ .restOfFileOpener ∧ kind ≠ .rawRestOfFileOpener) {found : Option Nat}
    (hfound : v.matchKind kind = .ok found) : v'.matchKind kind = .ok found := by
  have hquote : ∀ sigil ∈ [['#'], ['#', 'r']], v.context.kind.isExpression = true →
      ∀ q, isQuote q = true → v.rest ≠ sigil ++ [q] :=
    fun sigil hmem hcontext q hq heq => hopen (.inr ⟨hcontext, sigil, hmem, q, hq, heq⟩)
  have hsingle : ∀ d, single d v'.rest = single d v.rest := fun d => by rw [h.rest, single_concat d hv]
  -- No kind goes on with a closer, so only what reads to the end of the text needs the hypotheses.
  cases kind with
  | blank =>
    cases hfound
    have hblank : Lexicon.isBlank c = false := by rcases hc with rfl | rfl | rfl <;> decide
    rw [matchKind, h.rest, Lexicon.blankLength, Lexicon.blankLength, runLength_append_cons hblank]
  | lineComment =>
    have hcomment : Lexicon.lineCommentLength v.rest = v.rest.length → '\n' ∈ v.rest := by
      intro hlength
      by_contra hnewline
      exact hopen (.inl ⟨hlegal, hlength, hnewline⟩)
    cases hfound
    rw [matchKind, h.rest, Lexicon.lineCommentLength_concat hc hv hcomment]
  | blockComment => exact blockComment_concat hc h hv hfound
  | name =>
    cases hfound
    rw [matchKind, h.rest, Lexicon.nameLength_append_cons (.inl hc)]
  | symbol =>
    cases hfound
    rw [matchKind, h.rest, Lexicon.symbolLength_append_cons (.inl hc)]
  | shift =>
    cases hfound
    rw [matchKind, h.rest, Lexicon.shiftLength_append_cons (.inl hc)]
  | hashtag =>
    cases hfound
    rw [matchKind, h.rest, hashtag_append_cons (.inl hc)]
  | leftBracket | rightBracket | leftParen | rightParen | leftBrace | rightBrace | leftAngle
  | rightAngle =>
    cases hfound
    rw [matchKind, hsingle]
  | basedBlockOpener =>
    cases hfound
    rw [matchKind, h.rest, basedBlock_append_cons (.inl hc)]
  | stringOpener =>
    cases hfound
    rw [matchKind, h.rest, quoteRun_append_cons (isQuote_outside (.inl hc))]
  | rawStringOpener =>
    cases hfound
    rw [matchKind, h.rest, rawString_append_cons (isQuote_outside (.inl hc)) hv]
  | basedStringOpener =>
    cases hfound
    rw [matchKind, h.rest, basedString_append_cons (.inl hc)]
  | stringCloser | heredocCloser =>
    rw [matchKind_eq_closed (by decide)] at hfound ⊢
    rw [h.rest, Context.closing?, h.context.ending?_eq, ← Context.closing?,
      closed_append fun s hs => htext s (Context.text?_of_closing? hs)]
    exact hfound
  | stringText | rawStringText =>
    cases hfound
    obtain ⟨d, hd⟩ := exists_ending_of_isText hending rfl hlegal
    rw [matchKind, stringText_concat h _ hd (htext d hd)]
  | stringEscape => exact escape_concat hc h.rest hv hfound
  | holeEscape =>
    cases hfound
    rw [matchKind, h.rest, holeEscape_append_cons (.inl hc)]
  | basedStringText =>
    cases hfound
    rw [matchKind, basedText_concat hc h]
  | restOfFileOpener => exact absurd rfl hkind.1
  | rawRestOfFileOpener => exact absurd rfl hkind.2
  | heredocOpener =>
    exact heredoc_concat hc h.rest (by rcases hc with rfl | rfl | rfl <;> decide)
      (hquote _ (by decide) hlegal) hfound
  | rawHeredocOpener =>
    exact heredoc_concat hc h.rest (by rcases hc with rfl | rfl | rfl <;> decide)
      (hquote _ (by decide) hlegal) hfound
  | number =>
    obtain ⟨_, hnumber, rfl⟩ := (numberAt_related h.config h.context.digitBase_eq _ v'.start
      v.rest).exists_ok hfound
    rw [matchKind, h.rest, numberAt_append_cons (.inl hc), hnumber]
  | exponent => exact exponent_concat hc h hv hfound

end View

end DewyFront
