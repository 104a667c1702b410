/-
# DewyFront.Proofs.Matching — what matchers take, and which match is chosen

A matcher that matches takes at least one character and at most what is left of the text. For the
closers of strings that is so because no string is ended by nothing. Of the matches at a place one is
chosen only if no other is longer, and any other of its length gives way to it.

* §1 runs and prefixes;
* §2 the lexicon;
* §3 strings and numbers;
* §4 matchers;
* §5 the choice.
-/
import DewyFront.Proofs.Outcomes
import DewyFront.Token.Match
import Mathlib.Data.List.Basic
import Mathlib.Data.List.TakeWhile

namespace DewyFront

/-! ## §1 Runs and prefixes -/

variable {p : Char → Bool} {s t : Text} {n : Nat}

theorem runLength_le (p : Char → Bool) (t : Text) : runLength p t ≤ t.length :=
  (List.takeWhile_sublist p).length_le

theorem runLength_pos {c : Char} (h : p c = true) : 0 < runLength p (c :: t) := by
  rw [runLength, List.takeWhile_cons_of_pos h]
  exact Nat.succ_pos _

theorem runLength_pos_of_head? (h : t.head?.any p = true) : 0 < runLength p t := by
  cases t with
  | nil => cases h
  | cons c t => exact runLength_pos h

/-- A run is at least as long as a front that it takes. -/
theorem length_le_runLength_append (h : ∀ c ∈ s, p c = true) (t : Text) :
    s.length ≤ runLength p (s ++ t) := by
  unfold runLength
  rw [List.takeWhile_append_of_pos h, List.length_append]
  exact Nat.le_add_right _ _

/-- A run ends in front of a character that it does not take. -/
theorem runLength_append_eq (h : ∀ c ∈ s, p c = true) (ht : ∀ c, t.head? = some c → p c = false) :
    runLength p (s ++ t) = s.length := by
  unfold runLength
  rw [List.takeWhile_append_of_pos h]
  cases t with
  | nil => rw [List.takeWhile_nil, List.append_nil]
  | cons c t => rw [List.takeWhile_cons_of_neg (by simp [ht c rfl]), List.append_nil]

theorem length_le_of_isPrefixOf (h : s.isPrefixOf t = true) : s.length ≤ t.length :=
  (List.isPrefixOf_iff_prefix.mp h).length_le

theorem two_le_length_of_ofLead? (h : (Radix.ofLead? t).isSome = true) : 2 ≤ t.length := by
  unfold Radix.ofLead? at h
  split at h
  · simp
  · cases h

/-! ## §2 The lexicon -/

namespace Lexicon

theorem lineCommentLength_le (t : Text) : lineCommentLength t ≤ t.length := by
  unfold lineCommentLength
  split
  · exact Nat.zero_le _
  · next rest _ =>
    have hbody := runLength_le (· != '\n') rest
    dsimp only
    split
    · simp only [List.length_cons]
      omega
    · simp only [List.length_cons]
      omega
  · exact Nat.zero_le _

theorem nameLength_le (t : Text) : nameLength t ≤ t.length := by
  have hlead := runLength_le isDecoration t
  unfold nameLength
  dsimp only
  split
  · exact Nat.zero_le _
  · next c rest heq =>
    have hlength : (t.drop (runLength isDecoration t)).length = rest.length + 1 := by
      rw [heq, List.length_cons]
    rw [List.length_drop] at hlength
    have hrest := runLength_le (fun d => isNameContinue d || isDecoration d) rest
    split
    · omega
    · exact Nat.zero_le _

theorem longestOf_le (table : List Text) (t : Text) : longestOf table t ≤ t.length := by
  have hfold : ∀ (table : List Text) (best : Nat), best ≤ t.length →
      table.foldl (fun best s => if s.isPrefixOf t then max best s.length else best) best ≤
        t.length := by
    intro table
    induction table with
    | nil => exact fun _ h => h
    | cons s table ih =>
      intro best hbest
      apply ih
      dsimp only
      split
      · next h => exact Nat.max_le.mpr ⟨hbest, length_le_of_isPrefixOf h⟩
      · exact hbest
  exact hfold table 0 (Nat.zero_le _)

/-- A comment goes on behind what has been read of it, and ends within the text. -/
theorem scanNested_bounds {openers : List Nat} {chars bytes : Nat}
    (h : scanNested openers chars bytes t = .closed n) : chars < n ∧ n ≤ chars + t.length := by
  fun_induction scanNested openers chars bytes t with
  | case1 openers chars bytes rest ih =>
    obtain ⟨hlow, hhigh⟩ := ih h
    simp only [List.length_cons]
    omega
  | case2 chars bytes rest first outer more ih =>
    obtain ⟨hlow, hhigh⟩ := ih h
    simp only [List.length_cons]
    omega
  | case3 openers chars bytes rest hopeners =>
    cases h
    simp only [List.length_cons]
    omega
  | case4 openers chars bytes c rest _ _ ih =>
    obtain ⟨hlow, hhigh⟩ := ih h
    simp only [List.length_cons]
    omega
  | case5 => cases h

theorem scanComment_bounds (h : scanComment t = .closed n) : 0 < n ∧ n ≤ t.length := by
  unfold scanComment at h
  split at h
  · have hbounds := scanNested_bounds h
    simp only [List.length_cons]
    omega
  · cases h

end Lexicon

/-- **`Ending.closing?`** — the text that a closer of a kind has to be where a string ends so. -/
def Ending.closing? (kind : TokenKind) : Ending → Option Text
  | quotes run => if kind = .stringCloser then some run else none
  | delimiter d => if kind = .heredocCloser then some d else none
  | endOfSource => none

namespace Context

/-- **`Ends`** — whatever ends the string of a context is not empty. -/
def Ends (c : Context) : Prop := ∀ t, c.ending?.bind Ending.text? = some t → t ≠ []

/-- **`closing?`** — the text that a closer of a kind is, if one of that kind ends the string. -/
def closing? (c : Context) (kind : TokenKind) : Option Text := c.ending?.bind (Ending.closing? kind)

variable {c : Context} {kind : TokenKind}

theorem cases_of_closing? (h : c.closing? kind = some t) :
    kind = .stringCloser ∧ c.ending? = some (.quotes t) ∨
      kind = .heredocCloser ∧ c.ending? = some (.delimiter t) := by
  obtain ⟨e, he, h⟩ := Option.bind_eq_some_iff.mp h
  cases e with
  | quotes run =>
    obtain ⟨hkind, heq⟩ := Option.ite_none_right_eq_some.mp h
    exact .inl ⟨hkind, Option.some.inj heq ▸ he⟩
  | delimiter d =>
    obtain ⟨hkind, heq⟩ := Option.ite_none_right_eq_some.mp h
    exact .inr ⟨hkind, Option.some.inj heq ▸ he⟩
  | endOfSource => cases h

theorem text?_of_closing? (h : c.closing? kind = some t) : c.ending?.bind Ending.text? = some t := by
  rcases cases_of_closing? h with ⟨-, he⟩ | ⟨-, he⟩ <;> rw [he] <;> rfl

end Context

namespace View

variable {v : View}

/-! ## §3 Strings and numbers -/

/-- **`Within`** — a match takes something, and no more than there is. -/
def Within (t : Text) (found : Option Nat) : Prop := ∀ n, found = some n → 0 < n ∧ n ≤ t.length

theorem within_none (t : Text) : Within t none := fun n h => by cases h

theorem within_positive {m : Nat} (h : m ≤ t.length) : Within t (positive m) := by
  intro n hn
  unfold positive at hn
  split at hn
  · cases hn
  · cases hn
    omega

theorem within_single (c : Char) (t : Text) : Within t (single c t) := by
  intro n hn
  unfold single at hn
  split at hn
  · next h =>
    cases hn
    cases t with
    | nil => cases h
    | cons d t => simp
  · cases hn

theorem Within.map {c : List Char} {found : Option Nat} (h : Within t found) :
    Within (c ++ t) (found.map (· + c.length)) := by
  intro n hn
  obtain ⟨m, hm, rfl⟩ := Option.map_eq_some_iff.mp hn
  obtain ⟨hpos, hle⟩ := h m hm
  rw [List.length_append]
  omega

theorem within_quoteRun (t : Text) : Within t (quoteRun t) := by
  intro n hn
  unfold quoteRun at hn
  split at hn
  · cases hn
  · next q t =>
    split at hn
    · have hle := runLength_le (· == q) t
      dsimp only at hn
      simp only [List.length_cons]
      split at hn <;> cases hn <;> omega
    · cases hn

theorem bodyLength_le (stop : Option Text) (hasHoles : Bool) (t : Text) :
    bodyLength stop hasHoles t ≤ t.length := by
  induction t with
  | nil => exact Nat.le_refl _
  | cons c t ih =>
    rw [bodyLength, List.length_cons]
    split
    · exact Nat.zero_le _
    · omega

theorem within_escape {found : Option Nat} (h : v.escape = .ok found) : Within v.rest found := by
  unfold escape at h
  split at h
  · cases h
  · next c t heq =>
    rw [heq]
    split at h
    · split at h
      · cases h
        exact within_none _
      · dsimp only at h
        split at h
        · cases h
        · next hdigits =>
          cases h
          have hle := runLength_le isHexDigit t
          intro n hn
          cases hn
          simp only [escapeDigits, List.length_cons] at hdigits ⊢
          omega
    · cases h
      intro n hn
      cases hn
      simp
  · cases h
    exact within_none _

theorem within_holeEscape (t : Text) : Within t (holeEscape t) := by
  intro n hn
  unfold holeEscape at hn
  split at hn
  · split at hn
    · cases hn
      simp
    · cases hn
  · cases hn

theorem within_either {a b : String} (ha : 0 < a.length) (h : a.length = b.length) (t : Text) :
    Within t (either a b t) := by
  intro n hn
  unfold either at hn
  split at hn
  · next hprefix =>
    cases hn
    refine ⟨ha, ?_⟩
    rw [Bool.or_eq_true] at hprefix
    rcases hprefix with hprefix | hprefix
    · exact String.length_toList ▸ length_le_of_isPrefixOf hprefix
    · rw [h]
      exact String.length_toList ▸ length_le_of_isPrefixOf hprefix
  · cases hn

/-- **What opens a heredoc**: the sigil, a quote, a delimiter without spaces at its edges and the same
quote. -/
theorem exists_of_heredoc {sigil : Text} (h : v.heredoc sigil = .ok (some n)) :
    ∃ quote delimiter more, v.rest = sigil ++ quote :: (delimiter ++ quote :: more) ∧
      isQuote quote = true ∧ delimiter ≠ [] ∧
      (∀ c ∈ delimiter, Lexicon.isDelimiterCharacter c = true) ∧
      delimiter.head? ≠ some ' ' ∧ delimiter.getLast? ≠ some ' ' ∧
      n = sigil.length + delimiter.length + 2 := by
  unfold heredoc at h
  split at h
  · cases h
  · next hbegins =>
    have hbegins : sigil <+: v.rest := List.isPrefixOf_iff_prefix.mp (by simpa using hbegins)
    obtain ⟨back, hrest⟩ := hbegins
    rw [← hrest, List.drop_left] at h
    cases back with
    | nil => cases h
    | cons quote body =>
      dsimp only at h
      split_ifs at h with hbegun hnext hblank hedge
      · cases h
      · cases h
        rw [Bool.or_eq_true, not_or] at hbegun
        rw [not_or] at hedge
        obtain ⟨more, hmore⟩ := List.head?_eq_some_iff.mp (Decidable.not_not.mp hnext)
        refine ⟨quote, body.takeWhile Lexicon.isDelimiterCharacter, more, ?_, by simpa using hbegun.1,
          by simpa using hbegun.2, fun c hc => List.mem_takeWhile_imp hc, hedge.1, hedge.2, rfl⟩
        rw [← hmore, List.takeWhile_append_dropWhile, hrest]

theorem within_heredoc {sigil : Text} {found : Option Nat} (h : v.heredoc sigil = .ok found) :
    Within v.rest found := by
  rintro n rfl
  obtain ⟨quote, delimiter, more, hrest, -, -, -, -, -, rfl⟩ := exists_of_heredoc h
  have hlength := congrArg List.length hrest
  simp only [List.length_append, List.length_cons] at hlength
  omega

/-- **What a number is**: a lead that is allowed and digits of its base, or digits of the base of the
context. -/
theorem cases_of_numberAt {start : Nat} (h : v.numberAt start t = .ok (some n)) :
    (∃ base, Radix.ofLead? t = some base ∧ (t.drop 2).head?.any base.isDigit = true ∧
      base.value ≤ v.config.maxRadix ∧ n = 2 + digitRun base (t.drop 2)) ∨
    (Radix.ofLead? t = none ∧ t.head?.any v.context.digitBase.isDigit = true ∧
      n = digitRun v.context.digitBase t) := by
  unfold numberAt at h
  split at h
  · next base hlead =>
    dsimp only at h
    split_ifs at h with hdigit hhigh
    · cases h
      exact .inl ⟨base, hlead, hdigit, Nat.not_lt.mp hhigh, rfl⟩
    · cases h
  · next hlead =>
    dsimp only at h
    split_ifs at h with hdigit <;> cases h
    exact .inr ⟨hlead, hdigit, rfl⟩

/-- **Which numbers are refused**: those with a lead that is not allowed. -/
theorem exists_of_numberAt_error {start : Nat} {e : LexError} (h : v.numberAt start t = .error e) :
    ∃ base, Radix.ofLead? t = some base ∧ e = .baseTooHigh start base
      ((t.drop 2).take (digitRun base (t.drop 2))) v.config.maxRadix := by
  unfold numberAt at h
  split at h
  · next base hlead =>
    dsimp only at h
    split_ifs at h
    cases h
    exact ⟨base, hlead, rfl⟩
  · cases h

theorem digitRun_le (base : Radix) (t : Text) : digitRun base t ≤ t.length := runLength_le _ _

theorem digitRun_pos {base : Radix} (h : t.head?.any base.isDigit = true) : 0 < digitRun base t := by
  cases t with
  | nil => cases h
  | cons c t =>
    have h : base.isDigit c = true := h
    exact runLength_pos (by rw [h, Bool.true_or])

theorem within_numberAt {start : Nat} {found : Option Nat} (h : v.numberAt start t = .ok found) :
    Within t found := by
  rintro n rfl
  obtain ⟨base, hlead, -, -, rfl⟩ | ⟨-, hdigit, rfl⟩ := cases_of_numberAt h
  · have htwo := two_le_length_of_ofLead? (by rw [hlead]; rfl)
    have hle := digitRun_le base (t.drop 2)
    rw [List.length_drop] at hle
    omega
  · exact ⟨digitRun_pos hdigit, digitRun_le _ _⟩

/-- **What an exponent is**: behind a number, a marker with a number behind it. -/
theorem exists_of_exponent (h : v.exponent = .ok (some n)) : v.previous = some .number ∧ ∃ c t m,
    v.rest = c :: t ∧ (c = 'e' ∨ c = 'E' ∨ c = 'p' ∨ c = 'P') ∧ n = m + 1 ∧
      v.numberAt (v.start + 1) t = .ok (some m) := by
  unfold exponent at h
  split at h
  · next c t hprevious hrest =>
    split at h
    · next hmarker =>
      obtain ⟨found, hfound, hn⟩ := map_ok_iff.mp h
      obtain ⟨m, rfl, rfl⟩ := Option.map_eq_some_iff.mp hn
      exact ⟨hprevious, c, t, m, hrest, hmarker, rfl, hfound⟩
    · cases h
  · cases h

/-- **Which exponents are refused**: those whose number is. -/
theorem exists_of_exponent_error {e : LexError} (h : v.exponent = .error e) : ∃ c t,
    v.rest = c :: t ∧ (c = 'e' ∨ c = 'E' ∨ c = 'p' ∨ c = 'P') ∧
      v.numberAt (v.start + 1) t = .error e := by
  unfold exponent at h
  split at h
  · next c t _ hrest =>
    split at h
    · next hmarker =>
      cases hnumber : v.numberAt (v.start + 1) t with
      | ok found =>
        rw [hnumber] at h
        cases h
      | error e' =>
        rw [hnumber] at h
        cases h
        exact ⟨c, t, hrest, hmarker, hnumber⟩
    · cases h
  · cases h

theorem within_exponent {found : Option Nat} (h : v.exponent = .ok found) : Within v.rest found := by
  rintro n rfl
  obtain ⟨-, c, t, m, hrest, -, rfl, hnumber⟩ := exists_of_exponent h
  have hwithin := within_numberAt hnumber m rfl
  rw [hrest, List.length_cons]
  omega

theorem within_blockComment {found : Option Nat} (h : v.blockComment = .ok found) :
    Within v.rest found := by
  unfold blockComment at h
  split at h
  · cases h
    exact within_none _
  · next m hscan =>
    cases h
    intro n hn
    cases hn
    exact Lexicon.scanComment_bounds hscan
  · cases h

theorem within_hashtag (t : Text) : Within t (hashtag t) := by
  unfold hashtag
  split
  · exact (within_positive (Lexicon.nameLength_le _)).map (c := ['#'])
  · exact within_none _

theorem within_rawString (t : Text) : Within t (rawString t) := by
  unfold rawString
  split
  · exact (within_quoteRun _).map (c := ['r'])
  · exact within_none _

theorem within_basedString (t : Text) : Within t (basedString t) := by
  unfold basedString
  split
  · next hlead =>
    have htwo : (t.take 2).length = 2 := by
      rw [List.length_take]
      exact Nat.min_eq_left (two_le_length_of_ofLead? hlead)
    have hmap := (within_quoteRun (t.drop 2)).map (c := t.take 2)
    rw [List.take_append_drop, htwo] at hmap
    exact hmap
  · exact within_none _

/-- Behind the sigil of a raw string stands a quote. -/
theorem two_le_of_rawString (h : rawString t = some n) : 2 ≤ n := by
  unfold rawString at h
  split at h
  · obtain ⟨m, hm, rfl⟩ := Option.map_eq_some_iff.mp h
    have hpos := (within_quoteRun _ m hm).1
    omega
  · cases h

/-- Behind the lead of a based string stands a quote. -/
theorem three_le_of_basedString (h : basedString t = some n) : 3 ≤ n := by
  unfold basedString at h
  split at h
  · obtain ⟨m, hm, rfl⟩ := Option.map_eq_some_iff.mp h
    have hpos := (within_quoteRun _ m hm).1
    omega
  · cases h

/-- The delimiter of a heredoc is not empty. -/
theorem le_of_heredoc {sigil : Text} (h : v.heredoc sigil = .ok (some n)) : sigil.length + 3 ≤ n := by
  obtain ⟨quote, delimiter, more, -, -, hdelimiter, -, -, -, rfl⟩ := exists_of_heredoc h
  have hpos := List.length_pos_of_ne_nil hdelimiter
  omega

theorem within_basedBlock (t : Text) : Within t (basedBlock t) := by
  intro n hn
  unfold basedBlock at hn
  split at hn
  · next h =>
    cases hn
    have hpos : 0 < (t.drop 2).length := by
      refine List.length_pos_of_ne_nil fun hnil => ?_
      rw [hnil] at h
      cases h.2
    rw [List.length_drop] at hpos
    omega
  · cases hn

/-! ## §4 Matchers -/

/-- **`closed`** — the length of what closes a string, if something does and the text begins with it. -/
def closed (closing : Option Text) (t : Text) : Option Nat :=
  closing.bind fun s => if s.isPrefixOf t then some s.length else none

theorem closed_eq_some_iff {closing : Option Text} :
    closed closing t = some n ↔ ∃ s, closing = some s ∧ s.isPrefixOf t = true ∧ s.length = n := by
  simp only [closed, Option.bind_eq_some_iff, Option.ite_none_right_eq_some, Option.some.injEq]

/-- **A closer of a string matches just what ends the string so.** -/
theorem matchKind_eq_closed {kind : TokenKind} (hkind : kind = .stringCloser ∨ kind = .heredocCloser)
    (v : View) : v.matchKind kind = .ok (closed (v.context.closing? kind) v.rest) := by
  rw [Context.closing?]
  rcases hkind with rfl | rfl
  · rw [matchKind, closingQuotes]
    rcases v.context.ending? with _ | _ | _ | _ <;> rfl
  · rw [matchKind, closingDelimiter]
    rcases v.context.ending? with _ | _ | _ | _ <;> rfl

theorem within_closed {closing : Option Text} (h : ∀ s, closing = some s → s ≠ []) :
    Within t (closed closing t) := by
  intro n hn
  obtain ⟨s, hs, hprefix, rfl⟩ := closed_eq_some_iff.mp hn
  exact ⟨List.length_pos_of_ne_nil (h s hs), length_le_of_isPrefixOf hprefix⟩

theorem within_basedText (v : View) : Within v.rest v.basedText := by
  unfold basedText
  split
  · exact within_positive (runLength_le _ _)
  · exact within_none _

/-- **A matcher that matches takes something, and no more than there is.** -/
theorem matchKind_within (hv : v.context.Ends) {kind : TokenKind} {found : Option Nat}
    (h : v.matchKind kind = .ok found) : Within v.rest found := by
  cases kind with
  | blockComment => exact within_blockComment h
  | stringEscape => exact within_escape h
  | heredocOpener | rawHeredocOpener => exact within_heredoc h
  | number => exact within_numberAt h
  | exponent => exact within_exponent h
  | blank => cases h; exact within_positive (runLength_le _ _)
  | lineComment => cases h; exact within_positive (Lexicon.lineCommentLength_le _)
  | name => cases h; exact within_positive (Lexicon.nameLength_le _)
  | symbol | shift => cases h; exact within_positive (Lexicon.longestOf_le _ _)
  | hashtag => cases h; exact within_hashtag _
  | leftBracket | rightBracket | leftParen | rightParen | leftBrace | rightBrace | leftAngle
  | rightAngle => cases h; exact within_single _ _
  | basedBlockOpener => cases h; exact within_basedBlock _
  | stringOpener => cases h; exact within_quoteRun _
  | rawStringOpener => cases h; exact within_rawString _
  | basedStringOpener => cases h; exact within_basedString _
  | stringCloser | heredocCloser =>
    rw [matchKind_eq_closed (by decide)] at h
    cases h
    exact within_closed fun s hs => hv s (Context.text?_of_closing? hs)
  | stringText | rawStringText => cases h; exact within_positive (bodyLength_le _ _ _)
  | holeEscape => cases h; exact within_holeEscape _
  | basedStringText => cases h; exact within_basedText _
  | restOfFileOpener | rawRestOfFileOpener =>
    cases h
    exact within_either (by decide) (by decide) _

/-! ## §5 The choice -/

variable {kinds : List TokenKind} {ms : List Match} {m m' : Match}

/-- No kind that is tried is refused, and the matches are those of the kinds that match. -/
theorem mem_of_matchesOf (h : v.matchesOf kinds = .ok ms) :
    (∀ kind ∈ kinds, ∃ found, v.matchKind kind = .ok found) ∧
      ∀ m, m ∈ ms ↔ m.kind ∈ kinds ∧ v.matchKind m.kind = .ok (some m.length) := by
  induction kinds generalizing ms with
  | nil =>
    cases h
    simp
  | cons kind kinds ih =>
    rw [matchesOf] at h
    obtain ⟨found, hfound, h⟩ := bind_ok_iff.mp h
    obtain ⟨more, hmore, h⟩ := bind_ok_iff.mp h
    cases h
    obtain ⟨hall, hmem⟩ := ih hmore
    refine ⟨List.forall_mem_cons.mpr ⟨⟨found, hfound⟩, hall⟩, fun m => ?_⟩
    rw [List.mem_append, hmem, Option.mem_toList, Option.map_eq_some_iff]
    constructor
    · rintro (⟨n, rfl, rfl⟩ | ⟨hm, hmatch⟩)
      · exact ⟨List.mem_cons_self, hfound⟩
      · exact ⟨List.mem_cons_of_mem _ hm, hmatch⟩
    · rintro ⟨hm, hmatch⟩
      rcases List.mem_cons.mp hm with heq | hm
      · rw [heq, hfound] at hmatch
        exact .inl ⟨m.length, Except.ok.inj hmatch, by rw [← heq]⟩
      · exact .inr ⟨hm, hmatch⟩

theorem length_le_greatestLength (h : m ∈ ms) : m.length ≤ greatestLength ms := by
  have hfold : ∀ (ms : List Match) (n : Nat), n ≤ ms.foldl (fun n m => max n m.length) n ∧
      ∀ m ∈ ms, m.length ≤ ms.foldl (fun n m => max n m.length) n := by
    intro ms
    induction ms with
    | nil => exact fun n => ⟨Nat.le_refl n, fun m hm => by cases hm⟩
    | cons first ms ih =>
      intro n
      obtain ⟨hle, hall⟩ := ih (max n first.length)
      refine ⟨Nat.le_trans (Nat.le_max_left _ _) hle, fun m hm => ?_⟩
      rcases List.mem_cons.mp hm with rfl | hm
      · exact Nat.le_trans (Nat.le_max_right _ _) hle
      · exact hall m hm
  exact (hfold ms 0).2 m h

theorem mem_longest : m ∈ longest ms ↔ m ∈ ms ∧ m.length = greatestLength ms := by
  simp [longest]

theorem mem_winners : m ∈ winners ms ↔ m ∈ longest ms ∧ losesTo (longest ms) m = false := by
  simp [winners]

/-- What others give way to gives way to nothing. -/
theorem losesTo_eq_false {p : TokenKind × TokenKind} (hp : p ∈ TokenKind.precedence)
    (hm : m.kind = p.1) (ms : List Match) : losesTo ms m = false := by
  have hdisjoint : ∀ p ∈ TokenKind.precedence, ∀ q ∈ TokenKind.precedence, p.1 ≠ q.2 := by decide
  refine List.any_eq_false.mpr fun q hq hbeats => ?_
  have hlost := eq_of_beq (Bool.and_eq_true_iff.mp hbeats).1
  exact hdisjoint _ hp q hq (hm.symm.trans hlost)

/-- **The only match that stands is as long as any other**, and one that is as long gives way to
it. -/
theorem of_winners_eq_singleton (h : winners ms = [m]) : m ∈ ms ∧ ∀ m' ∈ ms,
    m'.length ≤ m.length ∧
      (m'.length = m.length → m' = m ∨ (m.kind, m'.kind) ∈ TokenKind.precedence) := by
  have honly : ∀ {m'}, m' ∈ longest ms → losesTo (longest ms) m' = false → m' = m := by
    intro m' hm hloses
    have hwinner := mem_winners.mpr ⟨hm, hloses⟩
    rw [h] at hwinner
    exact List.mem_singleton.mp hwinner
  have hm : m ∈ winners ms := h ▸ List.mem_singleton_self m
  obtain ⟨hmem, hgreatest⟩ := mem_longest.mp (mem_winners.mp hm).1
  refine ⟨hmem, fun m' hm' => ⟨hgreatest ▸ length_le_greatestLength hm', fun hlength => ?_⟩⟩
  have hlongest := mem_longest.mpr ⟨hm', hlength.trans hgreatest⟩
  cases hloses : losesTo (longest ms) m' with
  | false => exact .inl (honly hlongest hloses)
  | true =>
    right
    obtain ⟨⟨winner, loser⟩, hpair, hbeats⟩ := List.any_eq_true.mp hloses
    obtain ⟨hloser, hwinner⟩ := Bool.and_eq_true_iff.mp hbeats
    obtain ⟨w, hw, hkind⟩ := List.any_eq_true.mp hwinner
    have hloser : m'.kind = loser := eq_of_beq hloser
    have hkind : w.kind = winner := eq_of_beq hkind
    rw [← honly hw (losesTo_eq_false hpair hkind _), hkind, hloser]
    exact hpair

end View

end DewyFront
