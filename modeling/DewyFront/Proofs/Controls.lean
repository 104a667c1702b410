/-
# DewyFront.Proofs.Controls — where illegal control characters may stand

Illegal control characters are looked for only where no token can be taken. Most kinds of tokens take
no control characters at all: names, symbols, numbers and delimiters are made of others, and what ends a
string is made of those that its opener is made of. Layout takes none but its own. Comments, and the texts
and escapes of strings, take any character. So in a source that is scanned to a result, every illegal control character stands in a
comment or in a string, and there it is let through.

* §1 characters;
* §2 texts without control characters;
* §3 matchers;
* §4 what every state keeps;
* §5 whole scans.
-/
import DewyFront.Proofs.Evidence

namespace DewyFront

variable {s t : Text} {c : Char} {n : Nat}

/-! ## §1 Characters -/

namespace Lexicon

/-- **`isControl`** — ASCII control characters, those of layout among them. -/
def isControl (c : Char) : Bool := c.toNat < 32 || c.toNat == 127

theorem isControl_of_isIllegalControl (h : isIllegalControl c = true) : isControl c = true := by
  simp only [isIllegalControl, Bool.or_eq_true, Bool.and_eq_true] at h
  rw [isControl, Bool.or_eq_true]
  exact h.imp_left And.left

theorem isControl_of_bounds (hlow : 32 ≤ c.toNat) (hdelete : c.toNat ≠ 127) :
    isControl c = false := by
  unfold isControl
  rw [decide_eq_false (Nat.not_lt.mpr hlow), Bool.false_or]
  exact beq_eq_false_iff_ne.mpr hdelete

/-- No character from a space up to a tilde is one. -/
theorem isControl_of_between (low high : Char) (hlow : ' ' ≤ low) (hhigh : high ≤ '~')
    (h : low ≤ c ∧ c ≤ high) : isControl c = false := by
  have hlow : 32 ≤ c.toNat := UInt32.le_iff_toNat_le.mp (UInt32.le_trans hlow h.1)
  have hhigh : c.toNat ≤ 126 := UInt32.le_iff_toNat_le.mp (UInt32.le_trans h.2 hhigh)
  exact isControl_of_bounds hlow (by omega)

theorem isIllegalControl_of_isBlank (h : isBlank c = true) : isIllegalControl c = false := by
  simp only [isBlank, Bool.or_eq_true, beq_iff_eq] at h
  rcases h with ((rfl | rfl) | rfl) | rfl <;> decide

/-- Tables are checked as a whole. -/
theorem isControl_of_mem (htable : t.all (!isControl ·) = true) (h : c ∈ t) :
    isControl c = false := by
  rw [← Bool.not_eq_true']
  exact List.all_eq_true.mp htable c h

theorem isControl_of_isDecoration (h : isDecoration c = true) :
    isControl c = false :=
  isControl_of_mem (t := decorations) (by decide +kernel) (List.contains_iff_mem.mp h)

theorem isControl_of_isAlphanum (h : c.isAlphanum = true) : isControl c = false := by
  rcases Bool.or_eq_true_iff.mp h with h | hdigit
  · rcases Bool.or_eq_true_iff.mp h with hupper | hlower
    · have hupper : 'A' ≤ c ∧ c ≤ 'Z' := of_decide_eq_true hupper
      exact isControl_of_between 'A' 'Z' (by decide) (by decide) hupper
    · obtain ⟨hlow, hhigh⟩ := Bool.and_eq_true_iff.mp hlower
      have hlower : 'a' ≤ c ∧ c ≤ 'z' := ⟨of_decide_eq_true hlow, of_decide_eq_true hhigh⟩
      exact isControl_of_between 'a' 'z' (by decide) (by decide) hlower
  · obtain ⟨hlow, hhigh⟩ := Bool.and_eq_true_iff.mp hdigit
    have hdigit : '0' ≤ c ∧ c ≤ '9' := ⟨of_decide_eq_true hlow, of_decide_eq_true hhigh⟩
    exact isControl_of_between '0' '9' (by decide) (by decide) hdigit

theorem isControl_of_isNameContinue (h : isNameContinue c = true) :
    isControl c = false := by
  have htable : (greekLetters ++ mathLetters ++ otherStarts).all (!isControl ·) = true := by
    decide +kernel
  have hall := fun c => isControl_of_mem (c := c) htable
  simp only [isNameContinue, isNameStart, Bool.or_eq_true, List.contains_iff_mem] at h
  rcases h with (((h | h) | h) | h) | h
  · exact isControl_of_isAlphanum (by rw [Char.isAlphanum, h, Bool.true_or])
  · exact hall c (List.mem_append_left _ (List.mem_append_left _ h))
  · exact hall c (List.mem_append_left _ (List.mem_append_right _ h))
  · exact hall c (List.mem_append_right _ h)
  · exact isControl_of_isAlphanum (by rw [Char.isAlphanum, h, Bool.or_true])

theorem isControl_of_isDelimiterCharacter (h : isDelimiterCharacter c = true) :
    isControl c = false := by
  have htable : (symbolCharacters ++ delimiterExtras).all (!isControl ·) = true := by
    decide +kernel
  have hall := fun c => isControl_of_mem (c := c) htable
  simp only [isDelimiterCharacter, Bool.and_eq_true, Bool.or_eq_true, List.contains_iff_mem] at h
  rcases h.2 with ((h | h) | h) | h
  · exact isControl_of_isNameContinue h
  · exact isControl_of_isDecoration h
  · exact hall c (List.mem_append_left _ h)
  · exact hall c (List.mem_append_right _ h)

end Lexicon

theorem Radix.isControl_of_isDigit {base : Radix}
    (h : (base.isDigit c || c == '_') = true) : Lexicon.isControl c = false := by
  rw [Bool.or_eq_true, beq_iff_eq] at h
  rcases h with h | rfl
  · -- Two bases have alphabets of their own; the others go by the value of the digit.
    have hvalue : ∀ {p : Nat → Bool}, (digitValue? c).any p = true →
        Lexicon.isControl c = false := by
      intro p hp
      unfold digitValue? at hp
      split_ifs at hp with hdigit hlower hupper
      · exact Lexicon.isControl_of_between '0' '9' (by decide) (by decide) hdigit
      · exact Lexicon.isControl_of_between 'a' 'z' (by decide) (by decide) hlower
      · exact Lexicon.isControl_of_between 'A' 'Z' (by decide) (by decide) hupper
      · cases hp
    cases base with
    | dozenal =>
      simp only [isDigit, Bool.or_eq_true, beq_iff_eq] at h
      rcases h with (((h | rfl) | rfl) | rfl) | rfl
      · exact Lexicon.isControl_of_isAlphanum (by rw [Char.isAlphanum, h, Bool.or_true])
      all_goals decide
    | base64 =>
      simp only [isDigit, Bool.or_eq_true, beq_iff_eq] at h
      rcases h with ((((h | rfl) | rfl) | rfl) | rfl) | rfl
      · exact Lexicon.isControl_of_isAlphanum h
      all_goals decide
    | _ => exact hvalue h
  · decide

/-- A base is named by a letter. -/
theorem Radix.isControl_of_ofLetter? {base : Radix} (h : ofLetter? c = some base) :
    Lexicon.isControl c = false := by
  have hletter : base.letter = c.toLower := by simpa using List.find?_some h
  have hlower : Lexicon.isControl c.toLower = false := by
    rw [← hletter]
    cases base <;> decide
  unfold Char.toLower at hlower
  split at hlower
  · next hupper =>
    exact Lexicon.isControl_of_between 'A' 'Z' (by decide) (by decide) hupper
  · exact hlower

/-! ## §2 Texts -/

/-- **`IsClean`** — a text without control characters. -/
def IsClean (t : Text) : Prop := ∀ c ∈ t, Lexicon.isControl c = false

namespace IsClean

theorem of_all (h : t.all (!Lexicon.isControl ·) = true) : IsClean t :=
  fun _ hc => Lexicon.isControl_of_mem h hc

theorem nil : IsClean [] := List.forall_mem_nil _

theorem cons (hc : Lexicon.isControl c = false) (h : IsClean t) : IsClean (c :: t) :=
  List.forall_mem_cons.mpr ⟨hc, h⟩

theorem append (hs : IsClean s) (ht : IsClean t) : IsClean (s ++ t) :=
  List.forall_mem_append.mpr ⟨hs, ht⟩

theorem of_sublist (h : IsClean t) (hs : s.Sublist t) : IsClean s := fun c hc => h c (hs.subset hc)

theorem of_isPrefixOf (h : IsClean s) (hs : s.isPrefixOf t = true) : IsClean (t.take s.length) := by
  rw [← List.prefix_iff_eq_take.mp (List.isPrefixOf_iff_prefix.mp hs)]
  exact h

/-- A run of characters none of which is a control character. -/
theorem of_runLength {p : Char → Bool} (hp : ∀ {d}, p d = true → Lexicon.isControl d = false)
    (hn : n ≤ runLength p t) : IsClean (t.take n) :=
  fun d hd => hp (forall_mem_take_of_le_runLength hn d hd)

/-- A text of a table all of whose texts are clean. -/
theorem of_longestOf {table : List Text} (htable : ∀ s ∈ table, IsClean s)
    (h : 0 < Lexicon.longestOf table t) : IsClean (t.take (Lexicon.longestOf table t)) :=
  htable _ (Lexicon.take_longestOf_mem h)

end IsClean

/-! ## §3 Matchers -/

namespace TokenKind

/-- Kinds that take characters of every kind: comments, and the texts and escapes of strings. -/
def isFree : TokenKind → Bool
  | lineComment | blockComment | stringText | rawStringText | stringEscape => true
  | _ => false

end TokenKind

/-- What ends the string of a context is clean. -/
def Context.EndsCleanly (c : Context) : Prop :=
  ∀ t, c.ending?.bind Ending.text? = some t → IsClean t

namespace IsClean

/-- What is taken in two pieces is clean if both are. -/
theorem take_add {m : Nat} (hs : IsClean (t.take n)) (ht : IsClean ((t.drop n).take m)) :
    IsClean (t.take (n + m)) := by
  rw [List.take_add]
  exact hs.append ht

theorem of_nameLength (t : Text) : IsClean (t.take (Lexicon.nameLength t)) := by
  unfold Lexicon.nameLength
  dsimp only
  cases hdrop : t.drop (runLength Lexicon.isDecoration t) with
  | nil => exact nil
  | cons first rest =>
    dsimp only
    split
    · next hstart =>
      have hstart : Lexicon.isNameContinue first = true := by
        rw [Lexicon.isNameContinue, hstart, Bool.true_or]
      rw [Nat.add_assoc, Nat.add_comm 1]
      refine take_add (of_runLength Lexicon.isControl_of_isDecoration le_rfl) ?_
      rw [hdrop, List.take_succ_cons]
      refine cons (Lexicon.isControl_of_isNameContinue hstart) (of_runLength ?_ le_rfl)
      intro d hd
      rcases Bool.or_eq_true_iff.mp hd with hd | hd
      · exact Lexicon.isControl_of_isNameContinue hd
      · exact Lexicon.isControl_of_isDecoration hd
    · exact nil

theorem of_quoteRun (h : View.quoteRun t = some n) : IsClean (t.take n) := by
  unfold View.quoteRun at h
  split at h
  · cases h
  · next q t =>
    split at h
    · next hq =>
      -- Half of an even run is part of the run, too.
      have hclean : Lexicon.isControl q = false := by
        rcases View.eq_of_isQuote hq with rfl | rfl <;> decide
      refine of_runLength (p := (· == q)) (fun hd => eq_of_beq hd ▸ hclean) ?_
      have hrun : runLength (· == q) (q :: t) = 1 + runLength (· == q) t := by
        simp [runLength, Nat.add_comm]
      rw [hrun]
      dsimp only at h
      split at h <;> cases h <;> omega
    · cases h

theorem of_ofLead? {base : Radix} (h : Radix.ofLead? t = some base) : IsClean (t.take 2) := by
  unfold Radix.ofLead? at h
  split at h
  · next letter rest =>
    exact cons (by decide) (cons (Radix.isControl_of_ofLetter? h) nil)
  · cases h

theorem of_either {a b : String} (ha : IsClean a.toList) (hb : IsClean b.toList)
    (hlength : a.length = b.length) (h : View.either a b t = some n) : IsClean (t.take n) := by
  unfold View.either at h
  split at h
  · next hbegins =>
    cases h
    rcases Bool.or_eq_true_iff.mp hbegins with hbegins | hbegins
    · have hclean := of_isPrefixOf ha hbegins
      rwa [String.length_toList] at hclean
    · have hclean := of_isPrefixOf hb hbegins
      rwa [String.length_toList, ← hlength] at hclean
  · cases h

end IsClean

namespace View

variable {v : View}

theorem clean_of_heredoc {sigil : Text} (hsigil : IsClean sigil)
    (h : v.heredoc sigil = .ok (some n)) : IsClean (v.rest.take n) := by
  obtain ⟨quote, delimiter, more, hrest, hquote, -, hdelimiter, -, -, rfl⟩ := exists_of_heredoc h
  have hquote : Lexicon.isControl quote = false := by
    rcases eq_of_isQuote hquote with rfl | rfl <;> decide
  have hdelimiter : IsClean delimiter := fun d hd =>
    Lexicon.isControl_of_isDelimiterCharacter (hdelimiter d hd)
  have hopener : v.rest = (sigil ++ quote :: (delimiter ++ [quote])) ++ more := by
    rw [hrest]
    simp
  rw [hopener, List.take_left' (by simp; omega)]
  exact hsigil.append (.cons hquote (hdelimiter.append (.cons hquote .nil)))

theorem clean_of_numberAt {start : Nat} (h : v.numberAt start t = .ok (some n)) :
    IsClean (t.take n) := by
  obtain ⟨base, hlead, -, -, rfl⟩ | ⟨-, -, rfl⟩ := cases_of_numberAt h
  · exact IsClean.take_add (IsClean.of_ofLead? hlead)
      (IsClean.of_runLength Radix.isControl_of_isDigit le_rfl)
  · exact IsClean.of_runLength Radix.isControl_of_isDigit le_rfl

theorem clean_of_exponent (h : v.exponent = .ok (some n)) : IsClean (v.rest.take n) := by
  obtain ⟨-, c, t, m, hrest, hmarker, rfl, hnumber⟩ := exists_of_exponent h
  rw [hrest, List.take_succ_cons]
  refine IsClean.cons ?_ (clean_of_numberAt hnumber)
  rcases hmarker with rfl | rfl | rfl | rfl <;> decide

theorem clean_of_closed {closing : Option Text} (hclosing : ∀ s, closing = some s → IsClean s)
    (h : closed closing t = some n) : IsClean (t.take n) := by
  obtain ⟨s, hs, hbegins, rfl⟩ := closed_eq_some_iff.mp h
  exact (hclosing s hs).of_isPrefixOf hbegins

theorem clean_of_single (hc : Lexicon.isControl c = false) (h : single c t = some n) :
    IsClean (t.take n) := by
  rw [take_of_single h]
  exact IsClean.cons hc IsClean.nil

theorem clean_of_longestOf {table : List Text}
    (htable : table.all (·.all (!Lexicon.isControl ·)) = true)
    (h : positive (Lexicon.longestOf table t) = some n) : IsClean (t.take n) := by
  obtain ⟨rfl, hpos⟩ := eq_of_positive h
  exact IsClean.of_longestOf (fun s hs => .of_all (List.all_eq_true.mp htable s hs)) hpos

theorem clean_of_hashtag (h : hashtag t = some n) : IsClean (t.take n) := by
  unfold hashtag at h
  split at h
  · next t =>
    obtain ⟨m, hm, rfl⟩ := Option.map_eq_some_iff.mp h
    obtain ⟨rfl, -⟩ := eq_of_positive hm
    exact IsClean.cons (by decide) (IsClean.of_nameLength t)
  · cases h

theorem clean_of_basedBlock (h : basedBlock t = some n) : IsClean (t.take n) := by
  unfold basedBlock at h
  split at h
  · next hblock =>
    cases h
    obtain ⟨base, hlead⟩ := Option.isSome_iff_exists.mp hblock.1
    obtain ⟨more, hmore⟩ := List.head?_eq_some_iff.mp hblock.2
    refine IsClean.take_add (m := 1) (IsClean.of_ofLead? hlead) ?_
    rw [hmore]
    exact IsClean.cons (by decide) IsClean.nil
  · cases h

theorem clean_of_rawString (h : rawString t = some n) : IsClean (t.take n) := by
  unfold rawString at h
  split at h
  · obtain ⟨m, hm, rfl⟩ := Option.map_eq_some_iff.mp h
    exact IsClean.cons (by decide) (IsClean.of_quoteRun hm)
  · cases h

theorem clean_of_basedString (h : basedString t = some n) : IsClean (t.take n) := by
  unfold basedString at h
  split at h
  · next hlead =>
    obtain ⟨base, hlead⟩ := Option.isSome_iff_exists.mp hlead
    obtain ⟨m, hm, rfl⟩ := Option.map_eq_some_iff.mp h
    rw [Nat.add_comm]
    exact IsClean.take_add (IsClean.of_ofLead? hlead) (IsClean.of_quoteRun hm)
  · cases h

theorem clean_of_holeEscape (h : holeEscape t = some n) : IsClean (t.take n) := by
  unfold holeEscape at h
  split at h
  · split at h
    · next hc =>
      cases h
      refine IsClean.cons (by decide) (IsClean.cons ?_ (IsClean.cons (by decide) IsClean.nil))
      rcases hc with rfl | rfl <;> decide
    · cases h
  · cases h

theorem clean_of_basedText (h : v.basedText = some n) : IsClean (v.rest.take n) := by
  unfold basedText at h
  split at h
  · obtain ⟨rfl, -⟩ := eq_of_positive h
    exact IsClean.of_runLength Radix.isControl_of_isDigit le_rfl
  · cases h

/-- **A token that is neither free nor layout is clean**, if what ends the string around it is. -/
theorem clean_of_matchKind {kind : TokenKind} (hfree : kind.isFree = false) (hblank : kind ≠ .blank)
    (hending : v.context.EndsCleanly) (h : v.matchKind kind = .ok (some n)) :
    IsClean (v.rest.take n) := by
  cases kind with
  | lineComment | blockComment | stringText | rawStringText | stringEscape => cases hfree
  | blank => exact absurd rfl hblank
  | name =>
    obtain ⟨rfl, -⟩ := eq_of_positive (Except.ok.inj h)
    exact IsClean.of_nameLength _
  | symbol | shift => exact clean_of_longestOf (by decide +kernel) (Except.ok.inj h)
  | hashtag => exact clean_of_hashtag (Except.ok.inj h)
  | leftBracket | rightBracket | leftParen | rightParen | leftBrace | rightBrace | leftAngle
  | rightAngle => exact clean_of_single (by decide) (Except.ok.inj h)
  | basedBlockOpener => exact clean_of_basedBlock (Except.ok.inj h)
  | stringOpener => exact IsClean.of_quoteRun (Except.ok.inj h)
  | rawStringOpener => exact clean_of_rawString (Except.ok.inj h)
  | basedStringOpener => exact clean_of_basedString (Except.ok.inj h)
  | stringCloser | heredocCloser =>
    rw [matchKind_eq_closed (by decide)] at h
    exact clean_of_closed (fun s hs => hending s (Context.text?_of_closing? hs)) (Except.ok.inj h)
  | holeEscape => exact clean_of_holeEscape (Except.ok.inj h)
  | basedStringText => exact clean_of_basedText (Except.ok.inj h)
  | restOfFileOpener | rawRestOfFileOpener =>
    rw [matchKind] at h
    exact IsClean.of_either (.of_all (by decide)) (.of_all (by decide)) (by decide) (Except.ok.inj h)
  | heredocOpener | rawHeredocOpener => exact clean_of_heredoc (.of_all (by decide)) h
  | number => exact clean_of_numberAt h
  | exponent => exact clean_of_exponent h

end View

namespace Scan

variable {s next : Scan} {kind : TokenKind} {lexeme rest source : Text} {config : LexerConfig}
  {place : Nat} {context : Context}

/-! ## §4 What every state keeps -/

/-- What ends a string is cut out of its opener, and openers are not free. -/
theorem endsCleanly_of_context? (h : context? kind place lexeme = some context)
    (hlexeme : kind.isFree = false → kind ≠ .blank → IsClean lexeme) : context.EndsCleanly := by
  intro t ht
  cases kind with
  | stringOpener =>
    cases h
    cases ht
    exact hlexeme rfl (by decide)
  | rawStringOpener | basedStringOpener =>
    cases h
    cases ht
    exact (hlexeme rfl (by decide)).of_sublist (List.drop_sublist _ _)
  | heredocOpener | rawHeredocOpener =>
    cases h
    cases ht
    exact (hlexeme rfl (by decide)).of_sublist
      ((List.dropLast_sublist _).trans (List.drop_sublist _ _))
  | restOfFileOpener | rawRestOfFileOpener | leftBracket | leftParen | leftBrace | leftAngle
  | basedBlockOpener | holeEscape =>
    cases h
    cases ht
  | _ => cases h

/-- **`Confined`** — control characters have been taken only by tokens that are free and by layout, and
layout has taken nothing but layout. -/
structure Confined (source : Text) (s : Scan) : Prop where
  endings : ∀ c ∈ s.stack, c.EndsCleanly
  tokens : ∀ piece ∈ s.tokens.pieces, piece.1.isFree = false → piece.1 ≠ .blank →
    IsClean (piece.2.slice source)
  layout : ∀ piece ∈ s.tokens.pieces, piece.1 = .blank →
    ∀ c ∈ piece.2.slice source, Lexicon.isBlank c = true

theorem confined_start (source : Text) : Confined source .start where
  endings c hc := by
    rw [List.mem_singleton.mp hc]
    intro t ht
    cases ht
  tokens piece hpiece := by cases hpiece
  layout piece hpiece := by cases hpiece

theorem Confined.endsCleanly_top (h : Confined source s) : s.top.EndsCleanly := by
  unfold top
  cases hstack : s.stack with
  | nil =>
    intro t ht
    cases ht
  | cons c stack => exact h.endings c (hstack ▸ List.mem_cons_self)

/-- **A step keeps control characters to free tokens.** -/
theorem Steps.confined (h : Steps config s rest next n) (hs : Grounded source s rest)
    (hconfined : Confined source s) : Confined source next := by
  cases h with
  | skip => exact ⟨hconfined.endings, hconfined.tokens, hconfined.layout⟩
  | @take m next hstands htakes =>
    have hclean : m.kind.isFree = false → m.kind ≠ .blank → IsClean (rest.take m.length) :=
      fun hfree hblank =>
        View.clean_of_matchKind hfree hblank hconfined.endsCleanly_top hstands.taken
    have hpieces : ∀ piece ∈ next.tokens.pieces, piece ∈ s.tokens.pieces ∨
        piece.1 = m.kind ∧ piece.2.slice source = rest.take m.length := by
      intro piece hpiece
      rw [htakes.pieces_eq] at hpiece
      refine (List.mem_append.mp hpiece).imp_right fun hpiece => ?_
      rw [List.mem_singleton.mp hpiece]
      exact ⟨rfl, hs.slice_eq _⟩
    refine ⟨fun c hc => ?_, fun piece hpiece hfree hblank => ?_, fun piece hpiece hblank => ?_⟩
    · cases htakes with
      | plain => exact hconfined.endings c hc
      | enter hcontext =>
        rcases List.mem_cons.mp hc with rfl | hc
        · exact endsCleanly_of_context? hcontext hclean
        · exact hconfined.endings c hc
      | leave => exact hconfined.endings c (List.mem_of_mem_tail hc)
    · rcases hpieces piece hpiece with hpiece | ⟨hkind, hslice⟩
      · exact hconfined.tokens piece hpiece hfree hblank
      · rw [hkind] at hfree hblank
        rw [hslice]
        exact hclean hfree hblank
    · rcases hpieces piece hpiece with hpiece | ⟨hkind, hslice⟩
      · exact hconfined.layout piece hpiece hblank
      · have htaken := hstands.taken
        rw [← hkind, hblank] at htaken
        obtain ⟨hlength, -⟩ := View.eq_of_positive (Except.ok.inj htaken)
        rw [hslice]
        exact forall_mem_take_of_le_runLength (Nat.le_of_eq hlength.symm)

/-- **Every state that a scan comes to keeps control characters to free tokens.** -/
theorem Reaches.confined (h : Reaches config source s rest) : Confined source s := by
  induction h with
  | start => exact confined_start source
  | step h _ hstep ih => exact (steps_of_step hstep).confined h.grounded ih

end Scan

/-! ## §5 Whole scans -/

/-- Some span of a tiling covers any offset within it. -/
theorem Span.Tiles.exists_contains {start stop offset : Nat} {spans : List Span}
    (h : Span.Tiles start stop spans) (hstart : start ≤ offset) (hstop : offset < stop) :
    ∃ span ∈ spans, span.contains offset = true := by
  induction spans generalizing start with
  | nil =>
    have hempty : start = stop := h
    omega
  | cons span spans ih =>
    obtain ⟨rfl, -, hrest⟩ := h
    by_cases hlt : offset < span.stop
    · refine ⟨span, List.mem_cons_self, ?_⟩
      simp [Span.contains, hstart, hlt]
    · obtain ⟨other, hmem, hcontains⟩ := ih hrest (Nat.le_of_not_lt hlt)
      exact ⟨other, List.mem_cons_of_mem _ hmem, hcontains⟩

/-- The character at an offset is one of the text that covers the offset. -/
theorem mem_of_covers {front back before text after : Text}
    (hsource : front ++ c :: back = before ++ (text ++ after)) (hstart : width before ≤ width front)
    (hstop : width front < width before + width text) : c ∈ text := by
  -- What is in front of the character goes on behind what is in front of the text.
  obtain ⟨inner, rfl, hinner⟩ : ∃ inner, front = before ++ inner ∧
      text ++ after = inner ++ c :: back := by
    rcases List.append_eq_append_iff.mp hsource with ⟨more, rfl, hmore⟩ | ⟨inner, hfront, hinner⟩
    · have hnil : more = [] := by
        by_contra hne
        have hpos := width_pos hne
        rw [width_append] at hstart
        omega
      subst hnil
      exact ⟨[], by rw [List.append_nil, List.append_nil], hmore.symm⟩
    · exact ⟨inner, hfront, hinner⟩
  rw [width_append] at hstop
  rcases List.append_eq_append_iff.mp hinner with ⟨more, rfl, -⟩ | ⟨tail, rfl, htail⟩
  · rw [width_append] at hstop
    omega
  · cases tail with
    | nil =>
      rw [List.append_nil] at hstop
      omega
    | cons d tail =>
      cases htail
      exact List.mem_append_right _ List.mem_cons_self

namespace Scan

variable {config : LexerConfig} {source front back : Text} {out : Tokenized}

/-- Where a source has been scanned, the character at an offset belongs to the token that covers it. -/
theorem exists_token_of_tokenize (h : tokenize config source = .ok out)
    (hsource : source = front ++ c :: back) :
    ∃ t ∈ out.tokens.toList, t.span.contains (width front) = true ∧ c ∈ t.text source := by
  obtain ⟨htiles, hlongest⟩ := tiles_of_tokenize h
  have hstop : width front < width source := by
    have hpos := Char.utf8Size_pos c
    rw [hsource, width_append, width_cons]
    omega
  obtain ⟨span, hspan, hcontains⟩ := htiles.exists_contains (Nat.zero_le _) hstop
  obtain ⟨t, ht, rfl⟩ := List.mem_map.mp hspan
  refine ⟨t, ht, hcontains, ?_⟩
  obtain ⟨earlier, later, heq⟩ := List.append_of_mem ht
  obtain ⟨rest, hlongest⟩ := hlongest earlier t later heq
  obtain ⟨before, hbefore, hoffset⟩ := hlongest.stands
  obtain ⟨n, -, hsize⟩ := hlongest.taken
  simp only [Span.contains, Bool.and_eq_true, decide_eq_true_eq] at hcontains
  have hend : t.span.stop = width before + width (rest.take n) := by
    rw [hsize, Span.size]
    omega
  have hsplit : source = before ++ (rest.take n ++ rest.drop n) := by
    rw [List.take_append_drop, hbefore]
  have htext : t.text source = rest.take n := by
    have hslice := slice_width before (rest.take n) (rest.drop n)
    rw [← hsplit] at hslice
    rw [Token.text, ← hslice, ← hend, hoffset]
  rw [htext]
  exact mem_of_covers (hsource.symm.trans hsplit) (by omega) (by omega)

/-- **Illegal control characters stand in comments and strings only.** If a source is scanned to a result,
each of its illegal control characters is covered by a comment, or by a text or an escape of a string. -/
theorem exists_free_of_isIllegalControl (h : tokenize config source = .ok out)
    (hsource : source = front ++ c :: back) (hc : Lexicon.isIllegalControl c = true) :
    ∃ t ∈ out.tokens.toList, t.kind.isFree = true ∧ t.span.contains (width front) = true := by
  obtain ⟨t, ht, hcontains, hmem⟩ := exists_token_of_tokenize h hsource
  refine ⟨t, ht, ?_, hcontains⟩
  by_contra hfree
  obtain ⟨last, hreaches, hfinish⟩ := exists_reaches_of_tokenize h
  obtain ⟨-, -, htokens⟩ := errors_eq_nil_of_finish hfinish
  have hpiece : t.piece ∈ last.tokens.pieces :=
    List.mem_map_of_mem (htokens ▸ ht)
  by_cases hblank : t.kind = .blank
  · have hlayout := hreaches.confined.layout t.piece hpiece hblank c hmem
    exact absurd hc (Bool.eq_false_iff.mp (Lexicon.isIllegalControl_of_isBlank hlayout))
  · have hclean := hreaches.confined.tokens t.piece hpiece (Bool.eq_false_iff.mpr hfree) hblank c hmem
    exact absurd (Lexicon.isControl_of_isIllegalControl hc) (Bool.eq_false_iff.mp hclean)

/-- A control character in a line comment, behind a name. -/
theorem exists_free_of_isIllegalControl_of_comment :
    let source : Text := ['a', '%', '\x01', '\n', 'b']
    Lexicon.isIllegalControl '\x01' = true ∧
    ∃ out, tokenize default source = .ok out ∧ ∃ t ∈ out.tokens.toList,
      t.kind.isFree = true ∧ t.span.contains 2 = true := by
  intro source
  have hscan : (tokenize default source).toOption.isSome = true := by decide +kernel
  obtain ⟨out, hout⟩ := exists_ok_of_isSome hscan
  have hsource : source = ['a', '%'] ++ '\x01' :: ['\n', 'b'] := rfl
  exact ⟨by decide, out, hout, exists_free_of_isIllegalControl hout hsource (by decide)⟩

/-- **There they are let through**: a string of nothing but a control character is scanned to its three
tokens. -/
theorem exists_tokenize_of_isIllegalControl :
    let source : Text := ['"', '\x01', '"']
    Lexicon.isIllegalControl '\x01' = true ∧ '\x01' ∈ source ∧
    ∃ out, tokenize default source = .ok out ∧
      out.tokens.toList.map (·.kind) = [.stringOpener, .stringText, .stringCloser] := by
  intro source
  have hkinds : (tokenize default source).toOption.map (·.tokens.toList.map (·.kind)) =
      some [.stringOpener, .stringText, .stringCloser] := by decide +kernel
  obtain ⟨out, hout, hkinds⟩ := Option.map_eq_some_iff.mp hkinds
  exact ⟨by decide, by decide, out, toOption_eq_some_iff.mp hout, hkinds⟩

end Scan

end DewyFront
