/-
# DewyFront.Proofs.Evidence — what the lexer refuses stands in the source

A matcher refuses the text in front of it, or part of it. So whatever a scan is refused for, and every
carriage return that it warns of, is found in the source where it says, with no character cut. A scan
ends in no fault: a closing delimiter is read only where there is a block to close.

* §1 characters of one byte;
* §2 matchers;
* §3 states;
* §4 steps;
* §5 scans;
* §6 escapes.
-/
import DewyFront.Proofs.Enclosing
import DewyFront.Proofs.Labels

namespace DewyFront

variable {source t : Text}

/-! ## §1 Characters -/

/-- Characters up to one of one byte have one byte. -/
theorem utf8Size_of_le {c d : Char} (h : c ≤ d) (hd : d.utf8Size = 1) : c.utf8Size = 1 :=
  Char.utf8Size_eq_one_iff.mpr (UInt32.le_trans h (Char.utf8Size_eq_one_iff.mp hd))

theorem utf8Size_of_isHexDigit {c : Char} (h : View.isHexDigit c = true) : c.utf8Size = 1 := by
  unfold View.isHexDigit Radix.isDigit Radix.digitValue? at h
  dsimp only at h
  split_ifs at h with hdigit hlower hupper
  · exact utf8Size_of_le hdigit.2 rfl
  · exact utf8Size_of_le hlower.2 rfl
  · exact utf8Size_of_le hupper.2 rfl
  · cases h

theorem utf8Size_of_isIllegalControl {c : Char} (h : Lexicon.isIllegalControl c = true) :
    c.utf8Size = 1 := by
  rw [Char.utf8Size_eq_one_iff, UInt32.le_iff_toNat_le]
  simp only [Lexicon.isIllegalControl, Bool.or_eq_true, Bool.and_eq_true, decide_eq_true_eq,
    beq_iff_eq] at h
  show c.toNat ≤ 127
  omega

theorem utf8Size_of_isQuote {c : Char} (h : View.isQuote c = true) : c.utf8Size = 1 := by
  simp only [View.isQuote, Bool.or_eq_true, beq_iff_eq] at h
  rcases h with rfl | rfl <;> rfl

/-- As many characters as the run in front has are of the run. -/
theorem forall_mem_take_of_le_runLength {p : Char → Bool} {n : Nat} (h : n ≤ runLength p t) :
    ∀ c ∈ t.take n, p c = true := by
  rw [← List.takeWhile_append_dropWhile (p := p) (l := t), List.take_append_of_le_length h]
  exact fun c hc => List.mem_takeWhile_imp (List.mem_of_mem_take hc)

/-- A base is named by a letter of one byte. -/
theorem Radix.utf8Size_of_ofLetter? {c : Char} {base : Radix} (h : ofLetter? c = some base) :
    c.utf8Size = 1 := by
  have hletter : base.letter = c.toLower := by simpa using List.find?_some h
  have hlower : c.toLower.utf8Size = 1 := by
    rw [← hletter]
    cases base <;> rfl
  unfold Char.toLower at hlower
  split at hlower
  · next hupper => exact utf8Size_of_le (d := 'Z') hupper.2 rfl
  · exact hlower

/-- A lead has two bytes. -/
theorem Radix.exists_of_ofLead? {base : Radix} (h : ofLead? t = some base) :
    ∃ lead, t = lead ++ t.drop 2 ∧ width lead = 2 := by
  unfold ofLead? at h
  split at h
  · next c rest =>
    refine ⟨['0', c], rfl, ?_⟩
    rw [width_cons, width_cons, utf8Size_of_ofLetter? h]
    rfl
  · cases h

/-! ## §2 Matchers -/

namespace View

open LexError

variable {v : View} {e : LexError}

theorem escape_about (hread : StandsAt source v.start v.rest) (h : v.escape = .error e) :
    e.About source := by
  unfold escape at h
  split at h
  · next hrest =>
    cases h
    rw [hrest] at hread
    exact hread.on
  · next c t hrest =>
    dsimp only at h
    split at h
    · next hc =>
      split at h
      · cases h
      · split at h
        · next hshort =>
          cases h
          have hdigits := forall_mem_take_of_le_runLength
            (Nat.min_le_left (runLength isHexDigit t) escapeDigits)
          refine ⟨?_, ['\\', c], _, rfl, rfl, ?_, ?_, le_rfl⟩
          · rw [hrest] at hread
            refine StandsAt.left (t := t.drop (min (runLength isHexDigit t) escapeDigits)) ?_
            rwa [List.cons_append, List.cons_append, List.take_append_drop]
          · refine List.forall_mem_cons.mpr ⟨rfl, List.forall_mem_cons.mpr ⟨?_, fun d hd => ?_⟩⟩
            · rcases hc with rfl | rfl <;> rfl
            · exact utf8Size_of_isHexDigit (hdigits d hd)
          · exact (List.length_take_le _ t).trans_lt hshort
        · cases h
    · cases h
  · cases h

/-- Once the delimiter of a heredoc has begun, everything up to what ends it is there. -/
theorem heredoc_about {sigil : Text} (hread : StandsAt source v.start v.rest)
    (h : v.heredoc sigil = .error e) : e.About source := by
  unfold heredoc at h
  split at h
  · cases h
  · next hsigil =>
    have hsigil : sigil <+: v.rest := List.isPrefixOf_iff_prefix.mp (by simpa using hsigil)
    obtain ⟨back, hrest⟩ := hsigil
    rw [← hrest, List.drop_left] at h
    rw [← hrest] at hread
    split at h
    · cases h
    · next quote body =>
      dsimp only at h
      -- Behind the quote stand the delimiter, at most one character that ends it, and the rest.
      generalize hdelimiter : body.takeWhile Lexicon.isDelimiterCharacter = delimiter at h
      generalize hbehind : body.dropWhile Lexicon.isDelimiterCharacter = behind at h
      have hbody : body = delimiter ++ (behind.head?.toList ++ behind.tail) := by
        rw [← List.takeWhile_append_dropWhile (p := Lexicon.isDelimiterCharacter) (l := body),
          hdelimiter, hbehind]
        cases behind <;> rfl
      rw [hbody] at hread
      have hread : StandsAt source v.start (sigil ++ quote :: (delimiter ++ behind.head?.toList)) :=
        StandsAt.left (t := behind.tail) (by simpa using hread)
      split at h
      · cases h
      · next hbegun =>
        have hbegun : isQuote quote = true := by
          by_contra hquote
          simp [hquote] at hbegun
        have hquote := utf8Size_of_isQuote hbegun
        have hword : StandsAt source (v.start + width sigil + 1) delimiter :=
          hquote ▸ hread.right.tail.left
        split at h
        · cases h
          exact ⟨hquote, hread⟩
        · split at h
          · cases h
            exact hword.on
          · next hblank =>
            split at h
            · next hedge =>
              cases h
              refine ⟨hword, ?_, hedge⟩
              simpa using hblank
            · cases h

/-- Digits of a base that is too high stand behind their lead. -/
theorem numberAt_about {start : Nat} (hread : StandsAt source start t)
    (h : v.numberAt start t = .error e) : e.About source := by
  obtain ⟨base, hbase, rfl⟩ := exists_of_numberAt_error h
  obtain ⟨lead, hlead, hwidth⟩ := Radix.exists_of_ofLead? hbase
  refine ⟨lead, hwidth, StandsAt.left (t := (t.drop 2).drop (digitRun base (t.drop 2))) ?_⟩
  rwa [List.append_assoc, List.take_append_drop, ← hlead]

theorem exponent_about (hread : StandsAt source v.start v.rest) (h : v.exponent = .error e) :
    e.About source := by
  obtain ⟨c, t, hrest, hmarker, hnumber⟩ := exists_of_exponent_error h
  have hsize : c.utf8Size = 1 := by rcases hmarker with rfl | rfl | rfl | rfl <;> rfl
  rw [hrest] at hread
  exact numberAt_about (hsize ▸ hread.tail) hnumber

/-- The spans of the openers of comments, which are at offsets behind `start`. -/
def openerSpans (start : Nat) (openers : List Nat) : List Span :=
  (openers.map (start + ·)).map fun o => ⟨o, o + 2⟩

/-- **Openers that are still open stand one behind the other**: what opens a comment is the last of them,
and what closes one takes the last away. -/
theorem ascends_scanNested {start stop : Nat} {openers os : List Nat} {chars bytes : Nat}
    (h : Lexicon.scanNested openers chars bytes t = .unterminated os)
    (hread : StandsAt source (start + bytes) t) (hstop : start + bytes + width t = stop)
    (hne : openers ≠ []) (hopen : Span.Ascends (IsBoundary source) start (start + bytes)
      (openerSpans start openers.reverse)) :
    os ≠ [] ∧ Span.Ascends (IsBoundary source) start stop (openerSpans start os) := by
  fun_induction Lexicon.scanNested openers chars bytes t with
  | case1 openers chars bytes rest ih =>
    have hopener : (Span.mk (start + bytes) (start + bytes + 2)).On (IsBoundary source) :=
      StandsAt.on_of_width (s := ['%', '\x7b']) hread rfl
    have hwidth : width ('%' :: '\x7b' :: rest) = 1 + (1 + width rest) := rfl
    refine ih h (hread.right (s := ['%', '\x7b'])) (by omega) (List.cons_ne_nil _ _) ?_
    rw [List.reverse_cons, openerSpans, List.map_append, List.map_append]
    exact Span.ascends_append.mpr ⟨_, hopen, le_rfl, hopener, le_rfl⟩
  | case2 chars bytes rest opener outer more ih =>
    have hwidth : width ('\x7d' :: '%' :: rest) = 1 + (1 + width rest) := rfl
    refine ih h (hread.right (s := ['\x7d', '%'])) (by omega) (List.cons_ne_nil _ _) ?_
    rw [List.reverse_cons, openerSpans, List.map_append, List.map_append] at hopen
    obtain ⟨middle, hfront, hlast⟩ := Span.ascends_append.mp hopen
    exact hfront.mono le_rfl (hlast.le.trans (by omega))
  | case3 => cases h
  | case4 openers chars bytes c rest _ _ ih =>
    rw [width_cons] at hstop
    exact ih h (Nat.add_assoc .. ▸ hread.tail) (by omega) hne (hopen.mono le_rfl (by omega))
  | case5 openers =>
    cases h
    refine ⟨List.reverse_ne_nil_iff.mpr hne, ?_⟩
    rwa [← hstop]

theorem blockComment_about (hread : StandsAt source v.start v.rest) (h : v.blockComment = .error e) :
    e.About source := by
  unfold blockComment Lexicon.scanComment at h
  split at h
  · cases h
  · cases h
  · next openers hscan =>
    cases h
    split at hscan
    · next rest hrest =>
      rw [hrest] at hread ⊢
      have hopener : (Span.mk v.start (v.start + 2)).On (IsBoundary source) :=
        StandsAt.on_of_width (s := ['%', '\x7b']) hread rfl
      have hwidth : width ('%' :: '\x7b' :: rest) = 1 + (1 + width rest) := rfl
      have hstop : v.start + 2 + width rest = v.start + width ('%' :: '\x7b' :: rest) := by omega
      obtain ⟨hne, hopen⟩ := ascends_scanNested hscan (hread.right (s := ['%', '\x7b'])) hstop
        (List.cons_ne_nil _ _) ⟨le_rfl, hopener, le_rfl⟩
      exact ⟨mt List.map_eq_nil_iff.mp hne, hread.stop, hopen.mono (Nat.zero_le _) le_rfl⟩
    · cases hscan

/-- **What a matcher refuses stands in the source**, in front of it. -/
theorem matchKind_about {kind : TokenKind} (hread : StandsAt source v.start v.rest)
    (h : v.matchKind kind = .error e) : e.About source := by
  cases kind with
  | blockComment => exact blockComment_about hread h
  | stringEscape => exact escape_about hread h
  | heredocOpener | rawHeredocOpener => exact heredoc_about hread h
  | number => exact numberAt_about hread h
  | exponent => exact exponent_about hread h
  | _ => cases h

theorem matchesOf_about {kinds : List TokenKind} (hread : StandsAt source v.start v.rest)
    (h : v.matchesOf kinds = .error e) : e.About source := by
  induction kinds with
  | nil => cases h
  | cons kind kinds ih =>
    rw [matchesOf] at h
    cases hkind : v.matchKind kind with
    | error e' =>
      rw [hkind] at h
      cases h
      exact matchKind_about hread hkind
    | ok found =>
      rw [hkind] at h
      cases hmore : v.matchesOf kinds with
      | error e' =>
        rw [hmore] at h
        cases h
        exact ih hmore
      | ok more =>
        rw [hmore] at h
        cases h

end View

/-! ## §3 States -/

namespace TokenList

variable {p : Nat → Prop} {l : TokenList}

/-- Where no token is, the span is that of nothing, at the start. -/
theorem span_on (hzero : p 0) (h : ∀ piece ∈ l.pieces, piece.2.On p) (i : Nat) : (l.span i).On p := by
  unfold span
  cases hi : l.get? i with
  | none => exact Span.on_point hzero
  | some t =>
    rw [← getElem?_toList] at hi
    exact h t.piece (List.mem_map_of_mem (List.mem_of_getElem? hi))

end TokenList

namespace Scan

variable {config : LexerConfig} {s next : Scan} {kind : TokenKind} {lexeme rest : Text} {n : Nat}

/-- Lone carriage returns that are found in a source. -/
def ReturnsIn (source : Text) (offsets : List Nat) : Prop :=
  ∀ o ∈ offsets, (Span.mk o (o + 1)).On (IsBoundary source)

/-- Lone carriage returns stand in the text that is searched for them. -/
theorem returnsIn_loneReturnsIn {offset : Nat} (hread : StandsAt source offset t) :
    ReturnsIn source (loneReturnsIn offset t) := by
  fun_induction loneReturnsIn offset t with
  | case1 offset t ih => exact ih (hread.right (s := ['\r', '\n']))
  | case2 offset t _ ih =>
    exact List.forall_mem_cons.mpr ⟨StandsAt.on_of_width (s := ['\r']) hread rfl, ih hread.tail⟩
  | case3 offset c t _ _ ih => exact ih hread.tail
  | case4 => exact List.forall_mem_nil _

/-- **`Evident`** — a state all of whose tokens, errors and lone returns are found in the source. Where
a chevron is the last token, whatever was read last has one byte. -/
structure Evident (source : Text) (s : Scan) : Prop where
  tokens : ∀ piece ∈ s.tokens.pieces, piece.2.On (IsBoundary source)
  errors : ∀ e ∈ s.errors, e.About source
  returns : ReturnsIn source s.loneReturns
  chevron : s.tokens.last?.map (·.kind) = some .rightAngle → IsBoundary source (s.offset - 1)

theorem evident_start (source : Text) : Evident source .start where
  tokens := fun _ h => nomatch h
  errors := fun _ h => nomatch h
  returns := fun _ h => nomatch h
  chevron := fun h => nomatch h

theorem Grounded.standsAt (h : Grounded source s rest) : StandsAt source s.offset rest := by
  obtain ⟨front, hsource, hoffset⟩ := h.read
  exact ⟨front, [], by rw [hsource, List.append_nil], hoffset.symm⟩

theorem loneReturns_of_closeBlock {place : Nat} (h : s.closeBlock kind place lexeme = .ok next) :
    next.loneReturns = s.loneReturns := by
  unfold closeBlock at h
  split at h
  · dsimp only at h
    split at h
    · cases h
      rfl
    · cases h
  · cases h

/-- Taking a token finds the lone returns of its text, if it is layout. -/
theorem loneReturns_of_take (h : s.take kind lexeme = .ok next) :
    next.loneReturns = s.loneReturns ∨
      next.loneReturns = s.loneReturns ++ loneReturnsIn s.offset lexeme := by
  cases kind with
  | blank =>
    cases h
    exact .inr rfl
  | rightBracket | rightParen | rightBrace =>
    exact .inl (loneReturns_of_closeBlock (s := s.record _ lexeme) h)
  | rightAngle | stringCloser | heredocCloser =>
    cases h
    refine .inl ?_
    cases (s.record _ lexeme).top.opener? <;> rfl
  | _ =>
    cases h
    refine .inl ?_
    generalize context? _ _ lexeme = begun
    cases begun <;> rfl

/-- A chevron that closes is one byte. -/
theorem eq_of_rightAngle {v : View} (h : v.matchKind .rightAngle = .ok (some n)) :
    v.rest.take n = ['>'] := by
  have hsingle : View.single '>' v.rest = some n := Except.ok.inj h
  unfold View.single at hsingle
  split at hsingle
  · next hhead =>
    cases hsingle
    obtain ⟨rest, hrest⟩ := List.head?_eq_some_iff.mp hhead
    rw [hrest]
    rfl
  · cases hsingle

/-- **Taking a token leaves everything found in the source.** -/
theorem Evident.take {m : View.Match} (he : Evident source s)
    (hread : StandsAt source s.offset rest) (hmatch : (s.view config rest).matchKind m.kind = .ok (some m.length))
    (hlegal : m.kind.isLegalIn s.top.kind = true)
    (h : s.take m.kind (rest.take m.length) = .ok next) : Evident source next := by
  have htakes := takes_of_take h hlegal
  have hlexeme := hread.take m.length
  constructor
  · rw [htakes.pieces_eq]
    exact List.forall_mem_append.mpr ⟨he.tokens, List.forall_mem_singleton.mpr hlexeme.on⟩
  · rw [htakes.errors_eq]
    exact he.errors
  · rcases loneReturns_of_take h with heq | heq <;> rw [heq]
    · exact he.returns
    · exact List.forall_mem_append.mpr ⟨he.returns, returnsIn_loneReturnsIn hlexeme⟩
  · intro hlast
    rw [TokenList.last?_eq, htakes.pieces_eq, List.getLast?_concat] at hlast
    have hkind : m.kind = .rightAngle := by simpa using hlast
    rw [hkind] at hmatch
    have hchevron : rest.take m.length = ['>'] := eq_of_rightAngle hmatch
    rw [htakes.offset_eq, hchevron]
    exact hread.start

/-- **Skipping control characters leaves everything found in the source.** -/
theorem Evident.skip (he : Evident source s) (hread : StandsAt source s.offset rest)
    (hrun : 0 < Lexicon.controlLength rest) :
    Evident source (s.skip (rest.take (Lexicon.controlLength rest))) where
  tokens := he.tokens
  errors := List.forall_mem_append.mpr
    ⟨he.errors, List.forall_mem_singleton.mpr (hread.take (Lexicon.controlLength rest)).on⟩
  returns := he.returns
  chevron := fun _ => by
    -- the last of the characters that are skipped has one byte
    have hcontrol := forall_mem_take_of_le_runLength (p := Lexicon.isIllegalControl) (t := rest)
      (n := Lexicon.controlLength rest) le_rfl
    have hread := hread.take (Lexicon.controlLength rest)
    have hne : rest.take (Lexicon.controlLength rest) ≠ [] := by
      rw [Ne, List.take_eq_nil_iff]
      rintro (hzero | rfl)
      · omega
      · exact absurd hrun (by decide)
    show IsBoundary source (s.offset + width (rest.take (Lexicon.controlLength rest)) - 1)
    generalize rest.take (Lexicon.controlLength rest) = run at hread hcontrol hne
    obtain ⟨front, c, rfl⟩ := (List.eq_nil_or_concat' run).resolve_left hne
    have hc := utf8Size_of_isIllegalControl (hcontrol c List.mem_concat_self)
    have hstop := hread.left.stop
    rwa [width_append, width_cons, width_nil, hc, ← Nat.add_assoc, Nat.add_sub_cancel]

/-! ## §4 Steps -/

/-- A closing delimiter in a block closes it, or is refused where it stands. -/
theorem closeBlock_concludes {place : Nat} (htop : s.top.kind = .blockBody)
    (htokens : ∀ piece ∈ s.tokens.pieces, piece.2.On (IsBoundary source)) :
    Concludes (LexError.About source) (fun _ => True) (s.closeBlock kind place lexeme) := by
  have hon := TokenList.span_on (isBoundary_zero source) htokens
  unfold closeBlock
  split
  · dsimp only
    split
    · trivial
    · exact ⟨hon _, hon _⟩
  · next hother =>
    generalize s.top = c at htop hother
    cases c with
    | blockBody opener base => exact hother opener base rfl
    | _ => cases htop

/-- **A token that may stand where it does is taken**, or refused as a closer that closes nothing. -/
theorem take_concludes {m : View.Match} (he : Evident source s) (hread : StandsAt source s.offset rest)
    (hstands : Stands (s.view config rest) m) :
    Concludes (LexError.About source) (Evident source) (s.take m.kind (rest.take m.length)) := by
  have htokens : ∀ piece ∈ (s.record m.kind (rest.take m.length)).tokens.pieces,
      piece.2.On (IsBoundary source) := by
    rw [record, TokenList.pieces_push]
    exact List.forall_mem_append.mpr
      ⟨he.tokens, List.forall_mem_singleton.mpr (hread.take m.length).on⟩
  have hconcludes : Concludes (LexError.About source) (fun _ => True)
      (s.take m.kind (rest.take m.length)) := by
    obtain ⟨kind, length⟩ := m
    have hlegal : kind.isLegalIn s.top.kind = true := hstands.legal
    cases kind with
    | rightBracket | rightParen | rightBrace =>
      exact closeBlock_concludes (s := s.record _ (rest.take length)) (eq_of_beq hlegal) htokens
    | _ => trivial
  exact hconcludes.mono fun next hnext _ => he.take hread hstands.taken hstands.legal hnext

/-- Several matches are refused for the text of the longest. -/
theorem ambiguity_about (hread : StandsAt source s.offset rest) (ms : List View.Match) :
    (s.ambiguity rest ms).About source := by
  unfold ambiguity
  dsimp only
  split
  · exact hread.take (View.greatestLength ms)
  · exact (hread.take (View.greatestLength ms)).on

/-- Where there is no match, a chevron, control characters or the place are named. -/
theorem unmatched_concludes (hread : StandsAt source s.offset rest) (he : Evident source s) :
    Concludes (LexError.About source) (fun x => Evident source x.1)
      (if s.isSecondChevron rest then refuse (.shiftInTypeParam s.offset)
      else
        let run := Lexicon.controlLength rest
        if 0 < run then return (s.skip (rest.take run), run)
        else refuse (.noToken s.offset s.top.kind rest)) := by
  split
  · next hchevron =>
    simp only [isSecondChevron, Bool.and_eq_true, beq_iff_eq] at hchevron
    obtain ⟨⟨-, hlast⟩, hhead⟩ := hchevron
    obtain ⟨rest, rfl⟩ := List.head?_eq_some_iff.mp hhead
    have hstop : IsBoundary source (s.offset + 1) := (hread.left (s := ['>'])).stop
    exact ⟨hread.start, he.chevron hlast, hstop, by dsimp only; omega⟩
  · dsimp only
    split
    · next hrun => exact he.skip hread hrun
    · exact hread.start

/-- **A step finds everything in the source**: what it leaves, and what it is refused for. -/
theorem step_concludes (hs : Grounded source s rest) (he : Evident source s) :
    Concludes (LexError.About source) (fun x => Evident source x.1) (s.step config rest) := by
  have hread := hs.standsAt
  have hfound : Concludes (LexError.About source) (fun _ => True)
      ((s.view config rest).allMatches.mapError .refused) := by
    cases h : (s.view config rest).allMatches with
    | error e => exact View.matchesOf_about hread h
    | ok ms => trivial
  refine hfound.bind fun ms hms _ => ?_
  dsimp only
  split
  · next m hm =>
    have hstands := stands_of_winners (mapError_ok_iff.mp hms) hm
    exact (take_concludes he hread hstands).bind fun next _ hnext => hnext
  · exact unmatched_concludes hread he
  · exact ambiguity_about hread _

/-! ## §5 Scans -/

/-- Several causes, each about a source. -/
def AllAbout (source : Text) (causes : List LexError) : Prop :=
  causes ≠ [] ∧ ∀ cause ∈ causes, cause.About source

/-- Every context that is open at the end is reported from where its opener stands. -/
theorem finish_concludes (hs : Grounded source s []) (he : Evident source s) :
    Concludes (AllAbout source) (fun out => ReturnsIn source out.loneReturns) s.finish := by
  have hopen : ∀ e ∈ s.openContexts.filterMap s.openError, e.About source := by
    intro e h
    obtain ⟨context, -, h⟩ := List.mem_filterMap.mp h
    obtain ⟨opener, -, rfl⟩ := Option.map_eq_some_iff.mp h
    exact ⟨TokenList.span_on (isBoundary_zero source) he.tokens opener, hs.standsAt.start⟩
  have hall := List.forall_mem_append.mpr ⟨he.errors, hopen⟩
  unfold finish
  split
  · exact he.returns
  · next errors hne => exact ⟨hne, hall⟩

/-- **A scan of what is left finds everything in the source**, step by step. -/
theorem run_concludes (hs : Grounded source s rest) (he : Evident source s) :
    Concludes (AllAbout source) (fun out => ReturnsIn source out.loneReturns) (run config s rest) := by
  -- By the length of what is left, which every step shortens.
  induction hn : rest.length using Nat.strongRecOn generalizing s rest with
  | ind k ih =>
    subst hn
    cases rest with
    | nil =>
      rw [run]
      exact finish_concludes hs he
    | cons c t =>
      have hstep : Concludes (LexError.About source) (fun x => Evident source x.1)
          (s.step config (c :: t)) := step_concludes hs he
      cases hresult : s.step config (c :: t) with
      | ok x =>
        obtain ⟨next, n⟩ := x
        have hsteps := steps_of_step hresult
        obtain ⟨hpos, -⟩ := hsteps.bounds hs
        rw [hresult] at hstep
        rw [run_step hs (List.cons_ne_nil c t) hresult]
        refine ih _ ?_ (hsteps.grounded hs) hstep rfl
        rw [List.length_drop, List.length_cons]
        omega
      | error failure =>
        rw [hresult] at hstep
        rw [run_of_failure (List.cons_ne_nil c t) hresult]
        cases failure with
        | refused e =>
          exact ⟨List.concat_ne_nil e s.errors, List.forall_mem_append.mpr
            ⟨he.errors, List.forall_mem_singleton.mpr hstep⟩⟩
        | broken fault => exact hstep

theorem tokenize_concludes (config : LexerConfig) (source : Text) :
    Concludes (AllAbout source) (fun out => ReturnsIn source out.loneReturns) (tokenize config source) :=
  run_concludes (grounded_start source) (evident_start source)

end Scan

/-! ## §6 Escapes -/

theorem Lexeme.enclosed?_sublists {l : Lexeme} {rest : List Lexeme} {e : Enclosed}
    (h : l.enclosed? rest = some e) : e.inner.Sublist rest ∧ e.after.Sublist rest := by
  simp only [Lexeme.enclosed?, bind, Option.bind_eq_some_iff, pure, Option.some.injEq] at h
  obtain ⟨partner, -, closer, -, rfl⟩ := h
  exact ⟨List.take_sublist .., List.drop_sublist ..⟩

namespace Tree

variable {l : Lexeme} {ls : List Lexeme} {base : Radix} {previous : Option Lexeme} {cause : LexError}

theorem stringBody_sublists (l : Lexeme) (rest : List Lexeme) :
    (stringBody l rest).inner.Sublist rest ∧ (stringBody l rest).after.Sublist rest := by
  unfold stringBody
  split
  · next e h => exact Lexeme.enclosed?_sublists h
  · exact ⟨.refl rest, List.nil_sublist rest⟩

theorem fraction?_sublist {rest more : List Lexeme} {digits : Text} {span : Span}
    (h : fraction? previous l rest = some (digits, span, more)) : more.Sublist rest := by
  unfold fraction? at h
  split at h
  · split at h
    · cases h
      exact (List.sublist_cons_self ..).trans (List.sublist_cons_self ..)
    · cases h
  · cases h

theorem exponent?_sublist {rest more : List Lexeme} {e : Exponent} {span : Span}
    (h : exponent? base rest = some (e, span, more)) : more.Sublist rest := by
  unfold exponent? at h
  split at h
  · split at h
    · cases h
      exact List.sublist_cons_self ..
    · cases h
  · cases h

/-- What stands behind a number was behind its first token. -/
theorem number_sublist (base : Radix) (previous : Option Lexeme) (l : Lexeme) (rest : List Lexeme) :
    (number base previous l rest).2.Sublist rest := by
  unfold number
  -- With or without a fraction, with or without an exponent behind it.
  rcases hfraction : fraction? previous l rest with _ | ⟨digits, span, more⟩
  · dsimp only
    rcases hexponent : exponent? base rest with _ | ⟨e, span, behind⟩
    · exact .refl rest
    · exact exponent?_sublist hexponent
  · have hmore := fraction?_sublist hfraction
    dsimp only
    rcases hexponent : exponent? base more with _ | ⟨e, span', behind⟩
    · exact hmore
    · exact (exponent?_sublist hexponent).trans hmore

/-- **`RefusedAtEscape`** — a cause that is about one of some lexemes, and the code point it escapes. -/
def RefusedAtEscape (ls : List Lexeme) (cause : LexError) : Prop :=
  ∃ l ∈ ls, ∃ digits, cause = .invalidCodePoint l.span digits

theorem RefusedAtEscape.of_sublist {ls' : List Lexeme} (h : RefusedAtEscape ls' cause)
    (hs : ls'.Sublist ls) : RefusedAtEscape (l :: ls) cause := by
  obtain ⟨l', hl', hcause⟩ := h
  exact ⟨l', List.mem_cons_of_mem l (hs.subset hl'), hcause⟩

theorem escapeText_refused (h : escapeText l = refuse cause) :
    ∃ digits, cause = .invalidCodePoint l.span digits := by
  unfold escapeText at h
  split at h
  · cases h
  · cases h
  · split at h
    · rcases bind_refuse_iff.mp h with h | ⟨c, -, h⟩
      · unfold codePoint at h
        split at h
        · cases h
        · next digits _ =>
          split at h
          · cases h
          · cases h
            exact ⟨digits, rfl⟩
      · cases h
    · cases h

theorem ofMarks_ne_refuse (l : Lexeme) : ofMarks l ≠ refuse cause := by
  unfold ofMarks
  split <;> exact nofun

theorem blockKind_ne_refuse (l closer : Lexeme) : blockKind l closer ≠ refuse cause := by
  unfold blockKind
  split <;> exact nofun

/-- At most so many lexemes are refused at one of them. -/
def RefusesEscapes (n : Nat) : Prop :=
  (∀ {ls : List Lexeme} {base : Radix} {previous : Option Lexeme} {cause : LexError},
    ls.length ≤ n → ofLexemes base previous ls = refuse cause → RefusedAtEscape ls cause) ∧
  ∀ {ls : List Lexeme} {cause : LexError},
    ls.length ≤ n → piecesOf ls = refuse cause → RefusedAtEscape ls cause

theorem ofLexemes_cons_refused {n : Nat} (ih : RefusesEscapes n) (hlen : ls.length ≤ n)
    (h : ofLexemes base previous (l :: ls) = refuse cause) : RefusedAtEscape (l :: ls) cause := by
  have hitems : ∀ {base previous ls'}, ls'.Sublist ls → ofLexemes base previous ls' = refuse cause →
      RefusedAtEscape (l :: ls) cause := fun hs h =>
    (ih.1 (hs.length_le.trans hlen) h).of_sublist hs
  have hpieces : ∀ {ls'}, ls'.Sublist ls → piecesOf ls' = refuse cause →
      RefusedAtEscape (l :: ls) cause := fun hs h =>
    (ih.2 (hs.length_le.trans hlen) h).of_sublist hs
  unfold ofLexemes at h
  split at h
  -- Layout, names and hashtags are refused for nothing themselves, only for what is behind them.
  case h_1 | h_2 | h_3 | h_4 | h_7 =>
    rcases bind_refuse_iff.mp h with h | ⟨_, -, h⟩
    · exact hitems (.refl ls) h
    · cases h
  case h_5 | h_6 =>
    obtain ⟨_, -, h⟩ := (bind_refuse_iff.mp h).resolve_left (ofMarks_ne_refuse l)
    rcases bind_refuse_iff.mp h with h | ⟨_, -, h⟩
    · exact hitems (.refl ls) h
    · cases h
  case h_8 =>
    rcases bind_refuse_iff.mp h with h | ⟨_, -, h⟩
    · exact hitems (number_sublist ..) h
    · cases h
  -- A block is refused for what is inside of it, or for what is behind it; so is a string.
  case h_9 | h_10 | h_11 | h_12 | h_13 =>
    split at h
    · cases h
    · next e he =>
      obtain ⟨hinner, hafter⟩ := Lexeme.enclosed?_sublists he
      obtain ⟨_, -, h⟩ := (bind_refuse_iff.mp h).resolve_left (blockKind_ne_refuse _ _)
      rcases bind_refuse_iff.mp h with h | ⟨_, -, h⟩
      · exact hitems hinner h
      · rcases bind_refuse_iff.mp h with h | ⟨_, -, h⟩
        · exact hitems hafter h
        · cases h
  case h_14 | h_15 | h_16 | h_17 | h_18 | h_19 =>
    obtain ⟨hinner, hafter⟩ := stringBody_sublists l ls
    rcases bind_refuse_iff.mp h with h | ⟨_, -, h⟩
    · exact hpieces hinner h
    · rcases bind_refuse_iff.mp h with h | ⟨_, -, h⟩
      · exact hitems hafter h
      · cases h
  case h_20 =>
    split at h
    · cases h
    · next e he =>
      rcases bind_refuse_iff.mp h with h | ⟨_, -, h⟩
      · exact hitems (Lexeme.enclosed?_sublists he).2 h
      · cases h
  case h_21 => cases h

theorem piecesOf_cons_refused {n : Nat} (ih : RefusesEscapes n) (hlen : ls.length ≤ n)
    (h : piecesOf (l :: ls) = refuse cause) : RefusedAtEscape (l :: ls) cause := by
  have hpieces : ∀ {ls'}, ls'.Sublist ls → piecesOf ls' = refuse cause →
      RefusedAtEscape (l :: ls) cause := fun hs h =>
    (ih.2 (hs.length_le.trans hlen) h).of_sublist hs
  unfold piecesOf at h
  split at h
  case h_1 | h_2 =>
    rcases bind_refuse_iff.mp h with h | ⟨_, -, h⟩
    · exact hpieces (.refl ls) h
    · cases h
  -- Here alone is a lexeme refused for what it is.
  case h_3 =>
    rcases bind_refuse_iff.mp h with h | ⟨_, -, h⟩
    · exact ⟨l, List.mem_cons_self .., escapeText_refused h⟩
    · rcases bind_refuse_iff.mp h with h | ⟨_, -, h⟩
      · exact hpieces (.refl ls) h
      · cases h
  case h_4 | h_5 =>
    split at h
    · cases h
    · next e he =>
      obtain ⟨hinner, hafter⟩ := Lexeme.enclosed?_sublists he
      obtain ⟨_, -, h⟩ := (bind_refuse_iff.mp h).resolve_left (blockKind_ne_refuse _ _)
      rcases bind_refuse_iff.mp h with h | ⟨_, -, h⟩
      · exact (ih.1 (hinner.length_le.trans hlen) h).of_sublist hinner
      · rcases bind_refuse_iff.mp h with h | ⟨_, -, h⟩
        · exact hpieces hafter h
        · cases h
  case h_6 => cases h

/-- **Lexemes are refused for an escape among them**, whatever it is inside of. -/
theorem refusesEscapes (n : Nat) : RefusesEscapes n := by
  induction n with
  | zero =>
    constructor
    · intro ls base previous cause hlen h
      rw [List.length_eq_zero_iff.mp (Nat.le_zero.mp hlen), ofLexemes] at h
      cases h
    · intro ls cause hlen h
      rw [List.length_eq_zero_iff.mp (Nat.le_zero.mp hlen), piecesOf] at h
      cases h
  | succ n ih =>
    constructor
    · intro ls base previous cause hlen h
      cases ls with
      | nil =>
        rw [ofLexemes] at h
        cases h
      | cons l ls => exact ofLexemes_cons_refused ih (Nat.le_of_succ_le_succ hlen) h
    · intro ls cause hlen h
      cases ls with
      | nil =>
        rw [piecesOf] at h
        cases h
      | cons l ls => exact piecesOf_cons_refused ih (Nat.le_of_succ_le_succ hlen) h

end Tree

/-- **The items of a source are refused for an escape where it stands.** -/
theorem TokenList.trees_concludes {config : LexerConfig} {out : Tokenized}
    (h : tokenize config source = .ok out) :
    Concludes (LexError.About source) (fun _ => True) (out.tokens.trees source) := by
  refine .intro ?_ (fun _ _ => trivial) fun cause hcause => ?_
  · rcases trees_cover config source out h with ⟨trees, htrees, -⟩ | ⟨cause, hcause, -⟩
    · exact htrees ▸ .ok trees
    · exact hcause ▸ .refuse cause
  · obtain ⟨l, hl, digits, rfl⟩ := (Tree.refusesEscapes _).1 le_rfl hcause
    exact Scan.on_of_tokenize h l hl

end DewyFront
