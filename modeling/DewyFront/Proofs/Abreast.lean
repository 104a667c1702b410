/-
# DewyFront.Proofs.Abreast — two scans of one text with different line endings

A scan of a text without carriage returns, and one of the text with a carriage return in front of every
newline, go the same steps: what one takes of the text, the other takes of what that becomes. Only a
backslash in a string tells the two apart, where it governs a newline. So if no escape goes over lines,
both scans have the same tokens, with their offsets moved, or end with errors of the same codes.

* §1 matches in a longer text;
* §2 tokens whose spans are moved;
* §3 states;
* §4 escapes of newlines;
* §5 steps;
* §6 whole scans.
-/
import DewyFront.Proofs.LineEndings
import DewyFront.Proofs.Interiors
import DewyFront.Proofs.Moves

namespace DewyFront

/-! ## §1 Matches -/

namespace View

/-- **`Match.grow`** — a match in a text where so many characters become more. -/
def Match.grow (g : Nat → Nat) (m : Match) : Match := ⟨m.kind, g m.length⟩

@[simp] theorem Match.kind_grow (g : Nat → Nat) (m : Match) : (m.grow g).kind = m.kind := rfl

@[simp] theorem Match.length_grow (g : Nat → Nat) (m : Match) : (m.grow g).length = g m.length := rfl

variable {g : Nat → Nat}

/-- Kinds that match alike make matches that are alike. -/
theorem matchesOf_grow {v v' : View} {kinds : List TokenKind}
    (h : ∀ kind ∈ kinds, Related LexError.SameCode (fun found found' => found' = found.map g)
      (v.matchKind kind) (v'.matchKind kind)) :
    Related LexError.SameCode (fun ms ms' => ms' = ms.map (Match.grow g)) (v.matchesOf kinds)
      (v'.matchesOf kinds) := by
  induction kinds with
  | nil => exact .ok rfl
  | cons kind kinds ih =>
    obtain ⟨hkind, hkinds⟩ := List.forall_mem_cons.mp h
    refine hkind.bind fun found found' hfound => (ih hkinds).bind fun ms ms' hms => .ok ?_
    rw [hfound, hms, List.map_append]
    cases found <;> rfl

theorem greatestLength_grow (hg : Monotone g) (hzero : g 0 = 0) (ms : List Match) :
    greatestLength (ms.map (Match.grow g)) = g (greatestLength ms) := by
  have hfold : ms.foldl (fun k m => max k (g m.length)) (g 0) =
      g (ms.foldl (fun k m => max k m.length) 0) :=
    List.foldl_hom g fun k m => hg.map_max.symm
  rw [hzero] at hfold
  rw [greatestLength, greatestLength, List.foldl_map]
  exact hfold

theorem longest_grow (hg : StrictMono g) (hzero : g 0 = 0) (ms : List Match) :
    longest (ms.map (Match.grow g)) = (longest ms).map (Match.grow g) := by
  rw [longest, longest, greatestLength_grow hg.monotone hzero, List.filter_map]
  congr 1
  refine List.filter_congr fun m _ => ?_
  rw [Function.comp_apply, Match.length_grow, Bool.eq_iff_iff, beq_iff_eq, beq_iff_eq]
  exact hg.injective.eq_iff

theorem losesTo_grow (ms : List Match) (m : Match) :
    losesTo (ms.map (Match.grow g)) (m.grow g) = losesTo ms m := by
  unfold losesTo
  simp only [Match.kind_grow, List.any_map]
  rfl

/-- **The same matches stand.** -/
theorem winners_grow (hg : StrictMono g) (hzero : g 0 = 0) (ms : List Match) :
    winners (ms.map (Match.grow g)) = (winners ms).map (Match.grow g) := by
  rw [winners, winners, longest_grow hg hzero, List.filter_map]
  congr 1
  refine List.filter_congr fun m _ => ?_
  rw [Function.comp_apply, losesTo_grow]

end View

/-! ## §2 Tokens -/

/-- **`Token.move`** — a token somewhere else, at the same place in the list. -/
def Token.move (f : Nat → Nat) (t : Token) : Token := ⟨t.kind, t.span.move f, t.partner⟩

namespace TokenList

variable {f : Nat → Nat}

/-- **`move`** — tokens somewhere else. -/
def move (f : Nat → Nat) (l : TokenList) : TokenList := ⟨l.toArray.map (Token.move f)⟩

@[simp] theorem get?_move (f : Nat → Nat) (l : TokenList) (i : Nat) :
    (l.move f).get? i = (l.get? i).map (Token.move f) :=
  Array.getElem?_map

@[simp] theorem size_move (f : Nat → Nat) (l : TokenList) : (l.move f).size = l.size :=
  Array.size_map

theorem kind_move (f : Nat → Nat) (l : TokenList) (i : Nat) :
    ((l.move f).get? i).map (·.kind) = (l.get? i).map (·.kind) := by
  rw [get?_move, Option.map_map]
  rfl

theorem last?_move (f : Nat → Nat) (l : TokenList) :
    (l.move f).last?.map (·.kind) = l.last?.map (·.kind) := by
  rw [last?, last?, Array.back?_eq_getElem?, Array.back?_eq_getElem?]
  have hsize : (l.move f).toArray.size = l.toArray.size := size_move f l
  rw [hsize]
  exact kind_move f l _

theorem move_push (f : Nat → Nat) (l : TokenList) (kind : TokenKind) (span : Span) :
    (l.push kind span).move f = (l.move f).push kind (span.move f) :=
  congrArg mk Array.map_push

theorem move_setPartner (f : Nat → Nat) (l : TokenList) (i partner : Nat) :
    (l.setPartner i partner).move f = (l.move f).setPartner i partner := by
  refine ext_get? fun j => ?_
  rw [get?_move, get?_setPartner, get?_setPartner, get?_move]
  split
  · cases l.get? j <;> rfl
  · rfl

theorem move_pair (f : Nat → Nat) (l : TokenList) (opener closer : Nat) :
    (l.pair opener closer).move f = (l.move f).pair opener closer := by
  rw [pair, pair, move_setPartner, move_setPartner]

end TokenList

/-- Openers are neither free nor layout. -/
theorem TokenKind.not_isFree_of_isOpener {kind : TokenKind} (h : kind.isOpener = true) :
    kind.isFree = false ∧ kind ≠ .blank := by
  revert h
  cases kind <;> decide

namespace Lexicon

/-! Illegal control characters end no lines. -/

theorem not_mem_take_controlLength (t : Text) : '\n' ∉ t.take (controlLength t) := fun hmem =>
  absurd (forall_mem_take_of_le_runLength (Nat.le_refl _) _ hmem) (by decide)

theorem controlLength_withReturns (t : Text) : controlLength (withReturns t) = controlLength t :=
  eq_of_append_cons (fun _ hc => runLength_append_cons (by rcases hc with rfl | rfl <;> rfl)) t

theorem take_controlLength_withReturns (t : Text) :
    (withReturns t).take (controlLength t) = t.take (controlLength t) := by
  have hnone := not_mem_take_controlLength t
  have htake := take_grown (runLength_le isIllegalControl t)
  rw [← controlLength, grown_of_not_mem hnone, withReturns_of_not_mem hnone] at htake
  exact htake

end Lexicon

namespace Scan

variable {config : LexerConfig} {source rest lexeme lexeme' : Text} {s s' next : Scan}
  {kind : TokenKind} {n : Nat}

/-! ## §3 States -/

/-- **`Abreast`** — a state of a scan, and that of the same text with a carriage return in front of every
newline: the tokens are the same, moved, and nothing has been met but the same errors. -/
structure Abreast (source : Text) (s s' : Scan) : Prop where
  offset : s'.offset = returnsOffset source s.offset
  tokens : s'.tokens = s.tokens.move (returnsOffset source)
  stack : s'.stack = s.stack
  lastClosed : s'.lastClosed = s.lastClosed
  errors : LexError.SameCodes s.errors s'.errors
  loneReturns : s.loneReturns = []
  loneReturns' : s'.loneReturns = []

theorem abreast_start (source : Text) : Abreast source .start .start where
  offset := (returnsOffset_width [] source).symm
  tokens := congrArg TokenList.mk Array.map_empty.symm
  stack := rfl
  lastClosed := rfl
  errors := rfl
  loneReturns := rfl
  loneReturns' := rfl

/-- Behind what is taken of a text stands what stands behind what that becomes. -/
theorem Grounded.returnsOffset_take (hs : Grounded source s rest) (n : Nat) :
    returnsOffset source (s.offset + width (rest.take n)) =
      returnsOffset source s.offset + width (withReturns (rest.take n)) := by
  obtain ⟨front, hsource, hoffset⟩ := hs.read
  have hbehind := returnsOffset_width (front ++ rest.take n) (rest.drop n)
  rw [List.append_assoc, List.take_append_drop, ← hsource, width_append, withReturns_append,
    width_append] at hbehind
  rw [hoffset, hbehind, hsource, returnsOffset_width]

theorem loneReturnsIn_of_not_mem (h : '\r' ∉ lexeme) (offset : Nat) : loneReturnsIn offset lexeme = [] := by
  induction lexeme generalizing offset with
  | nil => rfl
  | cons c t ih =>
    obtain ⟨hc, ht⟩ := not_or.mp (mt List.mem_cons.mpr h)
    rw [loneReturnsIn, ih ht]
    · exact fun _ heq => absurd heq.symm hc
    · exact fun heq => hc heq.symm

/-- No carriage return that is put in front of a newline is alone. -/
theorem loneReturnsIn_withReturns (h : '\r' ∉ lexeme) (offset : Nat) :
    loneReturnsIn offset (withReturns lexeme) = [] := by
  induction lexeme generalizing offset with
  | nil => rfl
  | cons c t ih =>
    obtain ⟨hc, ht⟩ := not_or.mp (mt List.mem_cons.mpr h)
    by_cases hnewline : c = '\n'
    · rw [hnewline, withReturns_newline, loneReturnsIn, ih ht]
    · rw [withReturns_cons hnewline, loneReturnsIn, ih ht]
      · exact fun _ heq => absurd heq.symm hc
      · exact fun heq => hc heq.symm

namespace Abreast

theorem top_eq (h : Abreast source s s') : s'.top = s.top := by rw [top, top, h.stack]

theorem record (h : Abreast source s s') (kind : TokenKind)
    (hstop : returnsOffset source (s.offset + width lexeme) = s'.offset + width lexeme') :
    Abreast source (s.record kind lexeme) (s'.record kind lexeme') :=
  { h with
    offset := hstop.symm
    tokens := by
      show s'.tokens.push kind _ = (s.tokens.push kind _).move _
      rw [TokenList.move_push, Span.move, hstop, h.tokens, ← h.offset] }

theorem enter (h : Abreast source s s') (c : Context) : Abreast source (s.enter c) (s'.enter c) :=
  { h with stack := congrArg (c :: ·) h.stack }

theorem leave (h : Abreast source s s') (opener closer : Nat) :
    Abreast source (s.leave opener closer) (s'.leave opener closer) :=
  { h with
    tokens := by
      show s'.tokens.pair _ _ = (s.tokens.pair _ _).move _
      rw [TokenList.move_pair, h.tokens]
    stack := congrArg List.tail h.stack
    lastClosed := congrArg List.head? h.stack }

/-- Both scans close a block, or meet a closer that does not close it. -/
theorem closeBlock (h : Abreast source s s') (kind : TokenKind) (place : Nat) (lexeme lexeme' : Text) :
    Related (Failure.Both LexError.SameCode) (Abreast source) (s.closeBlock kind place lexeme)
      (s'.closeBlock kind place lexeme') := by
  unfold Scan.closeBlock
  rw [h.top_eq, h.tokens]
  split
  · next opener base _ =>
    dsimp only
    rw [TokenList.kind_move]
    split
    · exact .ok (h.leave opener place)
    · exact .error (.refused rfl)
  · exact .error (.broken _)

/-- **Both scans take a token**, or both are refused at it. -/
theorem take (h : Abreast source s s') (kind : TokenKind) (hreturn : '\r' ∉ lexeme)
    (hopener : kind.isOpener = true → '\n' ∉ lexeme)
    (hstop : returnsOffset source (s.offset + width lexeme) = s'.offset + width (withReturns lexeme)) :
    Related (Failure.Both LexError.SameCode) (Abreast source) (s.take kind lexeme)
      (s'.take kind (withReturns lexeme)) := by
  have hsize : s'.tokens.size = s.tokens.size := by rw [h.tokens, TokenList.size_move]
  have hrecord := h.record kind hstop
  -- What begins a context stays in a line.
  have hbegins : Related (Failure.Both LexError.SameCode) (Abreast source)
      (.ok ((context? kind s.tokens.size lexeme).elim (s.record kind lexeme) (s.record kind lexeme).enter))
      (.ok ((context? kind s.tokens.size (withReturns lexeme)).elim (s'.record kind (withReturns lexeme))
        (s'.record kind (withReturns lexeme)).enter)) := by
    cases hkind : kind.isOpener with
    | false =>
      have hnone : ∀ t, context? kind s.tokens.size t = none := fun t =>
        Option.eq_none_iff_forall_ne_some.mpr fun c hc => by
          rw [isOpener_of_context? hc] at hkind
          cases hkind
      rw [hnone, hnone]
      exact .ok hrecord
    | true =>
      rw [withReturns_of_not_mem (hopener hkind)] at hrecord ⊢
      cases context? kind s.tokens.size lexeme with
      | none => exact .ok hrecord
      | some c => exact .ok (hrecord.enter c)
  unfold Scan.take
  rw [hsize]
  cases kind with
  | blank =>
    refine .ok { hrecord with loneReturns := ?_, loneReturns' := ?_ }
    · show s.loneReturns ++ loneReturnsIn s.offset lexeme = []
      rw [h.loneReturns, loneReturnsIn_of_not_mem hreturn, List.append_nil]
    · show s'.loneReturns ++ loneReturnsIn s'.offset (withReturns lexeme) = []
      rw [h.loneReturns', loneReturnsIn_withReturns hreturn, List.append_nil]
  | rightBracket | rightParen | rightBrace => exact hrecord.closeBlock _ _ _ _
  | rightAngle | stringCloser | heredocCloser =>
    dsimp only
    rw [hrecord.top_eq]
    cases (s.record _ lexeme).top.opener? with
    | none => exact .ok hrecord
    | some opener => exact .ok (hrecord.leave opener _)
  | _ => exact hbegins

/-- What matchers see of both scans. -/
theorem view (h : Abreast source s s') (config : LexerConfig) (rest : Text) :
    (s.view config rest).WithReturns (s'.view config (withReturns rest)) where
  config := rfl
  context := h.top_eq
  previous := by
    show s'.tokens.last?.map (·.kind) = s.tokens.last?.map (·.kind)
    rw [h.tokens, TokenList.last?_move]
  rest := rfl

end Abreast

/-! ## §4 Escapes of newlines -/

/-- **`Unbroken`** — no token of a kind that a scan of a source takes goes over lines. -/
def Unbroken (config : LexerConfig) (source : Text) (kind : TokenKind) : Prop :=
  ∀ {s : Scan} {rest : Text}, Reaches config source s rest → ∀ t ∈ s.tokens.toList, t.kind = kind →
    '\n' ∉ t.text source

/-- In a string a backslash governs the newline behind it: what ends the string stays in a line. -/
theorem stands_escape_newline {v : View} (hkind : v.context.kind = .stringBody)
    (hends : v.context.EndsCleanly) (hrest : ['\\', '\n'] <+: v.rest) : Stands v ⟨.stringEscape, 2⟩ := by
  obtain ⟨more, hmore⟩ := hrest
  have hmarks : Marks .stringEscape ['\\', '\n'] := .simple (by decide)
  refine stands_of_longest (by rw [hkind]; rfl) (hmarks.matchKind_eq hmore.symm rfl)
    fun kind hlegal hne => ?_
  -- A closer has no room for the newline.
  have hshort : kind.isFree = false → kind ≠ .blank → ∀ n, v.matchKind kind = .ok (some n) →
      n < 2 := by
    intro hfree hblank n hmatch
    by_contra hlong
    have hclean := View.clean_of_matchKind hfree hblank hends hmatch
    refine hclean.not_mem (.inl rfl) ((List.take_subset_take_left v.rest (Nat.not_lt.mp hlong)) ?_)
    rw [← hmore]
    exact List.mem_cons_of_mem _ List.mem_cons_self
  rw [hkind] at hlegal
  cases kind with
  | stringEscape => exact absurd rfl hne
  | leftBrace | holeEscape =>
    exact ⟨none, (hmarks.matchKind_eq hmore.symm rfl).trans (by rw [if_neg hne]), nofun⟩
  | stringText =>
    refine ⟨none, ?_, nofun⟩
    rw [View.matchKind, View.stringText, ← hmore]
    rfl
  | stringCloser | heredocCloser =>
    exact ⟨_, rfl, fun n hn => hshort rfl (by decide) n (congrArg Except.ok hn)⟩
  | _ => cases hlegal

/-- **No escape in sight governs a newline**, if none that is taken does. -/
theorem Reaches.not_escape_newline (h : Reaches config source s rest)
    (hescape : Unbroken config source .stringEscape) (hkind : s.top.kind = .stringBody) :
    ¬ ['\\', '\n'] <+: rest := by
  intro hbegins
  have hstands : Stands (s.view config rest) ⟨.stringEscape, 2⟩ :=
    stands_escape_newline hkind h.confined.endsCleanly_top hbegins
  obtain ⟨more, rfl⟩ := hbegins
  -- It would be taken.
  have hnext : Reaches config source (s.record .stringEscape ['\\', '\n']) more :=
    h.take (List.cons_ne_nil _ _) hstands rfl
  refine hescape hnext ⟨.stringEscape, ⟨s.offset, s.offset + width ['\\', '\n']⟩, none⟩ ?_ rfl ?_
  · show _ ∈ (s.tokens.push _ _).toList
    rw [TokenList.toList_push]
    exact List.mem_append_right _ List.mem_cons_self
  · rw [Token.text, h.grounded.slice_append]
    exact List.mem_cons_of_mem _ List.mem_cons_self

/-! ## §5 Steps -/

section

variable {ms more : List View.Match} {m m' : View.Match}
  (hms : (s.view config rest).allMatches = .ok ms)
include hms

theorem step_of_winner (hm : View.winners ms = [m]) :
    s.step config rest = (do return (← s.take m.kind (rest.take m.length), m.length)) := by
  simp only [step, hms, Except.mapError, hm, bind, Except.bind]

/-- Where nothing matches, control characters are skipped. -/
theorem step_of_no_winner (hm : View.winners ms = []) : s.step config rest =
    if s.isSecondChevron rest then refuse (.shiftInTypeParam s.offset)
    else if 0 < Lexicon.controlLength rest then
      .ok (s.skip (rest.take (Lexicon.controlLength rest)), Lexicon.controlLength rest)
    else refuse (.noToken s.offset s.top.kind rest) := by
  simp only [step, hms, Except.mapError, hm, bind, Except.bind]
  rfl

theorem step_of_several (hm : View.winners ms = m :: m' :: more) :
    s.step config rest = refuse (s.ambiguity rest (m :: m' :: more)) := by
  simp only [step, hms, Except.mapError, hm, bind, Except.bind]

end

namespace Abreast

/-- **The same kinds match**, and take what becomes of what they took. -/
theorem allMatches (h : Abreast source s s') (config : LexerConfig) (hconfined : Confined source s)
    (hescape : s.top.kind = .stringBody → ¬ ['\\', '\n'] <+: rest) :
    Related LexError.SameCode (fun ms ms' => ms' = ms.map (View.Match.grow (grown rest)))
      (s.view config rest).allMatches (s'.view config (withReturns rest)).allMatches := by
  have hview := h.view config rest
  rw [View.allMatches, View.allMatches, hview.context]
  refine View.matchesOf_grow fun kind hkind => ?_
  refine hview.matchKind hconfined.endsCleanly_top fun hkindEscape => hescape ?_
  have hlegal : kind.isLegalIn s.top.kind = true := (List.mem_filter.mp hkind).2
  rw [hkindEscape] at hlegal
  exact eq_of_beq hlegal

/-- **What one scan takes, the other takes as it becomes.** -/
theorem taken (h : Abreast source s s') (hs : Grounded source s rest) (hconfined : Confined source s)
    (hreturn : '\r' ∉ rest) {m : View.Match} (hstands : Stands (s.view config rest) m) :
    Related (Failure.Both LexError.SameCode) (Abreast source) (s.take m.kind (rest.take m.length))
      (s'.take m.kind ((withReturns rest).take (grown rest m.length))) := by
  have hle : m.length ≤ rest.length := (hstands.bounds hs.ends_top).2
  have hopener : m.kind.isOpener = true → '\n' ∉ rest.take m.length := by
    intro hopener
    obtain ⟨hfree, hblank⟩ := TokenKind.not_isFree_of_isOpener hopener
    exact (View.clean_of_matchKind hfree hblank hconfined.endsCleanly_top hstands.taken).not_mem (.inl rfl)
  have hstop := hs.returnsOffset_take m.length
  rw [← h.offset] at hstop
  rw [take_grown hle]
  exact h.take m.kind (fun hmem => hreturn (List.mem_of_mem_take hmem)) hopener hstop

/-- Both scans skip the same control characters. -/
theorem skip (h : Abreast source s s') (hs : Grounded source s rest) :
    Abreast source (s.skip (rest.take (Lexicon.controlLength rest)))
      (s'.skip (rest.take (Lexicon.controlLength rest))) :=
  { h with
    offset := by
      have hstop := hs.returnsOffset_take (Lexicon.controlLength rest)
      rw [withReturns_of_not_mem (Lexicon.not_mem_take_controlLength rest), ← h.offset] at hstop
      exact hstop.symm
    errors := h.errors.append rfl }

theorem isSecondChevron_eq (h : Abreast source s s') (rest : Text) :
    s'.isSecondChevron (withReturns rest) = s.isSecondChevron rest := by
  have hhead : ((withReturns rest).head? == some '>') = (rest.head? == some '>') := by
    rw [Bool.eq_iff_iff, beq_iff_eq, beq_iff_eq]
    exact head?_withReturns_iff (by unfold IsLineBreak; decide)
  rw [isSecondChevron, isSecondChevron, h.lastClosed, h.tokens, TokenList.last?_move, hhead]

/-- What is said where several kinds match equally well has the same code. -/
theorem ambiguity (h : Abreast source s s') (rest rest' : Text) (ms : List View.Match) (g : Nat → Nat) :
    LexError.SameCode (s.ambiguity rest ms) (s'.ambiguity rest' (ms.map (View.Match.grow g))) := by
  have hkinds : (ms.map (View.Match.grow g)).map (·.kind) = ms.map (·.kind) := by
    rw [List.map_map]
    rfl
  unfold Scan.ambiguity LexError.SameCode
  dsimp only
  rw [hkinds, h.top_eq]
  split <;> rfl

/-- **Both scans go the same step.** -/
theorem step (h : Abreast source s s') (config : LexerConfig) (hs : Grounded source s rest)
    (hconfined : Confined source s) (hreturn : '\r' ∉ rest)
    (hescape : s.top.kind = .stringBody → ¬ ['\\', '\n'] <+: rest) :
    Related (Failure.Both LexError.SameCode)
      (fun next next' => Abreast source next.1 next'.1 ∧ next'.2 = grown rest next.2)
      (s.step config rest) (s'.step config (withReturns rest)) := by
  have hmatches := h.allMatches config hconfined hescape
  cases hms : (s.view config rest).allMatches with
  | error e =>
    obtain ⟨e', hms', he⟩ := hmatches.exists_error hms
    rw [Scan.step, Scan.step, hms, hms']
    exact .error (.refused he)
  | ok ms =>
    have hms' := hmatches.eq_ok hms
    have hgrow := View.winners_grow (strictMono_grown rest) (grown_zero rest) ms
    rcases hwinners : View.winners ms with _ | ⟨m, _ | ⟨m', more⟩⟩
    · rw [hwinners] at hgrow
      rw [step_of_no_winner hms hwinners, step_of_no_winner hms' hgrow, h.isSecondChevron_eq,
        Lexicon.controlLength_withReturns, Lexicon.take_controlLength_withReturns]
      split
      · exact .error (.refused rfl)
      · split
        · exact .ok ⟨h.skip hs, (grown_of_not_mem (Lexicon.not_mem_take_controlLength rest)).symm⟩
        · exact .error (.refused rfl)
    · rw [hwinners] at hgrow
      rw [step_of_winner hms hwinners, step_of_winner hms' hgrow]
      exact (h.taken hs hconfined hreturn (stands_of_winners hms hwinners)).bind
        fun next next' hnext => .ok ⟨hnext, rfl⟩
    · rw [hwinners] at hgrow
      rw [step_of_several hms hwinners, step_of_several hms' hgrow]
      exact .error (.refused (h.ambiguity rest (withReturns rest) (m :: m' :: more) (grown rest)))

/-! ## §6 Whole scans -/

/-- What is left open is told under the same codes. -/
theorem openErrors (h : Abreast source s s') :
    LexError.SameCodes (s.openContexts.filterMap s.openError)
      (s'.openContexts.filterMap s'.openError) := by
  have hopen : s'.openContexts = s.openContexts := by rw [openContexts, openContexts, h.stack]
  rw [LexError.SameCodes, hopen, List.map_filterMap, List.map_filterMap]
  refine List.filterMap_congr fun c _ => ?_
  rw [openError, openError, Option.map_map, Option.map_map]
  rfl

/-- Both scans end alike. -/
theorem finish (h : Abreast source s s') :
    Related (Failure.Both LexError.SameCodes)
      (fun out out' => out.loneReturns = [] ∧ out' = ⟨out.tokens.move (returnsOffset source), []⟩)
      s.finish s'.finish := by
  have hcodes := h.errors.append h.openErrors
  unfold Scan.finish
  generalize s.errors ++ s.openContexts.filterMap s.openError = es at hcodes
  generalize s'.errors ++ s'.openContexts.filterMap s'.openError = es' at hcodes
  cases es with
  | nil =>
    obtain rfl := List.map_eq_nil_iff.mp hcodes
    exact .ok ⟨h.loneReturns, by rw [h.tokens, h.loneReturns']⟩
  | cons e es =>
    cases es' with
    | nil => cases hcodes
    | cons e' es' => exact .error (.refused hcodes)

end Abreast

theorem withReturns_ne_nil (h : rest ≠ []) : withReturns rest ≠ [] := by
  cases rest with
  | nil => exact absurd rfl h
  | cons c t =>
    by_cases hc : c = '\n'
    · rw [hc]
      exact nofun
    · rw [withReturns_cons hc]
      exact nofun

/-- **Both scans come to the same end.** -/
theorem Abreast.run (h : Abreast source s s') (hreaches : Reaches config source s rest)
    (hreturn : '\r' ∉ source) (hescape : Unbroken config source .stringEscape) :
    Related (Failure.Both LexError.SameCodes)
      (fun out out' => out.loneReturns = [] ∧ out' = ⟨out.tokens.move (returnsOffset source), []⟩)
      (Scan.run config s rest) (Scan.run config s' (withReturns rest)) := by
  -- By the length of what is left, which every step shortens.
  induction hlength : rest.length using Nat.strongRecOn generalizing s s' rest with
  | ind k ih =>
    subst hlength
    by_cases hrest : rest = []
    · subst hrest
      rw [withReturns_nil, Scan.run, Scan.run]
      exact h.finish
    have hrest' := withReturns_ne_nil hrest
    have hreturn' : '\r' ∉ rest := by
      obtain ⟨front, hsource, -⟩ := hreaches.grounded.read
      exact fun hmem => hreturn (hsource ▸ List.mem_append_right _ hmem)
    have hstep := h.step config hreaches.grounded hreaches.confined hreturn'
      (hreaches.not_escape_newline hescape)
    cases hs : s.step config rest with
    | error failure =>
      obtain ⟨failure', hs', hboth⟩ := hstep.exists_error hs
      cases hboth with
      | refused he =>
        rw [run_of_failure hrest hs, run_of_failure hrest' hs']
        exact .error (.refused (h.errors.append (congrArg (fun c => [c]) he)))
      | broken f =>
        rw [run_of_failure hrest hs, run_of_failure hrest' hs']
        exact .error (.broken f)
    | ok x =>
      obtain ⟨⟨next', n'⟩, hs', hnext, hn'⟩ := hstep.exists_ok hs
      obtain ⟨next, n⟩ := x
      obtain ⟨hpos, hle⟩ := (steps_of_step hs).bounds hreaches.grounded
      obtain rfl : n' = grown rest n := hn'
      have hpos' : 0 < grown rest n := Nat.lt_of_lt_of_le hpos (Nat.le_add_right _ _)
      rw [run_of_step hrest hpos hs, run_of_step hrest' hpos' hs', drop_grown hle]
      refine ih _ ?_ hnext (hreaches.step hrest hs) rfl
      rw [List.length_drop]
      omega

end Scan

/-- **The tokens of a text are those with other line endings.** If a text has no carriage return and no
escape in it governs a newline, then with a carriage return in front of every newline it has the same tokens,
moved, and no lone carriage return, or is refused for causes of the same codes. -/
theorem tokenize_withReturns {config : LexerConfig} {source : Text} (hreturn : '\r' ∉ source)
    (hescape : Scan.Unbroken config source .stringEscape) :
    Related (Failure.Both LexError.SameCodes)
      (fun out out' => out.loneReturns = [] ∧ out' = ⟨out.tokens.move (returnsOffset source), []⟩)
      (tokenize config source) (tokenize config (withReturns source)) :=
  (Scan.abreast_start source).run .start hreturn hescape

end DewyFront
