/-
# DewyFront.Proofs.Scanning — the states that a scan goes through

A step takes the one match that stands, or skips control characters. Taking a token records it; an
opener begins a context besides, and a closer ends the innermost one. In every state that a scan
comes to, the offset is the width of what has been read, the root is at the bottom of the stack and
nowhere else, and every string on the stack can be ended only by some text. So every step gets on.

* §1 widths and offsets;
* §2 openers and closers;
* §3 steps;
* §4 states that a scan comes to;
* §5 what every state keeps;
* §6 whole scans.
-/
import DewyFront.Proofs.Matching
import DewyFront.Token.Scan

namespace DewyFront

/-! ## §1 Widths -/

variable {s t : Text}

theorem width_pos {t : Text} (h : t ≠ []) : 0 < width t := by
  cases t with
  | nil => exact absurd rfl h
  | cons c t =>
    have hc := Char.utf8Size_pos c
    rw [width_cons]
    omega

theorem dropBytes_width (s t : Text) : dropBytes (width s) (s ++ t) = some t := by
  induction s with
  | nil => rw [width_nil, List.nil_append, dropBytes]
  | cons c s ih =>
    have hc := Char.utf8Size_pos c
    obtain ⟨n, hn⟩ : ∃ n, c.utf8Size + width s = n + 1 := ⟨c.utf8Size + width s - 1, by omega⟩
    have hrest : n + 1 - c.utf8Size = width s := by omega
    rw [width_cons, List.cons_append, hn, dropBytes, if_pos (by omega), hrest, ih]

theorem takeBytes_width (s t : Text) : takeBytes (width s) (s ++ t) = some s := by
  induction s with
  | nil => rw [width_nil, takeBytes]
  | cons c s ih =>
    have hc := Char.utf8Size_pos c
    obtain ⟨n, hn⟩ : ∃ n, c.utf8Size + width s = n + 1 := ⟨c.utf8Size + width s - 1, by omega⟩
    have hrest : n + 1 - c.utf8Size = width s := by omega
    rw [width_cons, List.cons_append, hn, takeBytes, if_pos (by omega), hrest, ih, Option.map_some]

/-- The text between two offsets is what stands there. -/
theorem slice_width (front s back : Text) :
    (Span.mk (width front) (width front + width s)).slice (front ++ (s ++ back)) = s := by
  have hle : ¬ width front + width s < width front := by omega
  have hsize : width front + width s - width front = width s := by omega
  rw [Span.slice, if_neg hle, dropBytes_width, Option.bind_some, hsize, takeBytes_width,
    Option.getD_some]

/-! ## §2 Openers and closers -/

namespace TokenKind

/-- Kinds that end a context. -/
def isCloser : TokenKind → Bool
  | rightBracket | rightParen | rightBrace | rightAngle | stringCloser | heredocCloser => true
  | _ => false

theorem isCloser_eq_false_of_isOpener {kind : TokenKind} (h : kind.isOpener = true) :
    kind.isCloser = false := by
  cases kind <;> first | rfl | cases h

theorem ne_root_of_isCloser {kind : TokenKind} {context : ContextKind}
    (h : kind.isCloser = true) (hlegal : kind.isLegalIn context = true) : context ≠ .root := by
  rintro rfl
  cases kind <;> first | exact absurd hlegal (by decide) | cases h

end TokenKind

namespace Context

variable {c : Context}

/-- Only the root has no opener. -/
theorem exists_opener_of_ne_root (h : c.kind ≠ .root) : ∃ i, c.opener? = some i := by
  cases c with
  | root => exact absurd rfl h
  | _ => exact ⟨_, rfl⟩

theorem ends_of_ending?_eq_none (h : c.ending? = none) : c.Ends := by
  intro t ht
  rw [h] at ht
  cases ht

end Context

namespace Scan

variable {s next : Scan} {kind : TokenKind} {lexeme rest source : Text} {config : LexerConfig}
  {place n : Nat} {c : Context}

/-- **Openers begin contexts**, and no other tokens do. -/
theorem isSome_context? (kind : TokenKind) (place : Nat) (lexeme : Text) :
    (context? kind place lexeme).isSome = kind.isOpener := by
  cases kind <;> rfl

theorem opener?_of_context? (h : context? kind place lexeme = some c) : c.opener? = some place := by
  cases kind <;> cases h <;> rfl

theorem isOpener_of_context? (h : context? kind place lexeme = some c) : kind.isOpener = true := by
  rw [← isSome_context? kind place lexeme, h]
  rfl

/-- **`Closes`** — a closing token ends a context that an opener of some kind began. -/
inductive Closes (opener : Option TokenKind) (kind : TokenKind) : Context → Prop
  | block {i : Nat} {base : Radix} (h : closes (expectedCloser opener) kind = true) :
      Closes opener kind (.blockBody i base)
  | angle {i : Nat} (h : kind = .rightAngle) : Closes opener kind (.typeBody i)
  | string {c : Context} {e : Ending} (hending : c.ending? = some e)
      (h : kind = .stringCloser ∨ kind = .heredocCloser) : Closes opener kind c

/-- **`Takes`** — what taking a token comes to. -/
inductive Takes (s : Scan) (kind : TokenKind) (lexeme : Text) : Scan → Prop
  /-- A token that neither begins nor ends a context is recorded. -/
  | plain (hopener : kind.isOpener = false) (hcloser : kind.isCloser = false) (returns : List Nat) :
      Takes s kind lexeme { s.record kind lexeme with loneReturns := returns }
  /-- An opener begins a context. -/
  | enter {c : Context} (hc : context? kind s.tokens.size lexeme = some c) :
      Takes s kind lexeme ((s.record kind lexeme).enter c)
  /-- A closer ends the innermost context. -/
  | leave {opener : Nat} (hcloser : kind.isCloser = true) (hopener : s.top.opener? = some opener)
      (hcloses : Closes (((s.record kind lexeme).tokens.get? opener).map (·.kind)) kind s.top) :
      Takes s kind lexeme ((s.record kind lexeme).leave opener s.tokens.size)

/-- **Taking a token that may stand where it does comes to nothing else.** -/
theorem takes_of_take (h : s.take kind lexeme = .ok next) (hlegal : kind.isLegalIn s.top.kind = true) :
    Takes s kind lexeme next := by
  -- A bracket or a brace closes the block that is open, if it is the one that is due.
  have hblock : ∀ {kind}, kind.isCloser = true →
      (s.record kind lexeme).closeBlock kind s.tokens.size lexeme = .ok next →
        Takes s kind lexeme next := by
    intro kind hcloser h
    unfold closeBlock at h
    split at h
    · next opener base htop =>
      have htop : s.top = .blockBody opener base := htop
      dsimp only at h
      split at h
      · next hcloses =>
        cases h
        refine .leave hcloser (by rw [htop]; rfl) ?_
        rw [htop]
        exact .block hcloses
      · cases h
    · cases h
  -- What ends a string, or type parameters, closes it in any case.
  have hstring : ∀ {kind}, kind.isCloser = true → kind.isLegalIn s.top.kind = true →
      (∀ k, Closes k kind s.top) →
      (Except.ok ((s.record kind lexeme).top.opener?.elim (s.record kind lexeme)
        ((s.record kind lexeme).leave · s.tokens.size)) : Except (Failure LexError) Scan) = .ok next →
        Takes s kind lexeme next := by
    intro kind hcloser hlegal hcloses h
    obtain ⟨opener, hopener⟩ :=
      Context.exists_opener_of_ne_root (TokenKind.ne_root_of_isCloser hcloser hlegal)
    have htop : (s.record kind lexeme).top.opener? = some opener := hopener
    rw [htop] at h
    cases h
    exact .leave hcloser hopener (hcloses _)
  -- An opener begins a context.
  have hopens : ∀ {kind}, kind.isOpener = true →
      (Except.ok ((context? kind s.tokens.size lexeme).elim (s.record kind lexeme)
        (s.record kind lexeme).enter) : Except (Failure LexError) Scan) = .ok next →
        Takes s kind lexeme next := by
    intro kind hopener h
    rw [← isSome_context? kind s.tokens.size lexeme, Option.isSome_iff_exists] at hopener
    obtain ⟨c, hc⟩ := hopener
    rw [hc] at h
    cases h
    exact .enter hc
  cases kind with
  | blank =>
    cases h
    exact .plain rfl rfl _
  | rightBracket | rightParen | rightBrace => exact hblock rfl h
  | rightAngle =>
    refine hstring rfl hlegal (fun k => ?_) h
    generalize s.top = c at hlegal
    cases c <;> first | exact .angle rfl | cases hlegal
  | stringCloser =>
    refine hstring rfl hlegal (fun k => ?_) h
    generalize s.top = c at hlegal
    cases c <;> first | exact .string rfl (.inl rfl) | cases hlegal
  | heredocCloser =>
    refine hstring rfl hlegal (fun k => ?_) h
    generalize s.top = c at hlegal
    cases c <;> first | exact .string rfl (.inr rfl) | cases hlegal
  | leftBracket | leftParen | leftBrace | leftAngle | basedBlockOpener | stringOpener | holeEscape
  | rawStringOpener | restOfFileOpener | rawRestOfFileOpener | heredocOpener | rawHeredocOpener
  | basedStringOpener => exact hopens rfl h
  | lineComment | blockComment | name | symbol | shift | hashtag | stringText | stringEscape
  | rawStringText | basedStringText | number | exponent =>
    cases h
    exact .plain rfl rfl _

/-! ## §3 Steps -/

/-- **`Stands`** — a match that a place has: its kind may stand there, no kind that may is refused, and
no other match is longer; one of the same length gives way. -/
structure Stands (v : View) (m : View.Match) : Prop where
  legal : m.kind.isLegalIn v.context.kind = true
  taken : v.matchKind m.kind = .ok (some m.length)
  others : ∀ kind, kind.isLegalIn v.context.kind = true → ∃ found, v.matchKind kind = .ok found ∧
    ∀ n, found = some n → n ≤ m.length ∧
      (n = m.length → kind = m.kind ∨ (m.kind, kind) ∈ TokenKind.precedence)

theorem mem_all (kind : TokenKind) : kind ∈ TokenKind.all := by
  cases kind <;> decide

theorem stands_of_winners {v : View} {ms : List View.Match} {m : View.Match}
    (h : v.allMatches = .ok ms) (hm : View.winners ms = [m]) : Stands v m := by
  obtain ⟨hall, hmem⟩ := View.mem_of_matchesOf h
  obtain ⟨hwinner, hothers⟩ := View.of_winners_eq_singleton hm
  obtain ⟨hcandidate, hmatch⟩ := (hmem m).mp hwinner
  have hlegal : ∀ {kind}, kind ∈ TokenKind.candidates v.context.kind ↔
      kind.isLegalIn v.context.kind = true := by
    intro kind
    rw [TokenKind.candidates, List.mem_filter, and_iff_right (mem_all kind)]
  refine ⟨hlegal.mp hcandidate, hmatch, fun kind hkind => ?_⟩
  obtain ⟨found, hfound⟩ := hall kind (hlegal.mpr hkind)
  refine ⟨found, hfound, fun n hn => ?_⟩
  have hother : ⟨kind, n⟩ ∈ ms := (hmem _).mpr ⟨hlegal.mpr hkind, hn ▸ hfound⟩
  obtain ⟨hle, htie⟩ := hothers _ hother
  exact ⟨hle, fun hlength => (htie hlength).imp (congrArg View.Match.kind) id⟩

/-- **`Steps`** — what a step comes to: the match that stands is taken, or a run of control characters
is skipped. -/
inductive Steps (config : LexerConfig) (s : Scan) (rest : Text) : Scan → Nat → Prop
  | take {m : View.Match} {next : Scan} (hstands : Stands (s.view config rest) m)
      (h : Takes s m.kind (rest.take m.length) next) : Steps config s rest next m.length
  | skip (h : 0 < Lexicon.controlLength rest) :
      Steps config s rest (s.skip (rest.take (Lexicon.controlLength rest)))
        (Lexicon.controlLength rest)

/-- **What a step does with the matches it finds**: it takes the one that wins, or there is none, no
chevron is due and it skips control characters. -/
theorem cases_of_step (h : s.step config rest = .ok (next, n)) :
    ∃ ms, (s.view config rest).allMatches = .ok ms ∧
      ((∃ m, View.winners ms = [m] ∧ n = m.length ∧
        s.take m.kind (rest.take m.length) = .ok next) ∨
      (View.winners ms = [] ∧ s.isSecondChevron rest ≠ true ∧ 0 < Lexicon.controlLength rest ∧
        n = Lexicon.controlLength rest ∧ next = s.skip (rest.take n))) := by
  unfold step at h
  obtain ⟨ms, hms, h⟩ := bind_ok_iff.mp h
  refine ⟨ms, mapError_ok_iff.mp hms, ?_⟩
  split at h
  · next m hm =>
    obtain ⟨taken, htaken, h⟩ := bind_ok_iff.mp h
    cases h
    exact .inl ⟨m, hm, rfl, htaken⟩
  · next hnone =>
    split at h
    · cases h
    · next hsecond =>
      dsimp only at h
      split at h
      · next hrun =>
        cases h
        exact .inr ⟨hnone, hsecond, hrun, rfl, rfl⟩
      · cases h
  · cases h

theorem steps_of_step (h : s.step config rest = .ok (next, n)) : Steps config s rest next n := by
  obtain ⟨ms, hms, ⟨m, hm, rfl, htaken⟩ | ⟨-, -, hrun, rfl, rfl⟩⟩ := cases_of_step h
  · have hstands := stands_of_winners hms hm
    exact .take hstands (takes_of_take htaken hstands.legal)
  · exact .skip hrun

/-! ## §4 States -/

/-- **`Reaches`** — a scan of a source comes to a state with some text left. -/
inductive Reaches (config : LexerConfig) (source : Text) : Scan → Text → Prop
  | start : Reaches config source .start source
  | step {s next : Scan} {rest : Text} {n : Nat} (h : Reaches config source s rest)
      (hrest : rest ≠ []) (hstep : s.step config rest = .ok (next, n)) :
      Reaches config source next (rest.drop n)

/-! ## §5 What every state keeps -/

/-- **`Grounded`** — what every state that a scan comes to keeps. -/
structure Grounded (source : Text) (s : Scan) (rest : Text) : Prop where
  read : ∃ front, source = front ++ rest ∧ s.offset = width front
  rooted : ∃ inner, s.stack = inner ++ [.root] ∧ ∀ c ∈ inner, c.kind ≠ .root
  ends : ∀ c ∈ s.stack, c.Ends

theorem Grounded.ends_top (h : Grounded source s rest) : s.top.Ends := by
  obtain ⟨inner, hinner, -⟩ := h.rooted
  cases hstack : s.stack with
  | nil =>
    rw [hstack] at hinner
    cases inner <;> cases hinner
  | cons c stack =>
    have htop : s.top = c := by rw [top, hstack, List.headD_cons]
    rw [htop]
    exact h.ends c (hstack ▸ List.mem_cons_self)

/-- What a step takes stands in the source. -/
theorem Grounded.slice_eq (h : Grounded source s rest) (n : Nat) :
    (Span.mk s.offset (s.offset + width (rest.take n))).slice source = rest.take n := by
  obtain ⟨front, hsource, hoffset⟩ := h.read
  have hslice := slice_width front (rest.take n) (rest.drop n)
  rw [List.take_append_drop] at hslice
  rw [hsource, hoffset]
  exact hslice

/-- A match takes something, and no more than there is. -/
theorem Stands.bounds {v : View} {m : View.Match} (h : Stands v m) (hv : v.context.Ends) :
    0 < m.length ∧ m.length ≤ v.rest.length :=
  View.matchKind_within hv h.taken m.length rfl

/-- **A step takes something, and no more than there is.** -/
theorem Steps.bounds (h : Steps config s rest next n) (hs : Grounded source s rest) :
    0 < n ∧ n ≤ rest.length := by
  cases h with
  | take hstands => exact hstands.bounds hs.ends_top
  | skip hrun => exact ⟨hrun, runLength_le _ _⟩

theorem Takes.offset_eq (h : Takes s kind lexeme next) : next.offset = s.offset + width lexeme := by
  cases h <;> rfl

/-- **A step moves behind the text that it takes.** -/
theorem Steps.offset_eq (h : Steps config s rest next n) :
    next.offset = s.offset + width (rest.take n) := by
  cases h with
  | take _ htakes => exact htakes.offset_eq
  | skip => rfl

/-- A string that an opener begins can be ended only by some text. -/
theorem ends_of_context? {v : View} (hv : v.context.Ends) (h : v.matchKind kind = .ok (some n))
    (hc : context? kind place (v.rest.take n) = some c) : c.Ends := by
  obtain ⟨hpos, hle⟩ := View.matchKind_within hv h n rfl
  have hlength : (v.rest.take n).length = n := by rw [List.length_take, Nat.min_eq_left hle]
  have hends : ∀ {c : Context} {text : Text}, c.ending?.bind Ending.text? = some text →
      0 < text.length → c.Ends := by
    intro c text htext hpos t ht
    rw [htext] at ht
    cases ht
    exact List.ne_nil_of_length_pos hpos
  -- A string is ended by its opener without the sigil, and that is not empty.
  cases kind with
  | stringOpener =>
    cases hc
    refine hends rfl ?_
    rw [hlength]
    exact hpos
  | rawStringOpener =>
    cases hc
    have hlow := View.two_le_of_rawString (Except.ok.inj h)
    refine hends rfl ?_
    rw [List.length_drop, hlength]
    omega
  | basedStringOpener =>
    cases hc
    have hlow := View.three_le_of_basedString (Except.ok.inj h)
    refine hends rfl ?_
    rw [List.length_drop, hlength]
    omega
  | heredocOpener =>
    cases hc
    have hlow : 1 + 3 ≤ n := View.le_of_heredoc h
    refine hends rfl ?_
    rw [List.length_dropLast, List.length_drop, hlength]
    omega
  | rawHeredocOpener =>
    cases hc
    have hlow : 2 + 3 ≤ n := View.le_of_heredoc h
    refine hends rfl ?_
    rw [List.length_dropLast, List.length_drop, hlength]
    omega
  | leftBracket | leftParen | leftBrace | leftAngle | basedBlockOpener | holeEscape =>
    cases hc
    exact Context.ends_of_ending?_eq_none rfl
  | restOfFileOpener | rawRestOfFileOpener =>
    cases hc
    intro t ht
    cases ht
  | _ => cases hc

theorem kind_ne_root_of_context? (h : context? kind place lexeme = some c) : c.kind ≠ .root := by
  cases kind <;> cases h <;> exact fun h => by cases h

theorem grounded_start (source : Text) : Grounded source .start source where
  read := ⟨[], rfl, rfl⟩
  rooted := ⟨[], rfl, fun c hc => by cases hc⟩
  ends c hc := by
    rw [List.mem_singleton.mp hc]
    exact Context.ends_of_ending?_eq_none rfl

/-- The innermost of several contexts is not the root. -/
theorem Grounded.exists_inner (hs : Grounded source s rest) {opener : Nat}
    (h : s.top.opener? = some opener) : ∃ inner, s.stack = s.top :: (inner ++ [.root]) ∧
      ∀ c ∈ inner, c.kind ≠ .root := by
  obtain ⟨inner, hinner, hroot⟩ := hs.rooted
  cases inner with
  | nil =>
    have htop : s.top = .root := by rw [top, hinner]; rfl
    rw [htop] at h
    cases h
  | cons c inner =>
    have htop : s.top = c := by rw [top, hinner]; rfl
    exact ⟨inner, by rw [hinner, htop]; rfl, fun d hd => hroot d (List.mem_cons_of_mem _ hd)⟩

/-- **A step keeps what every state keeps.** -/
theorem Steps.grounded (h : Steps config s rest next n) (hs : Grounded source s rest) :
    Grounded source next (rest.drop n) := by
  have hread : ∃ front, source = front ++ rest.drop n ∧ next.offset = width front := by
    obtain ⟨front, rfl, hoffset⟩ := hs.read
    refine ⟨front ++ rest.take n, ?_, ?_⟩
    · rw [List.append_assoc, List.take_append_drop]
    · rw [h.offset_eq, hoffset, width_append]
  cases h with
  | skip => exact ⟨hread, hs.rooted, hs.ends⟩
  | take hstands htakes =>
    cases htakes with
    | plain => exact ⟨hread, hs.rooted, hs.ends⟩
    | @enter c hc =>
      obtain ⟨inner, hinner, hroot⟩ := hs.rooted
      refine ⟨hread, ⟨c :: inner, ?_, ?_⟩, ?_⟩
      · show c :: s.stack = _
        rw [hinner, List.cons_append]
      · exact List.forall_mem_cons.mpr ⟨kind_ne_root_of_context? hc, hroot⟩
      · exact List.forall_mem_cons.mpr
          ⟨ends_of_context? hs.ends_top hstands.taken hc, hs.ends⟩
    | @leave opener hcloser hopener hcloses =>
      obtain ⟨inner, hinner, hroot⟩ := hs.exists_inner hopener
      refine ⟨hread, ⟨inner, ?_, hroot⟩, fun d hd => hs.ends d (List.mem_of_mem_tail hd)⟩
      show s.stack.tail = _
      rw [hinner, List.tail_cons]

/-- **Every state that a scan comes to is grounded.** -/
theorem Reaches.grounded (h : Reaches config source s rest) : Grounded source s rest := by
  induction h with
  | start => exact grounded_start source
  | step _ _ hstep ih => exact (steps_of_step hstep).grounded ih

/-! ## §6 Whole scans -/

/-- The rest of a scan is the scan of what is left behind a step that takes something. -/
theorem run_of_step (hrest : rest ≠ []) (hpos : 0 < n) (h : s.step config rest = .ok (next, n)) :
    run config s rest = run config next (rest.drop n) := by
  obtain ⟨m, rfl⟩ : ∃ m, n = m + 1 := ⟨n - 1, by omega⟩
  cases rest with
  | nil => exact absurd rfl hrest
  | cons c t =>
    rw [run, h]
    rfl

/-- The rest of a scan is the scan of what is left behind a step. -/
theorem run_step (hs : Grounded source s rest) (hrest : rest ≠ [])
    (h : s.step config rest = .ok (next, n)) : run config s rest = run config next (rest.drop n) :=
  run_of_step hrest ((steps_of_step h).bounds hs).1 h

/-- **A scan goes on from every state that it comes to.** -/
theorem Reaches.tokenize_eq (h : Reaches config source s rest) :
    tokenize config source = run config s rest := by
  induction h with
  | start => rfl
  | step h hrest hstep ih => rw [ih, run_step h.grounded hrest hstep]

/-- **Every scan comes to a last state**: nothing is left there, or no step can be made. -/
theorem Reaches.exists_last (h : Reaches config source s rest) : ∃ last left,
    Reaches config source last left ∧ run config s rest = run config last left ∧
      (left = [] ∨ left ≠ [] ∧ ∃ failure, last.step config left = .error failure) := by
  -- By the length of what is left, which every step shortens.
  induction hn : rest.length using Nat.strongRecOn generalizing s rest with
  | ind k ih =>
    subst hn
    cases rest with
    | nil => exact ⟨s, [], h, rfl, .inl rfl⟩
    | cons c t =>
      have hne : c :: t ≠ [] := List.cons_ne_nil c t
      cases hstep : s.step config (c :: t) with
      | error failure => exact ⟨s, c :: t, h, rfl, .inr ⟨hne, failure, hstep⟩⟩
      | ok x =>
        obtain ⟨next, n⟩ := x
        obtain ⟨hpos, -⟩ := (steps_of_step hstep).bounds h.grounded
        rw [run_step h.grounded hne hstep]
        refine ih _ ?_ (h.step hne hstep) rfl
        rw [List.length_drop, List.length_cons]
        omega

/-- Where no step can be made a scan has no result. -/
theorem run_of_failure {failure : Failure LexError} (hne : rest ≠ [])
    (hstep : s.step config rest = .error failure) : run config s rest =
      .error (failure.map fun e => s.errors ++ [e]) := by
  obtain ⟨c, t, rfl⟩ := List.exists_cons_of_ne_nil hne
  rw [run, hstep]
  cases failure <;> rfl

/-- **A scan with a result comes to the end of the source.** -/
theorem exists_reaches_of_run (h : Reaches config source s rest) {out : Tokenized}
    (hrun : run config s rest = .ok out) :
    ∃ last, Reaches config source last [] ∧ last.finish = .ok out := by
  obtain ⟨last, left, hlast, heq, rfl | ⟨hne, failure, hstep⟩⟩ := h.exists_last
  · rw [heq, run] at hrun
    exact ⟨last, hlast, hrun⟩
  · rw [heq, run_of_failure hne hstep] at hrun
    cases hrun

theorem exists_reaches_of_tokenize {out : Tokenized} (h : tokenize config source = .ok out) :
    ∃ last, Reaches config source last [] ∧ last.finish = .ok out :=
  exists_reaches_of_run .start h

/-- A scan that ends with a result has met no error, and the result holds its tokens. -/
theorem errors_eq_nil_of_finish {out : Tokenized} (h : s.finish = .ok out) :
    s.errors = [] ∧ s.openContexts.filterMap s.openError = [] ∧ out.tokens = s.tokens := by
  unfold finish at h
  split at h
  · next herrors =>
    cases h
    exact ⟨(List.append_eq_nil_iff.mp herrors).1, (List.append_eq_nil_iff.mp herrors).2, rfl⟩
  · cases h

end Scan

end DewyFront
