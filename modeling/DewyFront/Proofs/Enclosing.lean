/-
# DewyFront.Proofs.Enclosing — scanning a text between delimiters

A scan of a text and one of the same text between delimiters go through the same states, one byte and one
token apart: the root of the one is a block of the other. For that the scan of the text has to come to a
result, and nothing in it may read on to its end. Then what ends a string is still to come wherever one
is open, so that the closing delimiter belongs to no token of the text.

* §1 tokens behind an opener;
* §2 scans that come to a result;
* §3 texts that nothing reads on from;
* §4 states one byte apart;
* §5 steps;
* §6 whole scans.
-/
import DewyFront.Proofs.Bodies
import DewyFront.Proofs.Brackets
import DewyFront.Proofs.Moves
import DewyFront.Proofs.Tiling

namespace DewyFront

/-! ## §1 Tokens -/

/-- A token one byte and one place later. -/
def Token.shift (t : Token) : Token := ⟨t.kind, t.span.move (· + 1), t.partner.map (· + 1)⟩

namespace TokenList

variable {kind : TokenKind} {l : TokenList}

/-- **`enclose`** — tokens behind an opener of one byte, which has no partner yet. -/
def enclose (kind : TokenKind) (l : TokenList) : TokenList :=
  ⟨#[⟨kind, ⟨0, 1⟩, none⟩] ++ l.toArray.map Token.shift⟩

theorem ext_get? {l l' : TokenList} (h : ∀ i, l.get? i = l'.get? i) : l = l' := by
  cases l
  cases l'
  exact congrArg mk (Array.ext_getElem? h)

@[simp] theorem toList_enclose (kind : TokenKind) (l : TokenList) :
    (l.enclose kind).toList = ⟨kind, ⟨0, 1⟩, none⟩ :: l.toList.map Token.shift := by
  simp [enclose, toList]

@[simp] theorem get?_enclose_zero (kind : TokenKind) (l : TokenList) :
    (l.enclose kind).get? 0 = some ⟨kind, ⟨0, 1⟩, none⟩ := by
  rw [← getElem?_toList, toList_enclose, List.getElem?_cons_zero]

@[simp] theorem get?_enclose_succ (kind : TokenKind) (l : TokenList) (i : Nat) :
    (l.enclose kind).get? (i + 1) = (l.get? i).map Token.shift := by
  rw [← getElem?_toList, toList_enclose, List.getElem?_cons_succ, List.getElem?_map, getElem?_toList]

@[simp] theorem size_enclose (kind : TokenKind) (l : TokenList) :
    (l.enclose kind).size = l.size + 1 := by
  simp [enclose, size, Nat.add_comm]

theorem enclose_push (kind k : TokenKind) (l : TokenList) (span : Span) :
    (l.push k span).enclose kind = (l.enclose kind).push k (span.move (· + 1)) := by
  simp [enclose, push, Token.shift]

theorem enclose_setPartner (kind : TokenKind) (l : TokenList) (i partner : Nat) :
    (l.setPartner i partner).enclose kind = (l.enclose kind).setPartner (i + 1) (partner + 1) := by
  apply ext_get?
  intro j
  cases j with
  | zero => simp [get?_setPartner]
  | succ j =>
    rw [get?_enclose_succ, get?_setPartner, get?_setPartner, get?_enclose_succ]
    by_cases hj : i = j
    · rw [if_pos hj, if_pos (congrArg (· + 1) hj)]
      cases l.get? j <;> rfl
    · rw [if_neg hj, if_neg (mt Nat.succ.inj hj)]

theorem enclose_pair (kind : TokenKind) (l : TokenList) (opener closer : Nat) :
    (l.pair opener closer).enclose kind = (l.enclose kind).pair (opener + 1) (closer + 1) := by
  rw [pair, pair, enclose_setPartner, enclose_setPartner]

/-- The last token is that of the text, unless the opener is. -/
theorem last?_enclose (kind : TokenKind) (l : TokenList) :
    (l.enclose kind).last?.map (·.kind) = some ((l.last?.map (·.kind)).getD kind) := by
  rw [last?_eq, last?_eq, pieces, pieces, toList_enclose, List.map_cons, List.map_map,
    List.getLast?_cons, Option.map_some, List.getLast?_map, List.getLast?_map]
  cases l.toList.getLast? <;> rfl

/-- **`SelfContained`** — nothing among the tokens of a source reads on to its end: there is no string
that only the end of the source would end, and the last token is no line comment without a newline. -/
structure SelfContained (source : Text) (l : TokenList) : Prop where
  strings : ∀ t ∈ l.toList, t.kind ≠ .restOfFileOpener ∧ t.kind ≠ .rawRestOfFileOpener
  comment : ∀ t, l.last? = some t → t.kind = .lineComment → '\n' ∈ t.text source

theorem selfContained_iff {source : Text} : l.SelfContained source ↔
    (∀ t ∈ l.toList, t.kind ≠ .restOfFileOpener ∧ t.kind ≠ .rawRestOfFileOpener) ∧
    ∀ t ∈ l.last?, t.kind = .lineComment → '\n' ∈ t.text source :=
  ⟨fun h => ⟨h.strings, h.comment⟩, fun h => ⟨h.1, h.2⟩⟩

instance (source : Text) (l : TokenList) : Decidable (l.SelfContained source) :=
  decidable_of_iff _ selfContained_iff.symm

end TokenList

namespace Delimiters

/-- The kind of the token that opens a block. -/
def openerKind : Delimiters → TokenKind
  | brace => .leftBrace
  | bracket | bracketParen => .leftBracket
  | paren | parenBracket => .leftParen
  | angle => .leftAngle

/-- The kind of the token that closes a block. -/
def closerKind : Delimiters → TokenKind
  | brace => .rightBrace
  | bracket | parenBracket => .rightBracket
  | paren | bracketParen => .rightParen
  | angle => .rightAngle

end Delimiters

namespace Scan

variable {config : LexerConfig} {source rest lexeme : Text} {out : Tokenized} {s next : Scan} {n : Nat}
  {kind : TokenKind} {m : View.Match} {ms : List View.Match}

/-! ## §2 Scans with a result -/

/-- **`Finishes`** — a state that a scan comes to, and the result that it goes on to. -/
structure Finishes (config : LexerConfig) (source : Text) (out : Tokenized) (s : Scan) (rest : Text) :
    Prop where
  reaches : Reaches config source s rest
  run_eq : run config s rest = .ok out

/-- The result of a scan holds its tokens. -/
theorem eq_of_finish (h : s.finish = .ok out) : out = ⟨s.tokens, s.loneReturns⟩ := by
  unfold finish at h
  split at h
  · cases h
    rfl
  · cases h

/-- What closes a string is what ends it. -/
theorem eq_take_of_closes {v : View} {opener : Option TokenKind} {d : Text}
    (hmatch : v.matchKind kind = .ok (some n)) (h : Closes opener kind v.context)
    (hd : v.context.ending?.bind Ending.text? = some d) : d = v.rest.take n := by
  have hclosing := fun hkind => View.closing?_of_matchKind hkind hmatch
  generalize v.context = context at h hd hclosing
  cases h with
  | block | angle => cases hd
  | string _ hkind => exact Option.some.inj (hd.symm.trans (Context.text?_of_closing? (hclosing hkind)))

namespace Finishes

theorem exists_step (h : Finishes config source out s rest) (hrest : rest ≠ []) :
    ∃ next n, s.step config rest = .ok (next, n) ∧ 0 < n ∧ n ≤ rest.length ∧
      Finishes config source out next (rest.drop n) := by
  obtain ⟨hreaches, hrun⟩ := h
  cases hstep : s.step config rest with
  | error failure =>
    rw [run_of_failure hrest hstep] at hrun
    cases hrun
  | ok x =>
    obtain ⟨next, n⟩ := x
    obtain ⟨hpos, hle⟩ := (steps_of_step hstep).bounds hreaches.grounded
    rw [run_of_step hrest hpos hstep] at hrun
    exact ⟨next, n, rfl, hpos, hle, hreaches.step hrest hstep, hrun⟩

/-- What holds at the end, and before every step if it holds behind it, holds wherever a scan with a
result comes to. -/
theorem induct {P : Scan → Text → Prop}
    (hend : ∀ s, Reaches config source s [] → s.finish = .ok out → P s [])
    (hstep : ∀ s rest next n, Finishes config source out s rest → rest ≠ [] →
      s.step config rest = .ok (next, n) → Finishes config source out next (rest.drop n) →
      P next (rest.drop n) → P s rest)
    (h : Finishes config source out s rest) : P s rest := by
  induction hn : rest.length using Nat.strongRecOn generalizing s rest with
  | ind k ih =>
    subst hn
    by_cases hrest : rest = []
    · subst hrest
      exact hend s h.reaches (by rw [← h.run_eq, run])
    · obtain ⟨next, n, heq, hpos, hle, hnext⟩ := h.exists_step hrest
      refine hstep s rest next n h hrest heq hnext (ih _ ?_ hnext rfl)
      rw [List.length_drop]
      omega

/-- A scan with a result meets no error. -/
theorem errors_eq_nil (h : Finishes config source out s rest) : s.errors = [] := by
  refine h.induct (P := fun s _ => s.errors = []) (fun s _ hfinish => ?_) ?_
  · exact (errors_eq_nil_of_finish hfinish).1
  · intro s rest next n _ _ hstep _ hnext
    cases steps_of_step hstep with
    | take _ htakes => rw [← htakes.errors_eq, hnext]
    | skip => exact absurd (List.append_eq_nil_iff.mp hnext).2 (List.cons_ne_nil _ _)

/-- A scan with a result keeps its tokens. -/
theorem pieces_prefix (h : Finishes config source out s rest) :
    s.tokens.pieces <+: out.tokens.pieces := by
  refine h.induct (P := fun s _ => s.tokens.pieces <+: out.tokens.pieces) (fun s _ hfinish => ?_) ?_
  · exact ⟨[], by rw [List.append_nil, (errors_eq_nil_of_finish hfinish).2.2]⟩
  · intro s rest next n _ _ hstep _ hnext
    cases steps_of_step hstep with
    | take _ htakes =>
      rw [htakes.pieces_eq] at hnext
      exact (List.prefix_append _ _).trans hnext
    | skip => exact hnext

/-- **What ends a string is still to come** wherever a scan with a result is inside of the string. -/
theorem infix_of_mem (h : Finishes config source out s rest) : ∀ c ∈ s.stack, ∀ d,
    c.ending?.bind Ending.text? = some d → d <:+: rest := by
  refine h.induct
    (P := fun s rest => ∀ c ∈ s.stack, ∀ d, c.ending?.bind Ending.text? = some d → d <:+: rest) ?_ ?_
  · -- Only the root is open at the end, or a string that no text ends.
    intro s hreaches hfinish c hc d hd
    obtain ⟨-, hopen, -⟩ := errors_eq_nil_of_finish hfinish
    have hroot : c.kind ≠ .root := by
      intro hroot
      cases c <;> first | cases hd | cases hroot
    obtain ⟨i, hi⟩ := Context.exists_opener_of_ne_root hroot
    obtain ⟨c', hstack, hending⟩ := hreaches.paired.spared (mem_openers.mpr ⟨c, hc, hi⟩) hopen
    rw [hstack] at hc
    rcases List.mem_cons.mp hc with rfl | hc
    · rw [hending] at hd
      cases hd
    · exact absurd (congrArg Context.kind (List.mem_singleton.mp hc)) hroot
  · intro s rest next n hs _ hstep _ ih c hc d hd
    have hrest : ∀ {c}, c ∈ next.stack → c.ending?.bind Ending.text? = some d → d <:+: rest :=
      fun hc hd => (ih _ hc _ hd).trans (List.drop_suffix n rest).isInfix
    cases steps_of_step hstep with
    | skip => exact hrest hc hd
    | take hstands htakes =>
      cases htakes with
      | plain => exact hrest hc hd
      | enter => exact hrest (List.mem_cons_of_mem _ hc) hd
      | @leave opener _ hopener hcloses =>
        obtain ⟨inner, hinner, -⟩ := hs.reaches.grounded.exists_inner hopener
        rw [hinner] at hc
        rcases List.mem_cons.mp hc with rfl | hc
        · -- The string that is closed here is closed by what ends it.
          rw [eq_take_of_closes hstands.taken hcloses hd]
          exact (List.take_prefix _ rest).isInfix
        · refine hrest ?_ hd
          show c ∈ s.stack.tail
          rw [hinner]
          exact hc

/-! ## §3 Texts that nothing reads on from -/

/-- A step of a scan with a result takes the match that stands. -/
theorem exists_take_of_step (hstep : s.step config rest = .ok (next, n))
    (hnext : Finishes config source out next (rest.drop n)) :
    ∃ ms m, (s.view config rest).allMatches = .ok ms ∧ View.winners ms = [m] ∧
      s.take m.kind (rest.take m.length) = .ok next ∧ n = m.length := by
  have herrors := hnext.errors_eq_nil
  obtain ⟨ms, hms, ⟨m, hm, hn, htaken⟩ | ⟨-, -, -, -, rfl⟩⟩ := cases_of_step hstep
  · exact ⟨ms, m, hms, hm, htaken, hn⟩
  · -- What is skipped is an error, and a scan with a result has none.
    exact absurd (List.append_eq_nil_iff.mp herrors).2 (List.cons_ne_nil _ _)

theorem exists_take (h : Finishes config source out s rest) (hrest : rest ≠ []) :
    ∃ next m, Stands (s.view config rest) m ∧ Takes s m.kind (rest.take m.length) next ∧
      m.length ≤ rest.length ∧ Finishes config source out next (rest.drop m.length) := by
  obtain ⟨next, n, hstep, -, hle, hnext⟩ := h.exists_step hrest
  obtain ⟨ms, m, hms, hm, htake, rfl⟩ := exists_take_of_step hstep hnext
  have hstands := stands_of_winners hms hm
  exact ⟨next, m, hstands, takes_of_take htake hstands.legal, hle, hnext⟩

theorem piece_mem (h : Finishes config source out s rest) {t : Token} (ht : t ∈ s.tokens.toList) :
    ∃ u ∈ out.tokens.toList, u.kind = t.kind := by
  have hmem := h.pieces_prefix.subset (List.mem_map_of_mem ht)
  obtain ⟨u, hu, heq⟩ := List.mem_map.mp hmem
  exact ⟨u, hu, congrArg Prod.fst heq⟩

variable (hout : out.tokens.SelfContained source)
include hout

/-- No string is open that only the end of the source would end. -/
theorem ending?_ne (h : Finishes config source out s rest) :
    s.top.ending? ≠ some .endOfSource := by
  intro hending
  have hpaired := h.reaches.paired
  have hroot : s.top.kind ≠ .root := by
    intro hroot
    generalize s.top = c at hending hroot
    cases c <;> cases hroot
    cases hending
  obtain ⟨i, hi⟩ := Context.exists_opener_of_ne_root hroot
  obtain ⟨inner, hinner, -⟩ := h.reaches.grounded.exists_inner hi
  obtain ⟨t, ht, -, hcontext⟩ := hpaired.begun s.top (hinner ▸ List.mem_cons_self) i hi
  obtain ⟨u, hu, hkind⟩ := h.piece_mem (List.mem_of_getElem? (TokenList.getElem?_toList _ _ ▸ ht))
  rcases kind_of_endOfSource hcontext hending with heq | heq
  · exact (hout.strings u hu).1 (hkind.trans heq)
  · exact (hout.strings u hu).2 (hkind.trans heq)

/-- No string is begun that only the end of the source would end. -/
theorem kind_ne (hnext : Finishes config source out next rest) (htakes : Takes s kind lexeme next) :
    kind ≠ .restOfFileOpener ∧ kind ≠ .rawRestOfFileOpener := by
  have hmem : (kind, Span.mk s.offset (s.offset + width lexeme)) ∈ next.tokens.pieces := by
    rw [htakes.pieces_eq]
    exact List.mem_append_right _ (List.mem_singleton_self _)
  obtain ⟨t, ht, heq⟩ := List.mem_map.mp hmem
  obtain ⟨u, hu, hkind⟩ := hnext.piece_mem ht
  have hkind : u.kind = kind := hkind.trans (congrArg Prod.fst heq)
  exact ⟨hkind ▸ (hout.strings u hu).1, hkind ▸ (hout.strings u hu).2⟩

/-- A line comment that takes all that is left is the last token, so it has its newline. -/
theorem newline_mem (h : Finishes config source out s rest) (hrest : rest ≠ [])
    (hlegal : TokenKind.lineComment.isLegalIn s.top.kind = true)
    (hlength : Lexicon.lineCommentLength rest = rest.length) : '\n' ∈ rest := by
  obtain ⟨next, m, hstands, htakes, hle, hnext⟩ := h.exists_take hrest
  have hpositive : View.positive rest.length = some rest.length :=
    if_neg (Nat.ne_of_gt (List.length_pos_of_ne_nil hrest))
  have hmatch : (s.view config rest).matchKind .lineComment = .ok (some rest.length) :=
    congrArg Except.ok ((congrArg View.positive hlength).trans hpositive)
  obtain ⟨hkind, hall⟩ := View.eq_of_stands hstands hlegal hmatch hle (by decide)
  rw [hall, List.drop_length] at hnext
  have hrun := hnext.run_eq
  rw [run] at hrun
  have hslice := h.reaches.grounded.slice_eq rest.length
  rw [List.take_length] at hslice
  rw [hall, hkind, List.take_length] at htakes
  -- Nothing is left behind the comment, so the tokens end with it.
  have hlast : out.tokens.last? = some ⟨.lineComment, ⟨s.offset, s.offset + width rest⟩, none⟩ := by
    rw [(errors_eq_nil_of_finish hrun).2.2]
    cases htakes with
    | plain => exact Array.back?_push
    | enter hc => cases hc
    | leave hcloser => cases hcloser
  exact hslice ▸ hout.comment _ hlast rfl

omit hout in
/-- Nothing but a quote is not left, as the string that it opens would not be ended. -/
theorem rest_ne_quote (h : Finishes config source out s rest)
    (hcontext : s.top.kind.isExpression = true) {q : Char} (hq : View.isQuote q = true) :
    rest ≠ [q] := by
  rintro rfl
  obtain ⟨next, m, hstands, htakes, -, hnext⟩ := h.exists_take (List.cons_ne_nil q [])
  obtain ⟨hkind, hlength⟩ :=
    View.stringOpener_of_stands hcontext hstands h.reaches.grounded.ends_top hq rfl
  rw [hkind, hlength] at htakes
  rw [hlength] at hnext
  cases htakes with
  | plain hopener => cases hopener
  | leave hcloser => cases hcloser
  | enter hc =>
    cases hc
    exact List.cons_ne_nil q []
      (List.eq_nil_of_infix_nil (hnext.infix_of_mem _ List.mem_cons_self [q] rfl))

/-- **Nothing reads on to the end.** -/
theorem not_isOpenEnded (h : Finishes config source out s rest) (hrest : rest ≠ []) :
    ¬ (s.view config rest).IsOpenEnded := by
  rintro (⟨hlegal, hlength, hnewline⟩ | ⟨hcontext, sigil, hsigil, q, hq, heq⟩)
  · exact hnewline (h.newline_mem hout hrest hlegal hlength)
  · obtain ⟨next, m, hstands, htakes, -, hnext⟩ := h.exists_take hrest
    rcases List.mem_cons.mp hsigil with rfl | hsigil
    · exact View.rest_ne_of_stands hcontext hstands hq heq
    · -- Behind the hashtag of both characters of the sigil, only the quote is left.
      rw [List.mem_singleton.mp hsigil] at heq
      obtain ⟨hkind, hlength⟩ := View.hashtag_of_stands hcontext hstands hq heq
      have heq : rest = ['#', 'r', q] := heq
      rw [hlength, heq] at hnext
      have hstack : next.stack = s.stack := by
        rw [hkind] at htakes
        cases htakes with
        | plain => rfl
        | enter hc => cases hc
        | leave hcloser => cases hcloser
      refine hnext.rest_ne_quote ?_ hq rfl
      rw [top, hstack]
      exact hcontext

/-- At the end only the root is open. -/
theorem stack_eq (h : Finishes config source out s []) : s.stack = [.root] := by
  have hfinish : s.finish = .ok out := by rw [← h.run_eq, run]
  obtain ⟨-, hopen, -⟩ := errors_eq_nil_of_finish hfinish
  -- Else a string is open that only the end of the source ends.
  refine h.reaches.paired.stack_eq_of_openers (List.eq_nil_iff_forall_not_mem.mpr fun n hn => ?_)
  obtain ⟨c, hstack, hending⟩ := h.reaches.paired.spared hn hopen
  refine h.ending?_ne hout ?_
  rw [top, hstack]
  exact hending

end Finishes

/-! ## §4 States one byte apart -/

/-- **`Follows`** — a state of a scan, and that of the same text behind an opener: everything is one
byte and one token later, and the root is the block of the opener. -/
structure Follows (kind : TokenKind) (s s' : Scan) : Prop where
  offset : s'.offset = s.offset + 1
  tokens : s'.tokens = s.tokens.enclose kind
  stack : ∃ inner, (∀ c ∈ inner, c.kind ≠ .root) ∧ s.stack = inner ++ [.root] ∧
    s'.stack = inner.map Context.shift ++ [.blockBody 0 .decimal, .root]
  errors : s'.errors = s.errors
  loneReturns : s'.loneReturns = s.loneReturns.map (· + 1)

theorem loneReturnsIn_succ (offset : Nat) (t : Text) :
    loneReturnsIn (offset + 1) t = (loneReturnsIn offset t).map (· + 1) := by
  fun_induction loneReturnsIn offset t with
  | case1 offset t ih => rw [loneReturnsIn, ← ih, Nat.add_right_comm]
  | case2 offset t hnewline ih =>
    rw [loneReturnsIn, List.map_cons, ← ih]
    exact hnewline
  | case3 offset c t hreturn hcarriage ih =>
    rw [loneReturnsIn, ← ih, Nat.add_right_comm]
    · exact hreturn
    · exact hcarriage
  | case4 => rfl

theorem context?_succ (kind : TokenKind) (place : Nat) (lexeme : Text) :
    context? kind (place + 1) lexeme = (context? kind place lexeme).map Context.shift := by
  cases kind <;> rfl

namespace Follows

variable {k : TokenKind} {s' next' : Scan} {opener : Nat}

theorem matches_top (h : Follows k s s') : s.top.Matches s'.top := by
  obtain ⟨inner, hroot, hstack, hstack'⟩ := h.stack
  rw [top, top, hstack, hstack']
  cases inner with
  | nil => exact .block
  | cons c inner => exact .shift (hroot c List.mem_cons_self)

/-- Whatever has an opener is not the root. -/
theorem top_eq (h : Follows k s s') (hopener : s.top.opener? = some opener) :
    s'.top = s.top.shift := by
  have hmatches := h.matches_top
  generalize s.top = c at hopener hmatches
  generalize s'.top = c' at hmatches
  cases hmatches with
  | shift => rfl
  | block => cases hopener

theorem record (h : Follows k s s') (kind : TokenKind) (lexeme : Text) :
    Follows k (s.record kind lexeme) (s'.record kind lexeme) where
  offset := by
    show s'.offset + width lexeme = s.offset + width lexeme + 1
    rw [h.offset, Nat.add_right_comm]
  tokens := by
    show s'.tokens.push _ _ = (s.tokens.push _ _).enclose k
    rw [TokenList.enclose_push, h.tokens, h.offset, Nat.add_right_comm]
    rfl
  stack := h.stack
  errors := h.errors
  loneReturns := h.loneReturns

theorem enter (h : Follows k s s') {c : Context} (hc : c.kind ≠ .root) :
    Follows k (s.enter c) (s'.enter c.shift) where
  offset := h.offset
  tokens := h.tokens
  stack := by
    obtain ⟨inner, hroot, hstack, hstack'⟩ := h.stack
    refine ⟨c :: inner, List.forall_mem_cons.mpr ⟨hc, hroot⟩, congrArg (c :: ·) hstack,
      congrArg (c.shift :: ·) hstack'⟩
  errors := h.errors
  loneReturns := h.loneReturns

theorem leave (h : Follows k s s') (hopener : s.top.opener? = some opener) (closer : Nat) :
    Follows k (s.leave opener closer) (s'.leave (opener + 1) (closer + 1)) where
  offset := h.offset
  tokens := by
    show s'.tokens.pair _ _ = (s.tokens.pair _ _).enclose k
    rw [TokenList.enclose_pair, h.tokens]
  stack := by
    obtain ⟨inner, hroot, hstack, hstack'⟩ := h.stack
    cases inner with
    | nil =>
      rw [top, hstack] at hopener
      cases hopener
    | cons c inner =>
      exact ⟨inner, fun d hd => hroot d (List.mem_cons_of_mem _ hd), congrArg List.tail hstack,
        congrArg List.tail hstack'⟩
  errors := h.errors
  loneReturns := h.loneReturns

/-- Both scans close a block alike. -/
theorem closeBlock (h : Follows k s s') {place : Nat} (hclose : s.closeBlock kind place lexeme = .ok next) :
    ∃ next', s'.closeBlock kind (place + 1) lexeme = .ok next' ∧ Follows k next next' := by
  unfold Scan.closeBlock at hclose
  split at hclose
  · next opener base htop =>
    have hopener : s.top.opener? = some opener := by rw [htop]; rfl
    have htop' : s'.top = .blockBody (opener + 1) base := by rw [h.top_eq hopener, htop]; rfl
    -- What may close the block is asked of its opener, which stands one place later.
    have hkind : (s'.tokens.get? (opener + 1)).map (·.kind) =
        (s.tokens.get? opener).map (·.kind) := by
      rw [h.tokens, TokenList.get?_enclose_succ, Option.map_map]
      rfl
    dsimp only at hclose
    split at hclose
    · next hcloses =>
      cases hclose
      refine ⟨s'.leave (opener + 1) (place + 1), ?_, h.leave hopener place⟩
      unfold Scan.closeBlock
      rw [htop']
      dsimp only
      rw [hkind, if_pos hcloses]
    · cases hclose
  · cases hclose

/-- Both scans end what they are in. -/
theorem ends (h : Follows k s s') (hopener : s.top.opener? = some opener) (closer : Nat) :
    Follows k (s.top.opener?.elim s (s.leave · closer))
      (s'.top.opener?.elim s' (s'.leave · (closer + 1))) := by
  have hopener' : s'.top.opener? = some (opener + 1) := by
    rw [h.top_eq hopener]
    generalize s.top = c at hopener
    cases c <;> cases hopener <;> rfl
  rw [hopener, hopener']
  exact h.leave hopener closer

/-- Both scans begin what a token begins. -/
theorem begins (h : Follows k s s') (kind : TokenKind) (place : Nat) (lexeme : Text) :
    Follows k ((context? kind place lexeme).elim s s.enter)
      ((context? kind (place + 1) lexeme).elim s' s'.enter) := by
  rw [context?_succ]
  cases hc : context? kind place lexeme with
  | none => exact h
  | some c => exact h.enter (kind_ne_root_of_context? hc)

/-- **Both scans take a token alike.** -/
theorem take (h : Follows k s s') (hlegal : kind.isLegalIn s.top.kind = true)
    (htake : s.take kind lexeme = .ok next) :
    ∃ next', s'.take kind lexeme = .ok next' ∧ Follows k next next' := by
  have hsize : s'.tokens.size = s.tokens.size + 1 := by rw [h.tokens, TokenList.size_enclose]
  have hrecord := h.record kind lexeme
  have hbegins := hrecord.begins kind s.tokens.size lexeme
  rw [← hsize] at hbegins
  cases kind with
  | blank =>
    cases htake
    refine ⟨_, rfl, { hrecord with loneReturns := ?_ }⟩
    show s'.loneReturns ++ loneReturnsIn s'.offset lexeme = _
    rw [h.loneReturns, h.offset, loneReturnsIn_succ, List.map_append]
  | rightBracket | rightParen | rightBrace =>
    rw [Scan.take, hsize]
    exact hrecord.closeBlock htake
  | rightAngle | stringCloser | heredocCloser =>
    cases htake
    obtain ⟨opener, hopener⟩ :=
      Context.exists_opener_of_ne_root (TokenKind.ne_root_of_isCloser rfl hlegal)
    have hends := hrecord.ends hopener s.tokens.size
    rw [← hsize] at hends
    exact ⟨_, rfl, hends⟩
  | _ =>
    cases htake
    exact ⟨_, rfl, hbegins⟩

/-! ## §5 Steps -/

/-- What matchers see of both scans. -/
theorem extends_view (h : Follows k s s') (hk : k ≠ .number) (config : LexerConfig) (rest : Text)
    (c : Char) : (s.view config rest).Extends c (s'.view config (rest ++ [c])) where
  config := rfl
  rest := rfl
  context := h.matches_top
  previous := by
    show s'.tokens.last?.map (·.kind) = some .number ↔ s.tokens.last?.map (·.kind) = some .number
    rw [h.tokens, TokenList.last?_enclose]
    -- In front of the first token of the text stands the opener, which is no number.
    cases s.tokens.last?.map (·.kind) with
    | none => exact iff_of_false (fun heq => hk (Option.some.inj heq)) (fun heq => by cases heq)
    | some kind => exact Iff.rfl

end Follows

/-- The only match that stands is taken. -/
theorem step_of_winners (hms : (s.view config rest).allMatches = .ok ms)
    (hm : View.winners ms = [m]) (htake : s.take m.kind (rest.take m.length) = .ok next) :
    s.step config rest = .ok (next, m.length) := by
  unfold step
  refine bind_ok_iff.mpr ⟨ms, mapError_ok_iff.mpr hms, ?_⟩
  rw [hm]
  exact bind_ok_iff.mpr ⟨next, htake, rfl⟩

namespace Follows

variable {k : TokenKind} {s' : Scan} {c : Char}

/-- **Both scans go the same step**, though a closing delimiter stands behind the text of one. -/
theorem step (h : Follows k s s') (hk : k ≠ .number) (hc : IsBlockCloser c)
    (hout : out.tokens.SelfContained source) (hs : Finishes config source out s rest)
    (hrest : rest ≠ []) (hstep : s.step config rest = .ok (next, n))
    (hnext : Finishes config source out next (rest.drop n)) (hle : n ≤ rest.length) :
    ∃ next', s'.step config (rest ++ [c]) = .ok (next', n) ∧ Follows k next next' := by
  obtain ⟨ms, m, hms, hm, htake, rfl⟩ := Finishes.exists_take_of_step hstep hnext
  have hstands := stands_of_winners hms hm
  obtain ⟨next', htake', hfollows⟩ := h.take hstands.legal htake
  have hmem : s.top ∈ s.stack := by
    obtain ⟨inner, hinner, -⟩ := hs.reaches.grounded.rooted
    rw [top, hinner]
    cases inner <;> exact List.mem_cons_self
  have hms' : (s'.view config (rest ++ [c])).allMatches = .ok ms :=
    (View.allMatches_concat hc (h.extends_view hk config rest c) hrest (hs.not_isOpenEnded hout hrest)
      (hs.ending?_ne hout) (hs.infix_of_mem _ hmem) hstands
      (hnext.kind_ne hout (takes_of_take htake hstands.legal))).trans hms
  refine ⟨next', step_of_winners hms' hm ?_, hfollows⟩
  rw [List.take_append_of_le_length hle]
  exact htake'

/-! ## §6 Whole scans -/

/-- **Both scans come to the end of the text**, the one with a result, and the other to the closing
delimiter. -/
theorem run (h : Follows k s s') (hk : k ≠ .number) (hc : IsBlockCloser c)
    (hout : out.tokens.SelfContained source) (hs : Finishes config source out s rest) :
    ∃ last last', Reaches config source last [] ∧ last.finish = .ok out ∧ Follows k last last' ∧
      Scan.run config s' (rest ++ [c]) = Scan.run config last' [c] := by
  refine Finishes.induct (P := fun s rest => ∀ s', Follows k s s' → ∃ last last',
    Reaches config source last [] ∧ last.finish = .ok out ∧ Follows k last last' ∧
      Scan.run config s' (rest ++ [c]) = Scan.run config last' [c]) ?_ ?_ hs s' h
  · exact fun s hreaches hfinish s' h => ⟨s, s', hreaches, hfinish, h, rfl⟩
  · intro s rest next n hs hrest hstep hnext ih s' h
    obtain ⟨hpos, hle⟩ := (steps_of_step hstep).bounds hs.reaches.grounded
    obtain ⟨next', hstep', hfollows⟩ := h.step hk hc hout hs hrest hstep hnext hle
    obtain ⟨last, last', hreaches, hfinish, hlast, hrun⟩ := ih next' hfollows
    refine ⟨last, last', hreaches, hfinish, hlast, ?_⟩
    rw [run_of_step (List.append_ne_nil_of_left_ne_nil hrest [c]) hpos hstep',
      List.drop_append_of_le_length hle, hrun]

end Follows

variable {d : Delimiters} {s' : Scan}

/-- The opener of a block is the first token, and what stands behind it is the text. -/
theorem exists_follows_start (hd : d ≠ .angle) (config : LexerConfig) (t : Text) :
    ∃ s', Scan.start.step config (d.opener :: t) = .ok (s', 1) ∧ Follows d.openerKind .start s' := by
  have hmem : d.opener ∈ brackets := by
    cases d <;> first | decide | exact absurd rfl hd
  have hms : (Scan.start.view config (d.opener :: t)).allMatches = .ok [⟨d.openerKind, 1⟩] := by
    rw [View.allMatches_bracket rfl hmem rfl]
    cases d <;> first | rfl | exact absurd rfl hd
  refine ⟨(Scan.start.record d.openerKind [d.opener]).enter (.blockBody 0 .decimal),
    step_of_winners hms (View.winners_singleton _) ?_, ?_⟩
  · cases d <;> first | rfl | exact absurd rfl hd
  · have hwidth : width [d.opener] = 1 := by cases d <;> rfl
    refine ⟨?_, ?_, ⟨[], (fun c hc => by cases hc), rfl, rfl⟩, rfl, rfl⟩
    · show 0 + width [d.opener] = 0 + 1
      rw [hwidth]
    · show TokenList.empty.push d.openerKind ⟨0, 0 + width [d.opener]⟩ = _
      rw [hwidth]
      simp [TokenList.enclose, TokenList.push, TokenList.empty, start]

/-- The closer of the block is the last token. -/
theorem run_closer (hd : d ≠ .angle) (config : LexerConfig)
    (hstack : s'.stack = [.blockBody 0 .decimal, .root]) (herrors : s'.errors = [])
    (hopener : (s'.tokens.get? 0).map (·.kind) = some d.openerKind) :
    Scan.run config s' [d.closer] =
      .ok ⟨(s'.tokens.push d.closerKind ⟨s'.offset, s'.offset + 1⟩).pair 0 s'.tokens.size,
        s'.loneReturns⟩ := by
  have hmem : d.closer ∈ brackets := by
    cases d <;> first | decide | exact absurd rfl hd
  have hwidth : width [d.closer] = 1 := by cases d <;> rfl
  have hlt : 0 < s'.tokens.size := by
    obtain ⟨t, ht, -⟩ := Option.map_eq_some_iff.mp hopener
    exact TokenList.lt_size_of_get? ht
  have hms : (s'.view config [d.closer]).allMatches = .ok [⟨d.closerKind, 1⟩] := by
    have hcontext : (s'.view config [d.closer]).context = .blockBody 0 .decimal := by
      rw [view, top, hstack]
      rfl
    rw [View.allMatches_bracket (by rw [hcontext]; rfl) hmem rfl, hcontext]
    cases d <;> first | rfl | exact absurd rfl hd
  have hclose : (s'.record d.closerKind [d.closer]).closeBlock d.closerKind s'.tokens.size [d.closer] =
      .ok ((s'.record d.closerKind [d.closer]).leave 0 s'.tokens.size) := by
    have htop : (s'.record d.closerKind [d.closer]).top = .blockBody 0 .decimal := by
      rw [top, record, hstack]
      rfl
    unfold closeBlock
    rw [htop]
    dsimp only
    rw [get?_record_of_lt _ _ _ hlt, hopener, if_pos]
    cases d <;> first | rfl | exact absurd rfl hd
  have hstep : s'.step config [d.closer] =
      .ok ((s'.record d.closerKind [d.closer]).leave 0 s'.tokens.size, 1) := by
    refine step_of_winners hms (View.winners_singleton _) ?_
    rw [← hclose]
    cases d <;> first | rfl | exact absurd rfl hd
  rw [run_of_step (List.cons_ne_nil _ _) Nat.one_pos hstep, List.drop_succ_cons, List.drop_zero,
    Scan.run, finish, openContexts]
  simp only [leave, record, hstack, herrors, hwidth, List.tail_cons]
  rfl

end Scan

/-- **A text between delimiters has the tokens of the text between those of the delimiters**, one byte
and one place later. -/
theorem tokenize_enclose {config : LexerConfig} {source : Text} {out : Tokenized} {d : Delimiters}
    (h : tokenize config source = .ok out) (hout : out.tokens.SelfContained source) (hd : d ≠ .angle) :
    tokenize config (d.opener :: (source ++ [d.closer])) =
      .ok ⟨((out.tokens.enclose d.openerKind).push d.closerKind
        ⟨width source + 1, width source + 2⟩).pair 0 (out.tokens.size + 1),
        out.loneReturns.map (· + 1)⟩ := by
  have hcloser : IsBlockCloser d.closer := by
    unfold IsBlockCloser
    cases d <;> first | decide | exact absurd rfl hd
  have hk : d.openerKind ≠ .number := by cases d <;> decide
  -- The opener, the text in step with the scan of it, and the closer.
  obtain ⟨s', hstep, hfollows⟩ := Scan.exists_follows_start hd config (source ++ [d.closer])
  obtain ⟨last, last', hreaches, hfinish, hlast, hrun⟩ :=
    hfollows.run hk hcloser hout ⟨.start, h⟩
  have hs : Scan.Finishes config source out last [] := ⟨hreaches, by rw [Scan.run, hfinish]⟩
  have hstack := hs.stack_eq hout
  have hstack' : last'.stack = [.blockBody 0 .decimal, .root] := by
    obtain ⟨inner, -, hinner, hinner'⟩ := hlast.stack
    rw [hstack, ← List.nil_append [Context.root]] at hinner
    rw [hinner', ← List.append_cancel_right hinner]
    rfl
  have hoffset : last'.offset = width source + 1 := by
    obtain ⟨front, hfront, hwidth⟩ := hreaches.grounded.read
    rw [hlast.offset, hwidth, hfront, List.append_nil]
  have hopener : (last'.tokens.get? 0).map (·.kind) = some d.openerKind := by
    rw [hlast.tokens, TokenList.get?_enclose_zero]
    rfl
  rw [tokenize, Scan.run_of_step (List.cons_ne_nil _ _) Nat.one_pos hstep, List.drop_succ_cons,
    List.drop_zero, hrun,
    Scan.run_closer hd config hstack' (hlast.errors.trans hs.errors_eq_nil) hopener, hlast.tokens,
    hlast.loneReturns, hoffset, TokenList.size_enclose, Scan.eq_of_finish hfinish]

end DewyFront
