/-
# DewyFront.Proofs.Tiling — tokens tile the source, each as long as it can be

Every step of a scan gets on, to a place between two characters. So if a scan ends with tokens, they
stand side by side from the start of the source to its end. The contexts that a scan has been in can
be told from the tokens alone, by going over them again: openers begin a context, closers end the
innermost one. Told so, every token is one that may stand in the context that it stands in, no kind
that may stand there takes more, and any other that takes as much gives way.

* §1 spans that tile a stretch;
* §2 contexts told from tokens;
* §3 the longest match;
* §4 what every state keeps;
* §5 whole scans.
-/
import DewyFront.Proofs.Scanning

namespace DewyFront

/-! ## §1 Tilings -/

namespace Span

/-- **`Tiles`** — spans stand side by side from one offset to another, and none is empty. -/
def Tiles (start stop : Nat) : List Span → Prop
  | [] => start = stop
  | s :: spans => s.start = start ∧ start < s.stop ∧ Tiles s.stop stop spans

theorem tiles_append {start stop : Nat} {xs ys : List Span} :
    Tiles start stop (xs ++ ys) ↔ ∃ middle, Tiles start middle xs ∧ Tiles middle stop ys := by
  induction xs generalizing start with
  | nil => simp [Tiles]
  | cons s xs ih => simp [Tiles, ih, and_assoc]

theorem tiles_concat {start stop : Nat} {xs : List Span} {s : Span} (h : Tiles start s.start xs)
    (hlt : s.start < s.stop) (hstop : s.stop = stop) : Tiles start stop (xs ++ [s]) :=
  tiles_append.mpr ⟨s.start, h, rfl, hlt, hstop⟩

end Span

/-! ## §2 Contexts -/

/-- What a token is without its partner: its kind and where it stands. -/
def Token.piece (t : Token) : TokenKind × Span := (t.kind, t.span)

/-- The contexts behind a token: a closer ends the innermost one, and an opener begins one. -/
def Context.behind (source : Text) (stack : List Context) (piece : TokenKind × Span) (place : Nat) :
    List Context :=
  if piece.1.isCloser then stack.tail
  else (Scan.context? piece.1 place (piece.2.slice source)).elim stack (· :: stack)

/-- **`contextsBehind`** — the contexts that tokens leave open, innermost first. -/
def contextsBehind (source : Text) (pieces : List (TokenKind × Span)) : List Context :=
  pieces.zipIdx.foldl (fun stack (piece, place) => Context.behind source stack piece place) [.root]

theorem contextsBehind_concat (source : Text) (pieces : List (TokenKind × Span))
    (piece : TokenKind × Span) : contextsBehind source (pieces ++ [piece]) =
      Context.behind source (contextsBehind source pieces) piece pieces.length := by
  rw [contextsBehind, List.zipIdx_append, List.foldl_append, Nat.zero_add]
  rfl

namespace TokenList

/-- The tokens of a list without their partners. -/
def pieces (l : TokenList) : List (TokenKind × Span) := l.toList.map Token.piece

@[simp] theorem pieces_push (l : TokenList) (kind : TokenKind) (span : Span) :
    (l.push kind span).pieces = l.pieces ++ [(kind, span)] := by
  simp [pieces, Token.piece]

@[simp] theorem length_pieces (l : TokenList) : l.pieces.length = l.size := by
  rw [pieces, List.length_map, length_toList]

@[simp] theorem pieces_setPartner (l : TokenList) (i partner : Nat) :
    (l.setPartner i partner).pieces = l.pieces := by
  apply List.ext_getElem?
  intro j
  simp only [pieces, List.getElem?_map, getElem?_toList, get?_setPartner]
  split
  · cases l.get? j <;> rfl
  · rfl

@[simp] theorem pieces_pair (l : TokenList) (opener closer : Nat) :
    (l.pair opener closer).pieces = l.pieces := by
  rw [pair, pieces_setPartner, pieces_setPartner]

theorem last?_eq (l : TokenList) : l.last?.map (·.kind) = l.pieces.getLast?.map Prod.fst := by
  rw [pieces, List.getLast?_map, Option.map_map]
  simp only [last?, toList, Array.getLast?_toList]
  rfl

end TokenList

/-! ## §3 The longest match -/

/-- What matchers see behind some tokens, with a rest of the source left. -/
def viewBehind (config : LexerConfig) (source : Text) (earlier : List (TokenKind × Span))
    (start : Nat) (rest : Text) : View :=
  ⟨config, start, (contextsBehind source earlier).headD .root, earlier.getLast?.map Prod.fst, rest⟩

/-- **`IsLongest`** — a token that stands behind others, in front of a rest that it is taken from. Its
kind may stand there and takes what the token is. No kind that may stand there is refused or takes more
bytes, and any other that takes as many gives way. -/
structure IsLongest (config : LexerConfig) (source : Text) (earlier : List (TokenKind × Span))
    (kind : TokenKind) (span : Span) (rest : Text) : Prop where
  stands : ∃ front, source = front ++ rest ∧ width front = span.start
  legal : kind.isLegalIn (viewBehind config source earlier span.start rest).context.kind = true
  taken : ∃ n, (viewBehind config source earlier span.start rest).matchKind kind = .ok (some n) ∧
    width (rest.take n) = span.size
  others : ∀ other,
    other.isLegalIn (viewBehind config source earlier span.start rest).context.kind = true →
    ∃ found, (viewBehind config source earlier span.start rest).matchKind other = .ok found ∧
      ∀ n, found = some n → width (rest.take n) ≤ span.size ∧
        (width (rest.take n) = span.size → other = kind ∨ (kind, other) ∈ TokenKind.precedence)

theorem width_take_le {n m : Nat} (h : n ≤ m) (t : Text) : width (t.take n) ≤ width (t.take m) := by
  rw [← List.take_append_drop n (t.take m), List.take_take, Nat.min_eq_left h, width_append]
  exact Nat.le_add_right _ _

theorem width_take_lt {n m : Nat} {t : Text} (h : n < m) (hm : m ≤ t.length) :
    width (t.take n) < width (t.take m) := by
  have hmore : (t.take m).drop n ≠ [] := by
    apply List.ne_nil_of_length_pos
    rw [List.length_drop, List.length_take, Nat.min_eq_left hm]
    omega
  have hpos := width_pos hmore
  rw [← List.take_append_drop n (t.take m), List.take_take, Nat.min_eq_left (Nat.le_of_lt h),
    width_append]
  omega

theorem width_take_pos {n : Nat} {t : Text} (h : 0 < n) (hn : n ≤ t.length) :
    0 < width (t.take n) :=
  Nat.lt_of_le_of_lt (Nat.zero_le _) (width_take_lt h hn)

namespace Scan

variable {config : LexerConfig} {source rest lexeme : Text} {s next : Scan} {kind : TokenKind}
  {n : Nat}

/-- A match that stands is the longest. -/
theorem Stands.isLongest {m : View.Match} {earlier : List (TokenKind × Span)}
    (h : Stands (viewBehind config source earlier s.offset rest) m) (hm : m.length ≤ rest.length)
    (hread : ∃ front, source = front ++ rest ∧ s.offset = width front) :
    IsLongest config source earlier m.kind ⟨s.offset, s.offset + width (rest.take m.length)⟩ rest := by
  have hsize : (Span.mk s.offset (s.offset + width (rest.take m.length))).size =
      width (rest.take m.length) := Nat.add_sub_cancel_left _ _
  refine ⟨?_, h.legal, ⟨m.length, h.taken, hsize.symm⟩, fun other hlegal => ?_⟩
  · obtain ⟨front, hsource, hoffset⟩ := hread
    exact ⟨front, hsource, hoffset.symm⟩
  · obtain ⟨found, hfound, hothers⟩ := h.others other hlegal
    refine ⟨found, hfound, fun n hn => ?_⟩
    obtain ⟨hle, htie⟩ := hothers n hn
    rw [hsize]
    refine ⟨width_take_le hle rest, fun heq => htie ?_⟩
    by_contra hne
    have hlt := width_take_lt (Nat.lt_of_le_of_ne hle hne) hm
    omega

/-! ## §4 What every state keeps -/

/-- **`Told`** — the contexts of a state are told from its tokens, each of these is the longest at its
place, and they tile what has been read if nothing has been skipped. -/
structure Told (config : LexerConfig) (source : Text) (s : Scan) : Prop where
  stack : s.stack = contextsBehind source s.tokens.pieces
  longest : ∀ earlier piece later, s.tokens.pieces = earlier ++ piece :: later →
    ∃ rest, IsLongest config source earlier piece.1 piece.2 rest
  tiles : s.errors = [] → Span.Tiles 0 s.offset (s.tokens.pieces.map Prod.snd)

theorem told_start (config : LexerConfig) (source : Text) : Told config source .start where
  stack := rfl
  longest earlier piece later h := by
    cases earlier <;> cases h
  tiles _ := rfl

/-- Taking a token adds it to the others. -/
theorem Takes.pieces_eq (h : Takes s kind lexeme next) : next.tokens.pieces =
    s.tokens.pieces ++ [(kind, ⟨s.offset, s.offset + width lexeme⟩)] := by
  cases h with
  | plain => exact TokenList.pieces_push _ _ _
  | enter => exact TokenList.pieces_push _ _ _
  | leave =>
    show ((s.tokens.push kind _).pair _ _).pieces = _
    rw [TokenList.pieces_pair, TokenList.pieces_push]

/-- **What taking a token does to the contexts is told from the token.** -/
theorem Takes.stack_eq (h : Takes s kind lexeme next)
    (hslice : (Span.mk s.offset (s.offset + width lexeme)).slice source = lexeme) :
    next.stack = Context.behind source s.stack (kind, ⟨s.offset, s.offset + width lexeme⟩)
      s.tokens.size := by
  unfold Context.behind
  rw [hslice]
  cases h with
  | plain hopener hcloser =>
    have hnone : context? kind s.tokens.size lexeme = none := by
      rw [← Option.not_isSome_iff_eq_none, isSome_context?, hopener]
      exact Bool.false_ne_true
    rw [hcloser, hnone]
    rfl
  | enter hc =>
    rw [TokenKind.isCloser_eq_false_of_isOpener (isOpener_of_context? hc), hc]
    rfl
  | leave hcloser =>
    rw [hcloser]
    rfl

theorem Takes.errors_eq (h : Takes s kind lexeme next) : next.errors = s.errors := by
  cases h <;> rfl

/-- **A step keeps what is told from the tokens.** -/
theorem Steps.told (h : Steps config s rest next n) (hs : Grounded source s rest)
    (ht : Told config source s) : Told config source next := by
  cases h with
  | skip =>
    exact ⟨ht.stack, ht.longest, fun herrors => absurd (List.append_eq_nil_iff.mp herrors).2
      (List.cons_ne_nil _ _)⟩
  | @take m next hstands htakes =>
    obtain ⟨hpos, hle⟩ : 0 < m.length ∧ m.length ≤ rest.length := hstands.bounds hs.ends_top
    have hpieces := htakes.pieces_eq
    have hview : s.view config rest =
        viewBehind config source s.tokens.pieces s.offset rest := by
      rw [view, viewBehind, TokenList.last?_eq, top, ht.stack]
    refine ⟨?_, ?_, ?_⟩
    · rw [htakes.stack_eq (hs.slice_eq _), hpieces, contextsBehind_concat, ← ht.stack,
        TokenList.length_pieces]
    · intro earlier piece later heq
      rw [hpieces] at heq
      -- The token that is taken comes last; any other was among the pieces before.
      rcases List.eq_nil_or_concat later with rfl | ⟨inner, last, rfl⟩
      · obtain ⟨hfront, hlast⟩ := List.append_inj' heq rfl
        cases hlast
        rw [← hfront]
        exact ⟨rest, (hview ▸ hstands).isLongest hle hs.read⟩
      · rw [List.concat_eq_append, ← List.cons_append, ← List.append_assoc] at heq
        obtain ⟨hfront, -⟩ := List.append_inj' heq rfl
        exact ht.longest earlier piece inner hfront
    · intro herrors
      rw [htakes.errors_eq] at herrors
      rw [hpieces, List.map_append, htakes.offset_eq]
      have hwidth := width_take_pos hpos hle
      exact Span.tiles_concat (ht.tiles herrors)
        (Nat.lt_add_of_pos_right hwidth) rfl

theorem Reaches.told (h : Reaches config source s rest) : Told config source s := by
  induction h with
  | start => exact told_start config source
  | step h _ hstep ih => exact (steps_of_step hstep).told h.grounded ih

/-! ## §5 Whole scans -/

/-- **The tokens of a scan tile the source**, each as long as it can be. -/
theorem tiles_of_tokenize {out : Tokenized} (h : tokenize config source = .ok out) :
    Span.Tiles 0 (width source) (out.tokens.toList.map (·.span)) ∧
    ∀ earlier t later, out.tokens.toList = earlier ++ t :: later →
      ∃ rest, IsLongest config source (earlier.map Token.piece) t.kind t.span rest := by
  obtain ⟨last, hreaches, hfinish⟩ := exists_reaches_of_tokenize h
  obtain ⟨herrors, -, htokens⟩ := errors_eq_nil_of_finish hfinish
  have htold := hreaches.told
  obtain ⟨front, hsource, hoffset⟩ := hreaches.grounded.read
  rw [List.append_nil] at hsource
  rw [htokens]
  constructor
  · have htiles := htold.tiles herrors
    rw [hoffset, ← hsource, TokenList.pieces, List.map_map] at htiles
    exact htiles
  · intro earlier t later heq
    refine htold.longest (earlier.map Token.piece) t.piece (later.map Token.piece) ?_
    rw [TokenList.pieces, heq, List.map_append, List.map_cons]

/-- **Tokens tile the source by longest matches.** Every step of a scan moves on, to a place between two
characters. If the scan ends with tokens, they stand side by side from the start of the source to its
end, and each is the longest behind those before it. -/
theorem tokenize_tiles (config : LexerConfig) (source : Text) :
    (∀ s rest next n, Reaches config source s rest → rest ≠ [] →
      s.step config rest = .ok (next, n) →
      s.offset < next.offset ∧ ∃ front, source = front ++ rest.drop n ∧ next.offset = width front) ∧
    ∀ out, tokenize config source = .ok out →
      Span.Tiles 0 (width source) (out.tokens.toList.map (·.span)) ∧
      ∀ earlier t later, out.tokens.toList = earlier ++ t :: later →
        ∃ rest, IsLongest config source (earlier.map Token.piece) t.kind t.span rest := by
  constructor
  · intro s rest next n hreaches hrest hstep
    have hsteps := steps_of_step hstep
    obtain ⟨hpos, hle⟩ := hsteps.bounds hreaches.grounded
    refine ⟨?_, (hsteps.grounded hreaches.grounded).read⟩
    have hwidth := width_take_pos hpos hle
    rw [hsteps.offset_eq]
    omega
  · exact fun out hout => tiles_of_tokenize hout

/-- A string with a hole for a code point and a hole for a name of two bytes, and a real number behind
it. -/
theorem tokenize_tiles_of_string :
    let source : Text := ['"', '\\', 'u', '\x7b', '4', '1', '\x7d', '\x7b', 'λ', '\x7d', '"', '+', '1',
      'e', '2']
    (∃ next n, Scan.start.step default source = .ok (next, n) ∧ 0 < next.offset) ∧
    ∃ out, tokenize default source = .ok out ∧ out.tokens.size = 11 ∧
      Span.Tiles 0 16 (out.tokens.toList.map (·.span)) ∧
      ∀ earlier t later, out.tokens.toList = earlier ++ t :: later →
        ∃ rest, IsLongest default source (earlier.map Token.piece) t.kind t.span rest := by
  intro source
  have hstep : (Scan.start.step default source).toOption.isSome = true := by decide +kernel
  have hsize : (tokenize default source).toOption.map (·.tokens.size) = some 11 := by decide +kernel
  obtain ⟨⟨next, n⟩, hstep⟩ := exists_ok_of_isSome hstep
  obtain ⟨out, hout, hsize⟩ := Option.map_eq_some_iff.mp hsize
  have hout := toOption_eq_some_iff.mp hout
  obtain ⟨hmoves, htiles⟩ := tokenize_tiles default source
  exact ⟨⟨next, n, hstep, (hmoves _ _ _ _ .start (List.cons_ne_nil _ _) hstep).1⟩,
    out, hout, hsize, htiles out hout⟩

end Scan

end DewyFront
