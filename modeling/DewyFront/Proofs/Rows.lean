/-
# DewyFront.Proofs.Rows — lexemes side by side

The lexemes of a scan stand side by side, each has a text that a matcher of its kind takes, and every
exponent stands behind a number. All of this is said of a stretch, and holds of what is left when
lexemes are taken from its front: one by one, a pair with what it encloses, or a number with its
fraction and its exponent.

* §1 exponents;
* §2 rows;
* §3 lexemes taken from the front;
* §4 numbers;
* §5 whole scans.
-/
import DewyFront.Proofs.Spellings
import DewyFront.Proofs.Tiling

namespace DewyFront

/-! ## §1 Exponents -/

/-- Every exponent stands behind a number. `previous` is the kind in front. -/
def BehindNumbers : Option TokenKind → List Lexeme → Prop
  | _, [] => True
  | previous, l :: rest =>
    (l.kind = .exponent → previous = some .number) ∧ BehindNumbers (some l.kind) rest

section

variable {previous : Option TokenKind} {l : Lexeme} {xs ys ls : List Lexeme}

theorem behindNumbers_append_cons (h : BehindNumbers previous (xs ++ l :: ys)) :
    BehindNumbers previous xs ∧ BehindNumbers (some l.kind) ys := by
  induction xs generalizing previous with
  | nil => exact ⟨trivial, h.2⟩
  | cons x xs ih =>
    obtain ⟨hfront, hback⟩ := ih h.2
    exact ⟨⟨h.1, hfront⟩, hback⟩

/-- Where no exponent stands first, nothing need stand in front. -/
theorem BehindNumbers.forget (h : BehindNumbers previous ls)
    (hhead : ∀ l, ls.head? = some l → l.kind ≠ .exponent) : BehindNumbers none ls := by
  cases ls with
  | nil => trivial
  | cons l ls => exact ⟨fun hkind => absurd hkind (hhead l rfl), h.2⟩

theorem behindNumbers_of_forall (h : ∀ xs l ys, ls = xs ++ l :: ys → l.kind = .exponent →
    (xs.getLast?.map (·.kind)).or previous = some .number) : BehindNumbers previous ls := by
  induction ls generalizing previous with
  | nil => trivial
  | cons x ls ih =>
    refine ⟨h [] x ls rfl, ih fun xs l ys heq hkind => ?_⟩
    have hlast := h (x :: xs) l ys (congrArg (x :: ·) heq) hkind
    rw [List.getLast?_cons] at hlast
    cases hxs : xs.getLast? with
    | none =>
      rw [hxs] at hlast
      exact hlast
    | some y =>
      rw [hxs] at hlast
      exact hlast

end

/-! ## §2 Rows -/

theorem Span.merge_eq {s t : Span} (hstart : s.start ≤ t.start) (hstop : s.stop ≤ t.stop) :
    s.merge t = ⟨s.start, t.stop⟩ := by
  rw [merge, Nat.min_eq_left hstart, Nat.max_eq_right hstop]

theorem Span.Tiles.le {start stop : Nat} {spans : List Span} (h : Tiles start stop spans) :
    start ≤ stop := by
  induction spans generalizing start with
  | nil => exact Nat.le_of_eq h
  | cons s spans ih =>
    obtain ⟨-, hlt, hrest⟩ := h
    exact Nat.le_trans (Nat.le_of_lt hlt) (ih hrest)

/-- The last of several spans ends where they end. -/
theorem Span.Tiles.stop_eq {start stop : Nat} {spans : List Span} {s : Span}
    (h : Tiles start stop spans) (hlast : spans.getLast? = some s) : s.stop = stop := by
  obtain ⟨front, rfl⟩ := List.getLast?_eq_some_iff.mp hlast
  obtain ⟨_, -, hs⟩ := tiles_append.mp h
  exact hs.2.2

/-- **`Row`** — lexemes side by side, as a scan leaves them. -/
structure Row (previous : Option TokenKind) (start stop : Nat) (ls : List Lexeme) : Prop where
  tiles : Span.Tiles start stop (ls.map (·.span))
  matched : ∀ l ∈ ls, l.Matched
  exponents : BehindNumbers previous ls

namespace Row

variable {previous : Option TokenKind} {start stop : Nat} {l opener closer : Lexeme}
  {inner rest xs ys ls : List Lexeme} {source : Text}

/-- **Behind a lexeme the row goes on.** -/
theorem of_cons (h : Row previous start stop (l :: rest)) :
    l.span = ⟨start, l.span.stop⟩ ∧ start < l.span.stop ∧ l.Matched ∧
      Row (some l.kind) l.span.stop stop rest := by
  obtain ⟨⟨hstart, hlt, htiles⟩, hmatched, -, hexponents⟩ := h
  refine ⟨?_, hlt, hmatched l List.mem_cons_self, htiles,
    fun x hx => hmatched x (List.mem_cons_of_mem _ hx), hexponents⟩
  rw [← hstart]

theorem forget (h : Row previous start stop ls)
    (hhead : ∀ l, ls.head? = some l → l.kind ≠ .exponent) : Row none start stop ls :=
  ⟨h.tiles, h.matched, h.exponents.forget hhead⟩

/-- Behind anything but a number stands no exponent. -/
theorem forget_of_ne (h : Row previous start stop ls) (hprevious : previous ≠ some .number) :
    Row none start stop ls := by
  refine h.forget fun l hl hkind => hprevious ?_
  cases ls with
  | nil => cases hl
  | cons x ls =>
    cases hl
    exact h.exponents.1 hkind

/-- **Both what a pair encloses and what stands behind it is a row.** -/
theorem of_pair (h : Row previous start stop (opener :: (inner ++ closer :: rest)))
    (hencloses : opener.token.Encloses source closer.token) :
    opener.Matched ∧ closer.Matched ∧ start < closer.span.stop ∧
      opener.span.merge closer.span = ⟨start, closer.span.stop⟩ ∧
      Span.Tiles start closer.span.stop ((opener :: (inner ++ [closer])).map (·.span)) ∧
      Row none opener.span.stop closer.span.start inner ∧ Row none closer.span.stop stop rest := by
  obtain ⟨hopener, hlt, hmatched, htiles, hrest, hexponents⟩ := h.of_cons
  rw [List.map_append, List.map_cons] at htiles
  obtain ⟨middle, hinner, hstart, hcloses, hback⟩ := Span.tiles_append.mp htiles
  subst hstart
  obtain ⟨hfront, hbehind⟩ := behindNumbers_append_cons hexponents
  have hle := hinner.le
  have hopens : opener.kind ≠ .number := by
    intro hkind
    have hopens := hencloses.isOpener
    rw [show opener.token.kind = .number from hkind] at hopens
    cases hopens
  have hcloses' : closer.kind ≠ .number := by
    intro hkind
    have hcloses := hencloses.isCloser
    rw [show closer.token.kind = .number from hkind] at hcloses
    cases hcloses
  have hstart : opener.span.start = start := h.tiles.1
  have hmerge : opener.span.merge closer.span = ⟨start, closer.span.stop⟩ := by
    rw [Span.merge_eq (by omega) (by omega), hstart]
  refine ⟨hmatched, hrest closer (by simp), by omega, hmerge, ?_, ?_, ?_⟩
  · rw [List.map_cons, List.map_append, hopener]
    exact ⟨rfl, hlt, Span.tiles_append.mpr ⟨_, hinner, rfl, hcloses, rfl⟩⟩
  · have hrow : Row (some opener.kind) opener.span.stop closer.span.start inner :=
      ⟨hinner, fun x hx => hrest x (List.mem_append_left _ hx), hfront⟩
    exact hrow.forget_of_ne fun heq => hopens (Option.some.inj heq)
  · have hrow : Row (some closer.kind) closer.span.stop stop rest :=
      ⟨hback, fun x hx => hrest x (List.mem_append_right _ (List.mem_cons_of_mem _ hx)), hbehind⟩
    exact hrow.forget_of_ne fun heq => hcloses' (Option.some.inj heq)

/-- A lexeme and the last one behind it span the row. -/
theorem merge_last (h : Row previous start stop (l :: rest)) : start < stop ∧
    l.span.merge (rest.getLast?.elim l.span (·.span)) = ⟨start, stop⟩ := by
  obtain ⟨-, hlt, -, hrest⟩ := h.of_cons
  have hstart : l.span.start = start := h.tiles.1
  have hle := hrest.tiles.le
  refine ⟨Nat.lt_of_lt_of_le hlt hle, ?_⟩
  cases hlast : rest.getLast? with
  | none =>
    rw [List.getLast?_eq_none_iff] at hlast
    subst hlast
    have hstop : l.span.stop = stop := hrest.tiles
    rw [Option.elim_none, Span.merge_eq (Nat.le_refl _) (Nat.le_refl _), hstart, hstop]
  | some x =>
    have hstop : x.span.stop = stop := hrest.tiles.stop_eq (by rw [List.getLast?_map, hlast]; rfl)
    obtain ⟨front, rfl⟩ := List.getLast?_eq_some_iff.mp hlast
    have htiles := hrest.tiles
    rw [List.map_append] at htiles
    obtain ⟨middle, hfront, hx, -⟩ := Span.tiles_append.mp htiles
    have hbelow := hfront.le
    have hx : x.span.start = middle := hx
    rw [Option.elim_some, Span.merge_eq (by omega) (by omega), hstart, hstop]

end Row

/-! ## §3 Cuts -/

/-- **`Cut`** — a front of some lexemes in which no block begins, and the row and the body behind it. -/
structure Cut (source : Text) (ended : Bool) (context : ContextKind) (previous : Option TokenKind)
    (start middle stop : Nat) (ls front back : List Lexeme) : Prop where
  eq : ls = front ++ back
  lt : start < middle
  tiles : Span.Tiles start middle (front.map (·.span))
  flat : ∀ l ∈ front, l.kind.opensBlock = false
  row : Row previous middle stop back
  body : Body source ended context back

theorem TokenKind.opensBlock_eq_false_of_isOpener {kind : TokenKind} (h : kind.isOpener = false) :
    kind.opensBlock = false := by
  cases kind <;> first | rfl | cases h

namespace Cut

variable {source : Text} {ended : Bool} {context : ContextKind} {previous : Option TokenKind}
  {start middle stop : Nat} {ls front back : List Lexeme} {l : Lexeme}

/-- One lexeme is a front. -/
theorem single (hrow : Row previous start stop (l :: back))
    (hbody : Body source ended context (l :: back)) (hopener : l.kind.isOpener = false) :
    Cut source ended context (some l.kind) start l.span.stop stop (l :: back) [l] back := by
  obtain ⟨hspan, hlt, -, hrest⟩ := hrow.of_cons
  refine ⟨rfl, hlt, ?_, ?_, hrest, hbody.of_cons hopener⟩
  · rw [List.map_singleton, hspan]
    exact ⟨rfl, hlt, rfl⟩
  · rw [List.forall_mem_singleton]
    exact TokenKind.opensBlock_eq_false_of_isOpener hopener

/-- **A front goes on with one more lexeme.** -/
theorem snoc (h : Cut source ended context previous start middle stop ls front (l :: back))
    (hopener : l.kind.isOpener = false) :
    Cut source ended context (some l.kind) start l.span.stop stop ls (front ++ [l]) back ∧
      Span.merge ⟨start, middle⟩ l.span = ⟨start, l.span.stop⟩ ∧ middle < l.span.stop := by
  obtain ⟨hspan, hlt, -, hrest⟩ := h.row.of_cons
  have hle := h.tiles.le
  refine ⟨⟨?_, Nat.lt_of_le_of_lt hle hlt, ?_, ?_, hrest, h.body.of_cons hopener⟩, ?_, hlt⟩
  · rw [h.eq, List.append_assoc]
    rfl
  · rw [List.map_append]
    refine Span.tiles_append.mpr ⟨middle, h.tiles, ?_⟩
    rw [List.map_singleton, hspan]
    exact ⟨rfl, hlt, rfl⟩
  · rw [List.forall_mem_append, List.forall_mem_singleton]
    exact ⟨h.flat, TokenKind.opensBlock_eq_false_of_isOpener hopener⟩
  · have hstart : l.span.start = middle := h.row.tiles.1
    exact Span.merge_eq (hstart ▸ hle) (Nat.le_of_lt hlt)

/-- Where no exponent stands behind a front, nothing need be known of its last lexeme. -/
theorem forget (h : Cut source ended context previous start middle stop ls front back)
    (hhead : ∀ l, back.head? = some l → l.kind ≠ .exponent) :
    Cut source ended context none start middle stop ls front back :=
  { h with row := h.row.forget hhead }

theorem forget_of_ne (h : Cut source ended context previous start middle stop ls front back)
    (hprevious : previous ≠ some .number) :
    Cut source ended context none start middle stop ls front back :=
  { h with row := h.row.forget_of_ne hprevious }

end Cut

/-! ## §4 Numbers -/

namespace Tree

variable {source : Text} {ended : Bool} {context : ContextKind} {previous : Option TokenKind}
  {start middle stop : Nat} {ls front rest : List Lexeme} {l : Lexeme}

/-- **A fraction makes a longer front**: a dot and a number. -/
theorem cut_fraction (before : Option Lexeme) (hrow : Row previous start stop (l :: rest))
    (hbody : Body source ended context (l :: rest)) (hkind : l.kind = .number) :
    (fraction? before l rest = none ∧
      Cut source ended context (some .number) start l.span.stop stop (l :: rest) [l] rest) ∨
    ∃ digits, ∃ number : Lexeme, ∃ front back,
      fraction? before l rest = some (digits, number.span, back) ∧
      l.span.merge number.span = ⟨start, number.span.stop⟩ ∧
      Cut source ended context (some .number) start number.span.stop stop (l :: rest) front back := by
  have hsingle := Cut.single hrow hbody (by rw [hkind]; rfl)
  rw [hkind] at hsingle
  cases hfound : fraction? before l rest with
  | none => exact .inl ⟨rfl, hsingle⟩
  | some found =>
    right
    unfold fraction? at hfound
    split at hfound
    · next dot number back =>
      split at hfound
      · next hcond =>
        cases hfound
        simp only [Bool.and_eq_true, Lexeme.isDot, beq_iff_eq] at hcond
        obtain ⟨⟨⟨⟨-, hdot, -⟩, hnumber⟩, -⟩, -⟩ := hcond
        obtain ⟨hcut, -, hlt⟩ := hsingle.snoc (by rw [hdot]; rfl)
        obtain ⟨hcut', -, hlt'⟩ := hcut.snoc (by rw [hnumber]; rfl)
        rw [hnumber] at hcut'
        refine ⟨_, number, _, back, rfl, ?_, hcut'⟩
        have hstart : l.span.start = start := hrow.tiles.1
        have hnext : number.span.start = dot.span.stop := hcut.row.tiles.1
        have hle := hcut.tiles.le
        rw [Span.merge_eq (by omega) (by omega), hstart]
      · cases hfound
    · cases hfound

/-- **An exponent makes a longer front.** Behind it, or where there is none, no exponent stands. -/
theorem cut_exponent (base : Radix)
    (h : Cut source ended context (some .number) start middle stop ls front rest) :
    (exponent? base rest = none ∧ Cut source ended context none start middle stop ls front rest) ∨
    ∃ exponent, ∃ marker : Lexeme, ∃ front back,
      exponent? base rest = some (exponent, marker.span, back) ∧
      Span.merge ⟨start, middle⟩ marker.span = ⟨start, marker.span.stop⟩ ∧
      Cut source ended context none start marker.span.stop stop ls front back := by
  cases hfound : exponent? base rest with
  | none =>
    refine .inl ⟨rfl, h.forget fun x hx hkind => ?_⟩
    cases rest with
    | nil => cases hx
    | cons y rest =>
      cases hx
      rw [exponent?, if_pos (by rw [hkind]; rfl)] at hfound
      cases hfound
  | some found =>
    right
    unfold exponent? at hfound
    split at hfound
    · next marker back =>
      split at hfound
      · next hkind =>
        cases hfound
        have hkind : marker.kind = .exponent := eq_of_beq hkind
        obtain ⟨hcut, hmerge, -⟩ := h.snoc (by rw [hkind]; rfl)
        rw [hkind] at hcut
        exact ⟨_, marker, _, back, rfl, hmerge, hcut.forget_of_ne fun heq => by cases heq⟩
      · cases hfound
    · cases hfound

/-- **The lexemes of a number are a front**, and no exponent is left behind it. -/
theorem exists_cut_number (base : Radix) (before : Option Lexeme)
    (hrow : Row previous start stop (l :: rest)) (hbody : Body source ended context (l :: rest))
    (hkind : l.kind = .number) :
    ∃ middle front back, (∃ leaf, number base before l rest = (.leaf leaf ⟨start, middle⟩, back)) ∧
      Cut source ended context none start middle stop (l :: rest) front back := by
  obtain ⟨hspan, -⟩ := hrow.of_cons
  -- A number may go on with a fraction, and either may go on with an exponent.
  rcases cut_fraction before hrow hbody hkind with
    ⟨hnone, hcut⟩ | ⟨digits, x, front, back, hsome, hmerge, hcut⟩
  · rcases cut_exponent base hcut with
      ⟨hnone', hcut'⟩ | ⟨exponent, marker, front', back', hsome', hmerge', hcut'⟩
    · refine ⟨_, _, _, ?_, hcut'⟩
      rw [number, hnone]
      dsimp only
      rw [hnone', ← hspan]
      exact ⟨_, rfl⟩
    · refine ⟨_, _, _, ?_, hcut'⟩
      rw [← hspan] at hmerge'
      rw [number, hnone]
      dsimp only
      rw [hsome']
      dsimp only
      rw [hmerge']
      exact ⟨_, rfl⟩
  · rcases cut_exponent base hcut with
      ⟨hnone', hcut'⟩ | ⟨exponent, marker, front', back', hsome', hmerge', hcut'⟩
    · refine ⟨_, _, _, ?_, hcut'⟩
      rw [number, hsome]
      dsimp only
      rw [hnone', hmerge]
      exact ⟨_, rfl⟩
    · refine ⟨_, _, _, ?_, hcut'⟩
      rw [number, hsome]
      dsimp only
      rw [hsome']
      dsimp only
      rw [hmerge, hmerge']
      exact ⟨_, rfl⟩

end Tree

/-! ## §5 Whole scans -/

namespace TokenList

variable {l : TokenList} {source : Text} {x : Lexeme}

theorem map_token_lexemes (l : TokenList) (source : Text) :
    (l.lexemes source).map Lexeme.token = l.toList := by
  apply List.ext_getElem?
  intro i
  rw [List.getElem?_map, getElem?_lexemes, getElem?_toList, Option.map_map]
  exact Option.map_id'

theorem text_of_mem_lexemes (h : x ∈ l.lexemes source) : x.text = x.span.slice source := by
  obtain ⟨i, hi⟩ := List.getElem?_of_mem h
  rw [getElem?_lexemes] at hi
  obtain ⟨t, -, rfl⟩ := Option.map_eq_some_iff.mp hi
  rfl

end TokenList

section

variable {config : LexerConfig} {source rest : Text} {earlier : List (TokenKind × Span)}
  {kind : TokenKind} {span : Span}

/-- A matcher takes the text of a token. -/
theorem IsLongest.exists_taken (h : IsLongest config source earlier kind span rest)
    (hspan : span.start ≤ span.stop) : ∃ n,
      (viewBehind config source earlier span.start rest).matchKind kind = .ok (some n) ∧
      span.slice source = rest.take n := by
  obtain ⟨n, hmatch, hwidth⟩ := h.taken
  obtain ⟨front, hsource, hfront⟩ := h.stands
  refine ⟨n, hmatch, ?_⟩
  have hslice := slice_width front (rest.take n) (rest.drop n)
  have hstop : span.start + span.size = span.stop := by
    rw [Span.size]
    omega
  rw [List.take_append_drop, ← hsource, hfront, hwidth, hstop] at hslice
  exact hslice

/-- An exponent stands behind a number. -/
theorem IsLongest.previous_of_exponent (h : IsLongest config source earlier .exponent span rest) :
    earlier.getLast?.map Prod.fst = some .number := by
  obtain ⟨n, hmatch, -⟩ := h.taken
  exact (View.exists_of_exponent hmatch).1

/-- **The lexemes of a scan are a row.** -/
theorem Scan.row_of_tokenize {out : Tokenized} (h : tokenize config source = .ok out) :
    Row none 0 (width source) (out.tokens.lexemes source) := by
  obtain ⟨htiles, hlongest⟩ := tiles_of_tokenize h
  have hspans : (out.tokens.lexemes source).map (·.span) = out.tokens.toList.map (·.span) := by
    rw [← TokenList.map_token_lexemes out.tokens source, List.map_map]
    rfl
  have hdecompose : ∀ xs l ys, out.tokens.lexemes source = xs ++ l :: ys →
      ∃ rest, IsLongest config source (xs.map (·.token.piece)) l.kind l.span rest := by
    intro xs l ys heq
    have htokens := TokenList.map_token_lexemes out.tokens source
    rw [heq, List.map_append, List.map_cons] at htokens
    have hrest := hlongest (xs.map Lexeme.token) l.token (ys.map Lexeme.token) htokens.symm
    rw [List.map_map] at hrest
    exact hrest
  refine ⟨hspans ▸ htiles, fun l hl => ?_, behindNumbers_of_forall fun xs l ys heq hkind => ?_⟩
  · obtain ⟨xs, ys, heq⟩ := List.append_of_mem hl
    obtain ⟨rest, hrest⟩ := hdecompose xs l ys heq
    have hle : l.span.start ≤ l.span.stop := by
      rw [← hspans, heq, List.map_append] at htiles
      obtain ⟨middle, -, hstart, hlt, -⟩ := Span.tiles_append.mp htiles
      have hstart : l.span.start = middle := hstart
      have hlt : middle < l.span.stop := hlt
      omega
    obtain ⟨n, hmatch, hslice⟩ := hrest.exists_taken hle
    exact ⟨_, n, hmatch, (TokenList.text_of_mem_lexemes hl).trans hslice⟩
  · obtain ⟨rest, hrest⟩ := hdecompose xs l ys heq
    rw [hkind] at hrest
    have hlast := hrest.previous_of_exponent
    rw [List.getLast?_map, Option.map_map] at hlast
    rw [Option.or_none]
    exact hlast

end

end DewyFront
