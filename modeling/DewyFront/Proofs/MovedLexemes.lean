/-
# DewyFront.Proofs.MovedLexemes — the items of lexemes that stand elsewhere

Lexemes that stand elsewhere, in the same order, make the same items there, or are refused for the same
escape: what an opener encloses is told by the distance to its partner, and which lexemes touch by their
spans. What layout and comments are made of is looked at nowhere, and what stands in front matters to a
number only, if it is a dot.

* §1 lexemes;
* §2 items of one lexeme;
* §3 numbers;
* §4 strings;
* §5 all items;
* §6 what stands in front.
-/
import DewyFront.Proofs.Covering
import DewyFront.Proofs.Moves

namespace DewyFront

/-- **`Relocation`** — how lexemes come to stand elsewhere: some places later, with spans moved by a map
that keeps the order of offsets, and with other texts of layout and comments, which are no more closing
delimiters than they were. -/
structure Relocation where
  offset : Nat → Nat
  places : Nat
  layout : Text → Text
  strictMono : StrictMono offset
  closes : ∀ a t, Delimiters.ofPair? a ((layout t).headD ']') = Delimiters.ofPair? a (t.headD ']')

variable (r : Relocation)

/-! ## §1 Lexemes -/

/-- **`Lexeme.move`** — a lexeme where it comes to stand. -/
def Lexeme.move (l : Lexeme) : Lexeme :=
  ⟨l.place + r.places, l.kind, l.span.move r.offset, l.partner.map (· + r.places),
    if l.kind.isTrivia then r.layout l.text else l.text⟩

/-- What an opener encloses, elsewhere. -/
def Enclosed.move (e : Enclosed) : Enclosed :=
  ⟨e.inner.map (Lexeme.move r), e.closer.move r, e.after.map (Lexeme.move r)⟩

namespace Lexeme

@[simp] theorem kind_move (l : Lexeme) : (l.move r).kind = l.kind := rfl

@[simp] theorem span_move (l : Lexeme) : (l.move r).span = l.span.move r.offset := rfl

/-- A token has its text wherever it stands. -/
theorem text_move {l : Lexeme} (h : l.kind.isTrivia = false) : (l.move r).text = l.text := by
  rw [move, h]
  rfl

theorem text_move_of_kind {l : Lexeme} {kind : TokenKind} (hkind : l.kind = kind)
    (h : kind.isTrivia = false) : (l.move r).text = l.text :=
  text_move r (hkind ▸ h)

@[simp] theorem isDot_move (l : Lexeme) : (l.move r).isDot = l.isDot := by
  unfold isDot
  by_cases hkind : l.kind = .symbol
  · rw [kind_move, text_move_of_kind r hkind rfl]
  · have hsymbol : (l.kind == .symbol) = false := beq_eq_false_iff_ne.mpr hkind
    rw [kind_move, hsymbol, Bool.false_and, Bool.false_and]

@[simp] theorem touches_move (l m : Lexeme) : (l.move r).touches (m.move r) = l.touches m :=
  Span.touches_move r.strictMono l.span m.span

/-- An opener encloses the same lexemes. -/
theorem enclosed?_move (l : Lexeme) (rest : List Lexeme) :
    (l.move r).enclosed? (rest.map (move r)) = (l.enclosed? rest).map (Enclosed.move r) := by
  unfold enclosed?
  cases hpartner : l.partner with
  | none => simp [move, hpartner]
  | some partner =>
    -- The partner is found by the distance to it.
    have hdistance : partner + r.places - (l.place + r.places) = partner - l.place :=
      Nat.add_sub_add_right _ _ _
    have hcloser : (l.move r :: rest.map (move r))[partner - l.place]? =
        ((l :: rest)[partner - l.place]?).map (move r) := by
      rw [← List.map_cons, List.getElem?_map]
    have hmove : (l.move r).partner = some (partner + r.places) := by rw [move, hpartner]; rfl
    rw [hmove]
    show ((l.move r :: rest.map (move r))[partner + r.places - (l.place + r.places)]?.bind
      fun closer => some (Enclosed.mk
        ((rest.map (move r)).take (partner + r.places - (l.place + r.places) - 1)) closer
        ((rest.map (move r)).drop (partner + r.places - (l.place + r.places))))) = _
    rw [hdistance, hcloser]
    show _ = Option.map (Enclosed.move r) ((l :: rest)[partner - l.place]?.bind fun closer =>
      some (Enclosed.mk (rest.take (partner - l.place - 1)) closer (rest.drop (partner - l.place))))
    cases (l :: rest)[partner - l.place]? with
    | none => rfl
    | some closer => simp [Enclosed.move]

end Lexeme

/-- **`ToldAlike`** — two outcomes of a stage: results that `h` carries over, or refusals under the same
code. -/
abbrev ToldAlike {α β : Type} (h : α → β) (x : Except (Failure LexError) α)
    (y : Except (Failure LexError) β) : Prop :=
  Related (Failure.Both LexError.SameCode) (fun a b => b = h a) x y

theorem toldAlike_fault {α β : Type} {h : α → β} (f : Fault) :
    ToldAlike h (fault f) (fault f) :=
  .error (.broken f)

theorem toldAlike_refl {α : Type} (x : Except (Failure LexError) α) : ToldAlike id x x := by
  cases x with
  | ok a => exact .ok rfl
  | error failure =>
    cases failure with
    | refused cause => exact .error (.refused rfl)
    | broken f => exact toldAlike_fault f

namespace Tree

variable {l : Lexeme} {rest : List Lexeme}

/-! ## §2 Items of one lexeme -/

theorem ofWord_move (h : l.kind.isTrivia = false) : ofWord (l.move r) = (ofWord l).move r.offset := by
  unfold ofWord
  rw [Lexeme.text_move r h]
  split <;> rw [move, Lexeme.span_move]

theorem ofMarks_move (h : l.kind.isTrivia = false) :
    ToldAlike (move r.offset) (ofMarks l) (ofMarks (l.move r)) := by
  unfold ofMarks
  rw [Lexeme.text_move r h]
  split
  · exact .ok (by rw [move, Lexeme.span_move])
  · exact toldAlike_fault _

/-- The item that is made of a lexeme by itself. -/
def plainItem (l : Lexeme) : Except (Failure LexError) Tree :=
  match l.kind with
  | .name => .ok (ofWord l)
  | .symbol | .shift => ofMarks l
  | .hashtag => .ok (.leaf (.atom (.hashtag (l.text.drop 1))) l.span)
  | _ => .ok (.leaf .trivia l.span)

theorem plainItem_move (l : Lexeme) :
    ToldAlike (move r.offset) (plainItem l) (plainItem (l.move r)) := by
  unfold plainItem
  rw [Lexeme.kind_move]
  split
  · next hkind => exact .ok (ofWord_move r (hkind ▸ rfl))
  · next hkind => exact ofMarks_move r (hkind ▸ rfl)
  · next hkind => exact ofMarks_move r (hkind ▸ rfl)
  · next hkind =>
    rw [Lexeme.text_move_of_kind r hkind rfl]
    exact .ok (by rw [move, Lexeme.span_move])
  · exact .ok (by rw [move, Lexeme.span_move])

theorem ofLexemes_plainItem (base : Radix) (before : Option Lexeme) (rest : List Lexeme)
    (hkind : l.kind ∈ [.blank, .lineComment, .blockComment, .name, .symbol, .shift, .hashtag]) :
    ofLexemes base before (l :: rest) =
      (do let item ← plainItem l; return item :: (← ofLexemes base (some l) rest)) := by
  simp only [List.mem_cons, List.not_mem_nil, or_false] at hkind
  rw [ofLexemes, plainItem]
  rcases hkind with hkind | hkind | hkind | hkind | hkind | hkind | hkind <;> simp only [hkind] <;> rfl

/-! ## §3 Numbers -/

theorem fraction?_move (before : Option Lexeme) (l : Lexeme) (rest : List Lexeme) :
    fraction? (before.map (Lexeme.move r)) (l.move r) (rest.map (Lexeme.move r)) =
      (fraction? before l rest).map fun (digits, span, more) =>
        (digits, span.move r.offset, more.map (Lexeme.move r)) := by
  have hbefore : (before.map (Lexeme.move r)).any (fun p => p.touches (l.move r) && p.isDot) =
      before.any fun p => p.touches l && p.isDot := by
    cases before with
    | none => rfl
    | some p =>
      rw [Option.map_some, Option.any_some, Option.any_some, Lexeme.touches_move, Lexeme.isDot_move]
  rcases rest with _ | ⟨dot, _ | ⟨digits, rest⟩⟩
  · rfl
  · rfl
  · rw [List.map_cons, List.map_cons, fraction?, fraction?, hbefore, Lexeme.isDot_move,
      Lexeme.kind_move, Lexeme.touches_move, Lexeme.touches_move]
    split
    · next hdigits =>
      simp only [Bool.and_eq_true] at hdigits
      rw [Lexeme.text_move_of_kind r (eq_of_beq hdigits.1.1.2) rfl]
      rfl
    · rfl

theorem exponent?_move (base : Radix) (rest : List Lexeme) :
    exponent? base (rest.map (Lexeme.move r)) =
      (exponent? base rest).map fun (exponent, span, more) =>
        (exponent, span.move r.offset, more.map (Lexeme.move r)) := by
  cases rest with
  | nil => rfl
  | cons l rest =>
    rw [List.map_cons, exponent?, exponent?, Lexeme.kind_move]
    split
    · next hkind =>
      rw [Lexeme.text_move_of_kind r (eq_of_beq hkind) rfl]
      rfl
    · rfl

theorem number_move (base : Radix) (before : Option Lexeme) (hkind : l.kind = .number)
    (rest : List Lexeme) :
    number base (before.map (Lexeme.move r)) (l.move r) (rest.map (Lexeme.move r)) =
      Prod.map (move r.offset) (List.map (Lexeme.move r)) (number base before l rest) := by
  unfold number
  rw [fraction?_move, Lexeme.text_move_of_kind r hkind rfl]
  -- With or without a fraction, with or without an exponent.
  rcases fraction? before l rest with _ | ⟨digits, span, more⟩
  · dsimp only [Option.map_none]
    rw [exponent?_move]
    rcases exponent? base rest with _ | ⟨e, span, more⟩
    · simp [move]
    · simp [move, Span.move_merge r.strictMono]
  · dsimp only [Option.map_some]
    rw [exponent?_move]
    rcases exponent? base more with _ | ⟨e, span', more'⟩
    · simp [move, Span.move_merge r.strictMono]
    · simp [move, Span.move_merge r.strictMono]

/-! ## §4 Strings -/

theorem codePoint_move (hkind : l.kind = .stringEscape) :
    ToldAlike id (codePoint l) (codePoint (l.move r)) := by
  unfold codePoint
  rw [Lexeme.text_move_of_kind r hkind rfl]
  cases dropBytes 2 l.text with
  | none => exact toldAlike_fault _
  | some digits =>
    dsimp only
    cases (hexValue? digits).bind scalar? with
    | none => exact .error (.refused rfl)
    | some d => exact .ok rfl

theorem escapeText_move (hkind : l.kind = .stringEscape) :
    ToldAlike id (escapeText l) (escapeText (l.move r)) := by
  unfold escapeText
  rw [Lexeme.text_move_of_kind r hkind rfl]
  split
  · exact .ok rfl
  · exact .ok rfl
  · split
    · refine (codePoint_move r hkind).bind fun c d hd => .ok ?_
      rw [hd]
      rfl
    · exact .ok rfl

theorem movePieces_append (f : Nat → Nat) (xs ys : List Piece) :
    movePieces f (xs ++ ys) = movePieces f xs ++ movePieces f ys := by
  induction xs with
  | nil => rw [movePieces, List.nil_append, List.nil_append]
  | cons x xs ih =>
    rw [List.cons_append]
    cases x <;> rw [movePieces, movePieces, ih, List.cons_append]

theorem movePieces_textPiece (f : Nat → Nat) (t : Text) : movePieces f (textPiece t) = textPiece t := by
  unfold textPiece
  split
  · rw [movePieces]
  · rw [movePieces, movePieces]

theorem joinTexts_movePieces (f : Nat → Nat) (pieces : List Piece) :
    joinTexts (movePieces f pieces) = Prod.map id (movePieces f) (joinTexts pieces) := by
  induction pieces with
  | nil => simp [movePieces, joinTexts]
  | cons piece pieces ih =>
    cases piece with
    | text t => simp [movePieces, joinTexts, ih]
    | block kind base inner | escape kind base inner =>
      simp [movePieces, joinTexts, ih, movePieces_append, movePieces_textPiece]

theorem ofPieces_movePieces (f : Nat → Nat) (pieces : List Piece) (span : Span) :
    ofPieces (movePieces f pieces) (span.move f) = (ofPieces pieces span).move f := by
  unfold ofPieces
  rw [joinTexts_movePieces]
  rcases joinTexts pieces with ⟨lead, _ | ⟨hole, holes⟩⟩
  · simp [movePieces, move]
  · cases hole <;> simp [movePieces, move, movePieces_append, movePieces_textPiece]

/-- A string encloses the same lexemes. -/
theorem stringBody_move (l : Lexeme) (rest : List Lexeme) :
    stringBody (l.move r) (rest.map (Lexeme.move r)) =
      ⟨(stringBody l rest).inner.map (Lexeme.move r), (stringBody l rest).span.move r.offset,
        (stringBody l rest).closer.map (Lexeme.move r),
        (stringBody l rest).after.map (Lexeme.move r)⟩ := by
  unfold stringBody
  rw [Lexeme.enclosed?_move]
  cases l.enclosed? rest with
  | some e => simp [Enclosed.move, Span.move_merge r.strictMono]
  | none =>
    dsimp only [Option.map_none]
    rw [List.getLast?_map]
    cases rest.getLast? with
    | none => simp [Span.move_merge r.strictMono]
    | some last => simp [Span.move_merge r.strictMono]

theorem ofBasedString_move (hkind : l.kind = .basedStringOpener) (e : Enclosed) :
    ofBasedString (l.move r) (e.move r) = (ofBasedString l e).move r.offset := by
  have hdigits : ((e.move r).inner.filter (·.kind == .basedStringText)).flatMap (·.text) =
      (e.inner.filter (·.kind == .basedStringText)).flatMap (·.text) := by
    rw [Enclosed.move, List.filter_map, List.flatMap_map]
    refine List.flatMap_congr fun m hm => ?_
    exact Lexeme.text_move_of_kind r (eq_of_beq (List.mem_filter.mp hm).2) rfl
  unfold ofBasedString
  rw [hdigits, Lexeme.text_move_of_kind r hkind rfl, move, Span.move_merge r.strictMono]
  rfl

/-! ## §5 All items -/

theorem blockKind_move (hkind : l.kind.isTrivia = false) (closer : Lexeme) :
    blockKind (l.move r) (closer.move r) = blockKind l closer := by
  have hcloses : ∀ a, Delimiters.ofPair? a ((closer.move r).text.headD ']') =
      Delimiters.ofPair? a (closer.text.headD ']') := by
    intro a
    rw [Lexeme.move]
    dsimp only
    split
    · exact r.closes a closer.text
    · rfl
  unfold blockKind
  rw [Lexeme.text_move r hkind, hcloses]

theorem blockBase?_move (hkind : l.kind.isTrivia = false) : blockBase? (l.move r) = blockBase? l := by
  unfold blockBase?
  rw [Lexeme.kind_move, Lexeme.text_move r hkind]

variable {base : Radix} {before : Option Lexeme} {n : Nat}

/-- At most so many lexemes make the same items elsewhere. -/
def ItemsMove (n : Nat) : Prop :=
  ∀ (base : Radix) (before : Option Lexeme) {ls : List Lexeme}, ls.length ≤ n →
    ToldAlike (List.map (move r.offset)) (ofLexemes base before ls)
      (ofLexemes base (before.map (Lexeme.move r)) (ls.map (Lexeme.move r)))

/-- At most so many lexemes of a string make the same pieces elsewhere. -/
def PiecesMove (n : Nat) : Prop :=
  ∀ {ls : List Lexeme}, ls.length ≤ n →
    ToldAlike (movePieces r.offset) (piecesOf ls) (piecesOf (ls.map (Lexeme.move r)))

/-- An opener without a partner makes no item. -/
theorem ofLexemes_unpaired (hkind : l.kind.opensBlock = true ∨ l.kind = .basedStringOpener)
    (hhole : l.kind ≠ .holeEscape) (he : l.enclosed? rest = none) :
    ofLexemes base before (l :: rest) = fault .unpairedOpener := by
  rw [ofLexemes]
  cases hk : l.kind <;> rw [hk] at hkind hhole
  case leftBracket | leftParen | leftBrace | leftAngle | basedBlockOpener | basedStringOpener =>
    dsimp only
    split
    · rfl
    · next found hfound =>
      rw [he] at hfound
      cases hfound
  case holeEscape => exact absurd rfl hhole
  all_goals rcases hkind with hkind | hkind <;> cases hkind

theorem piecesOf_unpaired (hkind : l.kind = .leftBrace ∨ l.kind = .holeEscape)
    (he : l.enclosed? rest = none) : piecesOf (l :: rest) = fault .unpairedOpener := by
  rw [piecesOf]
  rcases hkind with hkind | hkind <;> simp only [hkind]
  all_goals
    split
    · rfl
    · next found hfound =>
      rw [he] at hfound
      cases hfound

/-- An item in front of others. -/
theorem cons_move {f : Nat → Nat} (item : Tree) {x y : Except (Failure LexError) (List Tree)}
    (h : ToldAlike (List.map (move f)) x y) :
    ToldAlike (List.map (move f)) (do return item :: (← x)) (do return item.move f :: (← y)) :=
  h.bind fun _ _ hmore => .ok (by rw [hmore, List.map_cons])

variable {r} (ihitems : ItemsMove r n) (ihpieces : PiecesMove r n) (hrest : rest.length ≤ n)
include ihitems hrest

theorem plain_move
    (hkind : l.kind ∈ [.blank, .lineComment, .blockComment, .name, .symbol, .shift, .hashtag]) :
    ToldAlike (List.map (move r.offset)) (ofLexemes base before (l :: rest))
      (ofLexemes base (before.map (Lexeme.move r)) ((l :: rest).map (Lexeme.move r))) := by
  rw [List.map_cons, ofLexemes_plainItem base before rest hkind,
    ofLexemes_plainItem (l := l.move r) base _ _ hkind]
  refine (plainItem_move r l).bind fun item item' hitem => ?_
  rw [hitem]
  exact cons_move item (ihitems base (some l) hrest)

theorem number_cons_move (hkind : l.kind = .number) :
    ToldAlike (List.map (move r.offset)) (ofLexemes base before (l :: rest))
      (ofLexemes base (before.map (Lexeme.move r)) ((l :: rest).map (Lexeme.move r))) := by
  rw [List.map_cons, ofLexemes_number hkind, ofLexemes_number (l := l.move r) hkind,
    number_move r base before hkind]
  exact cons_move _ (ihitems base none (Nat.le_trans (length_number_le base before l rest) hrest))

/-- A block is the same block, with the same items inside. -/
theorem block_move (hblock : l.kind.opensBlock = true) (hkind : l.kind ≠ .holeEscape) :
    ToldAlike (List.map (move r.offset)) (ofLexemes base before (l :: rest))
      (ofLexemes base (before.map (Lexeme.move r)) ((l :: rest).map (Lexeme.move r))) := by
  have htrivia : l.kind.isTrivia = false := by
    cases hk : l.kind <;> first | rfl | (rw [hk] at hblock; cases hblock)
  have he' := Lexeme.enclosed?_move r l rest
  rw [List.map_cons]
  cases he : l.enclosed? rest with
  | none =>
    rw [he] at he'
    rw [ofLexemes_unpaired (.inl hblock) hkind he,
      ofLexemes_unpaired (l := l.move r) (.inl hblock) hkind he']
    exact toldAlike_fault _
  | some e =>
    obtain ⟨hinner, hafter⟩ := Lexeme.enclosed?_lengths he
    rw [he] at he'
    rw [ofLexemes_block hblock hkind he, ofLexemes_block (l := l.move r) hblock hkind he',
      show (e.move r).closer = e.closer.move r from rfl, blockKind_move r htrivia,
      blockBase?_move r htrivia]
    refine (toldAlike_refl (blockKind l e.closer)).bind fun kind kind' hkind => ?_
    obtain rfl : kind' = kind := hkind
    refine (ihitems _ (some l) (Nat.le_trans hinner hrest)).bind fun inner inner' h => ?_
    have hafter := cons_move (.block kind' (blockBase? l) inner (l.span.merge e.closer.span))
      (ihitems base (some e.closer) (Nat.le_trans hafter hrest))
    rw [move, moveAll_eq_map, Span.move_merge r.strictMono, ← h] at hafter
    exact hafter

theorem basedString_move (hkind : l.kind = .basedStringOpener) :
    ToldAlike (List.map (move r.offset)) (ofLexemes base before (l :: rest))
      (ofLexemes base (before.map (Lexeme.move r)) ((l :: rest).map (Lexeme.move r))) := by
  have hhole : l.kind ≠ .holeEscape := by rw [hkind]; exact nofun
  have he' := Lexeme.enclosed?_move r l rest
  rw [List.map_cons]
  cases he : l.enclosed? rest with
  | none =>
    rw [he] at he'
    rw [ofLexemes_unpaired (.inr hkind) hhole he,
      ofLexemes_unpaired (l := l.move r) (.inr hkind) hhole he']
    exact toldAlike_fault _
  | some e =>
    obtain ⟨-, hafter⟩ := Lexeme.enclosed?_lengths he
    rw [he] at he'
    rw [ofLexemes_basedString hkind he, ofLexemes_basedString (l := l.move r) hkind he',
      ofBasedString_move r hkind]
    exact cons_move _ (ihitems base (some e.closer) (Nat.le_trans hafter hrest))

include ihpieces

theorem string_move (hkind : l.kind.opensString = true) :
    ToldAlike (List.map (move r.offset)) (ofLexemes base before (l :: rest))
      (ofLexemes base (before.map (Lexeme.move r)) ((l :: rest).map (Lexeme.move r))) := by
  obtain ⟨hinner, hafter⟩ := stringBody_lengths l rest
  rw [List.map_cons, ofLexemes_string hkind, ofLexemes_string (l := l.move r) hkind, stringBody_move]
  refine (ihpieces (Nat.le_trans hinner hrest)).bind fun pieces pieces' hpieces => ?_
  rw [hpieces, ofPieces_movePieces]
  exact cons_move _ (ihitems base _ (Nat.le_trans hafter hrest))

theorem hole_move (hkind : l.kind = .leftBrace ∨ l.kind = .holeEscape) :
    ToldAlike (movePieces r.offset) (piecesOf (l :: rest))
      (piecesOf ((l :: rest).map (Lexeme.move r))) := by
  have htrivia : l.kind.isTrivia = false := by rcases hkind with hkind | hkind <;> rw [hkind] <;> rfl
  have he' := Lexeme.enclosed?_move r l rest
  rw [List.map_cons]
  cases he : l.enclosed? rest with
  | none =>
    rw [he] at he'
    rw [piecesOf_unpaired hkind he, piecesOf_unpaired (l := l.move r) hkind he']
    exact toldAlike_fault _
  | some e =>
    obtain ⟨hinner, hafter⟩ := Lexeme.enclosed?_lengths he
    rw [he] at he'
    rw [piecesOf_hole hkind he, piecesOf_hole (l := l.move r) hkind he',
      show (e.move r).closer = e.closer.move r from rfl, blockKind_move r htrivia,
      blockBase?_move r htrivia]
    refine (toldAlike_refl (blockKind l e.closer)).bind fun kind kind' hkind => ?_
    obtain rfl : kind' = kind := hkind
    refine (ihitems _ (some l) (Nat.le_trans hinner hrest)).bind fun inner inner' h => ?_
    refine (ihpieces (Nat.le_trans hafter hrest)).bind fun more more' hmore => .ok ?_
    rw [h, hmore, Lexeme.kind_move]
    split <;> rw [movePieces, moveAll_eq_map]

omit ihitems ihpieces hrest

theorem itemsMove_zero : ItemsMove r 0 := by
  intro base before ls hlength
  obtain rfl := List.eq_nil_of_length_eq_zero (Nat.le_zero.mp hlength)
  rw [List.map_nil, ofLexemes, ofLexemes]
  exact .ok rfl

theorem piecesMove_zero : PiecesMove r 0 := by
  intro ls hlength
  obtain rfl := List.eq_nil_of_length_eq_zero (Nat.le_zero.mp hlength)
  rw [List.map_nil, piecesOf]
  exact .ok (by rw [movePieces])

theorem itemsMove_succ (ihitems : ItemsMove r n) (ihpieces : PiecesMove r n) : ItemsMove r (n + 1) := by
  intro base before ls hlength
  cases ls with
  | nil => exact itemsMove_zero base before (Nat.le_refl 0)
  | cons l rest =>
    have hrest : rest.length ≤ n := Nat.le_of_succ_le_succ hlength
    cases hkind : l.kind with
    | blank | lineComment | blockComment | name | symbol | shift | hashtag =>
      exact plain_move ihitems hrest (by rw [hkind]; decide)
    | number => exact number_cons_move ihitems hrest hkind
    | leftBracket | leftParen | leftBrace | leftAngle | basedBlockOpener =>
      exact block_move ihitems hrest (by rw [hkind]; rfl) (by rw [hkind]; decide)
    | stringOpener | rawStringOpener | restOfFileOpener | rawRestOfFileOpener | heredocOpener
    | rawHeredocOpener => exact string_move ihitems ihpieces hrest (by rw [hkind]; rfl)
    | basedStringOpener => exact basedString_move ihitems hrest hkind
    | rightBracket | rightParen | rightBrace | rightAngle | stringCloser | heredocCloser | stringText
    | stringEscape | holeEscape | rawStringText | basedStringText | exponent =>
      rw [List.map_cons, ofLexemes, ofLexemes]
      simp only [Lexeme.kind_move, hkind]
      exact toldAlike_fault _

theorem piecesMove_succ (ihitems : ItemsMove r n) (ihpieces : PiecesMove r n) :
    PiecesMove r (n + 1) := by
  intro ls hlength
  cases ls with
  | nil => exact piecesMove_zero (Nat.le_refl 0)
  | cons l rest =>
    have hrest : rest.length ≤ n := Nat.le_of_succ_le_succ hlength
    cases hkind : l.kind with
    | leftBrace => exact hole_move ihitems ihpieces hrest (.inl hkind)
    | holeEscape => exact hole_move ihitems ihpieces hrest (.inr hkind)
    | stringText | rawStringText =>
      rw [List.map_cons, piecesOf, piecesOf]
      simp only [Lexeme.kind_move, hkind]
      refine (ihpieces hrest).bind fun more more' hmore => .ok ?_
      rw [hmore, Lexeme.text_move_of_kind r hkind rfl, movePieces]
    | stringEscape =>
      rw [List.map_cons, piecesOf, piecesOf]
      simp only [Lexeme.kind_move, hkind]
      refine (escapeText_move r hkind).bind fun t t' ht => ?_
      refine (ihpieces hrest).bind fun more more' hmore => .ok ?_
      rw [hmore, ht, movePieces]
      rfl
    | _ =>
      rw [List.map_cons, piecesOf, piecesOf]
      simp only [Lexeme.kind_move, hkind]
      exact toldAlike_fault _

variable (r)

/-- **Lexemes that stand elsewhere make the same items**, where they stand, or are refused alike. -/
theorem ofLexemes_move (base : Radix) (before : Option Lexeme) (ls : List Lexeme) :
    ToldAlike (List.map (move r.offset)) (ofLexemes base before ls)
      (ofLexemes base (before.map (Lexeme.move r)) (ls.map (Lexeme.move r))) := by
  -- Items hold pieces and pieces hold items, so both go by the number of lexemes.
  have hboth : ∀ n, ItemsMove r n ∧ PiecesMove r n := by
    intro n
    induction n with
    | zero => exact ⟨itemsMove_zero, piecesMove_zero⟩
    | succ n ih => exact ⟨itemsMove_succ ih.1 ih.2, piecesMove_succ ih.1 ih.2⟩
  exact (hboth ls.length).1 base before (Nat.le_refl _)

/-! ## §6 What stands in front -/

/-- What stands in front matters only if it is a dot. -/
theorem ofLexemes_of_not_isDot (hbefore : before.any Lexeme.isDot = false) (ls : List Lexeme) :
    ofLexemes base before ls = ofLexemes base none ls := by
  cases ls with
  | nil => rw [ofLexemes, ofLexemes]
  | cons l rest =>
    have hfraction : fraction? before l rest = fraction? none l rest := by
      have htouching : before.any (fun p => p.touches l && p.isDot) = false := by
        cases before with
        | none => rfl
        | some p =>
          have hdot : p.isDot = false := hbefore
          rw [Option.any_some, hdot, Bool.and_false]
      rcases rest with _ | ⟨dot, _ | ⟨digits, rest⟩⟩
      · rfl
      · rfl
      · rw [fraction?, fraction?, htouching, Option.any_none]
    have hnumber : number base before l rest = number base none l rest := by
      rw [number, number, hfraction]
    by_cases hkind : l.kind = .number
    · rw [ofLexemes_number hkind, ofLexemes_number hkind, hnumber]
    · rw [ofLexemes, ofLexemes]
      cases hk : l.kind <;> first | rfl | exact absurd hk hkind

end Tree

end DewyFront
