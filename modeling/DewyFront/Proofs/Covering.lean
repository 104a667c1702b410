/-
# DewyFront.Proofs.Covering — the items of a source keep every byte

What a scan leaves is always made into items, unless an escape names no character. The items of the
source stand side by side from its start to its end, and the items inside of a block fill it from the
opener to the closer, in the holes of strings as well.

* §1 items and the lexemes that they are made of;
* §2 what an opener encloses;
* §3 strings;
* §4 one item;
* §5 all items;
* §6 whole sources.
-/
import DewyFront.Proofs.Rows

namespace DewyFront

/-! ## §1 Items over lexemes -/

mutual
/-- **`Tree.LiesOn`** — the lexemes that an item is made of. The items inside of a block are made of
those between the opener and the closer, and fill the bytes between them. No block is lost in a leaf. -/
inductive Tree.LiesOn : Tree → List Lexeme → Prop
  | leaf {leaf : Leaf} {span : Span} {ls : List Lexeme}
      (hflat : ∀ l ∈ ls, l.kind.opensBlock = false) : Tree.LiesOn (.leaf leaf span) ls
  | block {opener closer : Lexeme} {inner : List Lexeme} {kind : Delimiters} {base : Option Radix}
      {trees : List Tree} (hpartner : opener.partner = some closer.place)
      (htiles : Span.Tiles opener.span.stop closer.span.start (trees.map Tree.span))
      (hinner : TreesLieOn trees inner) :
      Tree.LiesOn (.block kind base trees (opener.span.merge closer.span))
        (opener :: (inner ++ [closer]))
  | istring {opener : Lexeme} {inner back : List Lexeme} {pieces : List Tree.Piece} {span : Span}
      (hback : ∀ l ∈ back, l.kind.opensBlock = false) (hpieces : PiecesLieOn pieces inner) :
      Tree.LiesOn (.istring pieces span) (opener :: (inner ++ back))
/-- **`TreesLieOn`** — items in order are made of lexemes in order, and each stands where its lexemes
do. -/
inductive TreesLieOn : List Tree → List Lexeme → Prop
  | nil : TreesLieOn [] []
  | cons {tree : Tree} {trees : List Tree} {front back : List Lexeme}
      (hspan : Span.Tiles tree.span.start tree.span.stop (front.map (·.span)))
      (htree : tree.LiesOn front) (hrest : TreesLieOn trees back) :
      TreesLieOn (tree :: trees) (front ++ back)
/-- **`PiecesLieOn`** — the holes of a string are those that its lexemes open, in order, and the items
inside of a hole fill it. -/
inductive PiecesLieOn : List Tree.Piece → List Lexeme → Prop
  | nil : PiecesLieOn [] []
  | plain {l : Lexeme} {pieces : List Tree.Piece} {ls : List Lexeme}
      (hflat : l.kind.opensBlock = false) (hrest : PiecesLieOn pieces ls) :
      PiecesLieOn pieces (l :: ls)
  | text {t : Text} {pieces : List Tree.Piece} {ls : List Lexeme} (hrest : PiecesLieOn pieces ls) :
      PiecesLieOn (.text t :: pieces) ls
  | hole {opener closer : Lexeme} {inner rest : List Lexeme} {kind : Delimiters}
      {base : Option Radix} {trees : List Tree} {pieces : List Tree.Piece}
      (hpartner : opener.partner = some closer.place)
      (htiles : Span.Tiles opener.span.stop closer.span.start (trees.map Tree.span))
      (hinner : TreesLieOn trees inner) (hrest : PiecesLieOn pieces rest) :
      PiecesLieOn ((if opener.kind = .holeEscape then .escape kind base trees
        else .block kind base trees) :: pieces) (opener :: (inner ++ closer :: rest))
end

/-- Items side by side from one offset to another, made of some lexemes. -/
def Fills (start stop : Nat) (ls : List Lexeme) (trees : List Tree) : Prop :=
  Span.Tiles start stop (trees.map Tree.span) ∧ TreesLieOn trees ls

theorem fills_cons {start middle stop : Nat} {front back : List Lexeme} {tree : Tree}
    {trees : List Tree} (hspan : tree.span = ⟨start, middle⟩) (hlt : start < middle)
    (htiles : Span.Tiles start middle (front.map (·.span))) (htree : tree.LiesOn front)
    (hrest : Fills middle stop back trees) : Fills start stop (front ++ back) (tree :: trees) := by
  obtain ⟨htrees, hlie⟩ := hrest
  refine ⟨?_, .cons ?_ htree hlie⟩
  · rw [List.map_cons, hspan]
    exact ⟨rfl, hlt, htrees⟩
  · rw [hspan]
    exact htiles

/-! ## §2 Openers -/

namespace Lexeme

variable {opener closer : Lexeme} {inner rest : List Lexeme}

/-- What an opener encloses stands between it and its partner. -/
theorem enclosed?_of_pair (rest : List Lexeme) (hpartner : opener.partner = some closer.place)
    (hplace : closer.place = opener.place + inner.length + 1) :
    opener.enclosed? (inner ++ closer :: rest) = some ⟨inner, closer, rest⟩ := by
  have hdistance : closer.place - opener.place = inner.length + 1 := by omega
  simp [enclosed?, hpartner, hdistance]

theorem enclosed?_eq_none (hpartner : opener.partner = none) : opener.enclosed? rest = none := by
  simp [enclosed?, hpartner]

end Lexeme

namespace TokenKind

variable {kind : TokenKind} {context : ContextKind} {c : Context} {place : Nat} {lexeme : Text}

/-- Strings, apart from those of a base. -/
def opensString : TokenKind → Bool
  | stringOpener | rawStringOpener | restOfFileOpener | rawRestOfFileOpener | heredocOpener
  | rawHeredocOpener => true
  | _ => false

theorem opensBlock_eq_false_of_opensString (h : kind.opensString = true) :
    kind.opensBlock = false := by
  cases kind <;> first | rfl | cases h

/-- Inside of a block stands an expression. -/
theorem isExpression_of_opensBlock (h : kind.opensBlock = true)
    (hc : Scan.context? kind place lexeme = some c) : c.kind.isExpression = true := by
  cases kind <;> first | (cases hc; rfl) | cases h

/-- Inside of a string stands text. -/
theorem kind_of_opensString (h : kind.opensString = true)
    (hc : Scan.context? kind place lexeme = some c) :
    c.kind = .stringBody ∨ c.kind = .rawStringBody := by
  cases kind <;> first | (cases hc; exact .inl rfl) | (cases hc; exact .inr rfl) | cases h

/-- The openers of an expression: blocks, strings and strings of a base. -/
theorem opener_of_isExpression (hcontext : context.isExpression = true)
    (hlegal : kind.isLegalIn context = true) (hopener : kind.isOpener = true) :
    (kind.opensBlock = true ∧ kind ≠ .holeEscape) ∨ kind.opensString = true ∨
      kind = .basedStringOpener := by
  revert hcontext hlegal hopener
  cases context <;> cases kind <;> decide

/-- The openers of a string: holes. -/
theorem opener_of_string (hcontext : context = .stringBody ∨ context = .rawStringBody)
    (hlegal : kind.isLegalIn context = true) (hopener : kind.isOpener = true) :
    kind = .leftBrace ∨ kind = .holeEscape := by
  revert hcontext hlegal hopener
  cases context <;> cases kind <;> decide

/-- The other tokens of an expression. -/
theorem plain_of_isExpression (hcontext : context.isExpression = true)
    (hlegal : kind.isLegalIn context = true) (hopener : kind.isOpener = false)
    (hcloser : kind.isCloser = false) :
    kind ∈ [blank, lineComment, blockComment, name, symbol, shift, hashtag] ∨ kind = .number ∨
      kind = .exponent := by
  revert hcontext hlegal hopener hcloser
  cases context <;> cases kind <;> decide

/-- The other tokens of a string. -/
theorem plain_of_string (hcontext : context = .stringBody ∨ context = .rawStringBody)
    (hlegal : kind.isLegalIn context = true) (hopener : kind.isOpener = false)
    (hcloser : kind.isCloser = false) :
    kind = .stringText ∨ kind = .rawStringText ∨ kind = .stringEscape := by
  revert hcontext hlegal hopener hcloser
  cases context <;> cases kind <;> decide

/-- In a string of a base nothing is opened. -/
theorem isOpener_eq_false_of_basedString (hlegal : kind.isLegalIn .basedStringBody = true) :
    kind.isOpener = false := by
  cases kind <;> first | rfl | cases hlegal

end TokenKind

namespace Tree

variable {source : Text} {ended : Bool} {context : ContextKind} {previous : Option TokenKind}
  {start stop : Nat} {ls inner back rest : List Lexeme} {l opener closer : Lexeme} {base : Radix}
  {before : Option Lexeme} {pieces : List Piece}

/-- No closer begins a block. -/
theorem flat_of_encloses (h : opener.token.Encloses source closer.token) :
    ∀ l ∈ [closer], l.kind.opensBlock = false := by
  have hcloser : closer.kind.isCloser = true := h.isCloser
  rw [List.forall_mem_singleton]
  generalize closer.kind = kind at hcloser
  cases kind <;> first | rfl | cases hcloser

/-! ## §3 Strings -/

/-- In lexemes without holes no block begins. -/
theorem flat_of_piecesLieOn_nil (h : PiecesLieOn [] ls) : ∀ l ∈ ls, l.kind.opensBlock = false := by
  induction ls with
  | nil => exact fun l hl => by cases hl
  | cons x ls ih =>
    cases h with
    | plain hflat hrest => exact List.forall_mem_cons.mpr ⟨hflat, ih hrest⟩

theorem piecesLieOn_textPiece (t : Text) (h : PiecesLieOn pieces ls) :
    PiecesLieOn (textPiece t ++ pieces) ls := by
  unfold textPiece
  split
  · exact h
  · exact .text h

/-- A hole stays where it is when texts are put together. -/
theorem joinTexts_hole {hole : Piece} (h : ∀ t, hole ≠ .text t) (more : List Piece) :
    (joinTexts (hole :: more)).2 = hole :: textPiece (joinTexts more).1 ++ (joinTexts more).2 := by
  cases hole with
  | text t => exact absurd rfl (h t)
  | block | escape => rfl

/-- **Putting texts together keeps the holes.** -/
theorem liesOn_ofPieces (span : Span) (hopener : opener.kind.opensBlock = false)
    (hback : ∀ l ∈ back, l.kind.opensBlock = false)
    (h : PiecesLieOn (joinTexts pieces).2 inner) :
    (ofPieces pieces span).LiesOn (opener :: (inner ++ back)) := by
  unfold ofPieces
  split
  · next lead heq =>
    rw [heq] at h
    refine .leaf (List.forall_mem_cons.mpr ⟨hopener, ?_⟩)
    exact List.forall_mem_append.mpr ⟨flat_of_piecesLieOn_nil h, hback⟩
  · next lead holes _ heq =>
    rw [heq] at h
    exact .istring hback (piecesLieOn_textPiece lead h)

theorem span_ofPieces (pieces : List Piece) (span : Span) : (ofPieces pieces span).span = span := by
  unfold ofPieces
  split <;> rfl

/-- In a string of a base no block begins. -/
theorem flat_of_basedString (h : Body source ended .basedStringBody ls) :
    ∀ l ∈ ls, l.kind.opensBlock = false := by
  generalize hcontext : ContextKind.basedStringBody = context at h
  induction h with
  | nil => exact fun l hl => by cases hl
  | plain _ hopener _ _ ih =>
    exact List.forall_mem_cons.mpr
      ⟨TokenKind.opensBlock_eq_false_of_isOpener hopener, ih hcontext⟩
  | pair hlegal hc =>
    rw [← hcontext] at hlegal
    have hopener := TokenKind.isOpener_eq_false_of_basedString hlegal
    rw [Scan.isOpener_of_context? hc] at hopener
    cases hopener
  | unended => cases hcontext

/-! ## §4 One item -/

/-- **What is made of one lexeme is a leaf.** -/
theorem ofLexemes_plain (base : Radix) (before : Option Lexeme) (rest : List Lexeme) (h : l.Matched)
    (hkind : l.kind ∈ [.blank, .lineComment, .blockComment, .name, .symbol, .shift, .hashtag]) :
    ∃ leaf, ofLexemes base before (l :: rest) =
      (do return .leaf leaf l.span :: (← ofLexemes base (some l) rest)) := by
  have hmarks : l.kind = .symbol ∨ l.kind = .shift → ∃ leaf, ofMarks l = .ok (.leaf leaf l.span) :=
    exists_ofMarks h
  have hword : ∃ leaf, ofWord l = .leaf leaf l.span := by
    unfold ofWord
    split <;> exact ⟨_, rfl⟩
  simp only [List.mem_cons, List.not_mem_nil, or_false] at hkind
  rw [ofLexemes]
  rcases hkind with hkind | hkind | hkind | hkind | hkind | hkind | hkind <;> simp only [hkind]
  case inl | inr.inl | inr.inr.inl | inr.inr.inr.inr.inr.inr => exact ⟨_, rfl⟩
  case inr.inr.inr.inl =>
    obtain ⟨leaf, hleaf⟩ := hword
    rw [hleaf]
    exact ⟨leaf, rfl⟩
  case inr.inr.inr.inr.inl =>
    obtain ⟨leaf, hleaf⟩ := hmarks (.inl hkind)
    rw [hleaf]
    exact ⟨leaf, rfl⟩
  case inr.inr.inr.inr.inr.inl =>
    obtain ⟨leaf, hleaf⟩ := hmarks (.inr hkind)
    rw [hleaf]
    exact ⟨leaf, rfl⟩

theorem ofLexemes_number (hkind : l.kind = .number) : ofLexemes base before (l :: rest) =
    (do return (number base before l rest).1 ::
      (← ofLexemes base none (number base before l rest).2)) := by
  rw [ofLexemes]
  simp only [hkind]

theorem ofLexemes_block {e : Enclosed} (hblock : l.kind.opensBlock = true)
    (hkind : l.kind ≠ .holeEscape) (he : l.enclosed? rest = some e) :
    ofLexemes base before (l :: rest) = (do
      let kind ← blockKind l e.closer
      let inner ← ofLexemes ((blockBase? l).getD .decimal) (some l) e.inner
      return .block kind (blockBase? l) inner (l.span.merge e.closer.span) ::
        (← ofLexemes base (some e.closer) e.after)) := by
  rw [ofLexemes]
  cases hk : l.kind <;> rw [hk] at hblock hkind
  case leftBracket | leftParen | leftBrace | leftAngle | basedBlockOpener =>
    dsimp only
    split
    · next hnone =>
      rw [he] at hnone
      cases hnone
    · next found hfound =>
      rw [he] at hfound
      cases hfound
      rfl
  case holeEscape => exact absurd rfl hkind
  all_goals cases hblock

theorem ofLexemes_string (hstring : l.kind.opensString = true) :
    ofLexemes base before (l :: rest) = (do
      let pieces ← piecesOf (stringBody l rest).inner
      return ofPieces pieces (stringBody l rest).span ::
        (← ofLexemes base (stringBody l rest).closer (stringBody l rest).after)) := by
  rw [ofLexemes]
  cases hk : l.kind
  case stringOpener | rawStringOpener | restOfFileOpener | rawRestOfFileOpener | heredocOpener
    | rawHeredocOpener => rfl
  all_goals
    rw [hk] at hstring
    cases hstring

theorem ofLexemes_basedString {e : Enclosed} (hkind : l.kind = .basedStringOpener)
    (he : l.enclosed? rest = some e) : ofLexemes base before (l :: rest) =
      (do return ofBasedString l e :: (← ofLexemes base (some e.closer) e.after)) := by
  rw [ofLexemes]
  simp only [hkind]
  split
  · next hnone =>
    rw [he] at hnone
    cases hnone
  · next found hfound =>
    rw [he] at hfound
    cases hfound
    rfl

/-- **What is made of one lexeme of a string is a text.** -/
theorem piecesOf_plain (rest : List Lexeme) (h : l.Matched)
    (hkind : l.kind = .stringText ∨ l.kind = .rawStringText ∨ l.kind = .stringEscape) :
    ∃ x, Yields (fun _ => True) x ∧ piecesOf (l :: rest) = (do
      let t ← x
      return .text t :: (← piecesOf rest)) := by
  have hescape : l.kind = .stringEscape → Yields (fun _ => True) (escapeText l) := escapeText_yields h
  rw [piecesOf]
  rcases hkind with hkind | hkind | hkind <;> simp only [hkind]
  · exact ⟨.ok l.text, yields_ok trivial, rfl⟩
  · exact ⟨.ok l.text, yields_ok trivial, rfl⟩
  · exact ⟨escapeText l, hescape hkind, rfl⟩

theorem piecesOf_hole {e : Enclosed} (hkind : l.kind = .leftBrace ∨ l.kind = .holeEscape)
    (he : l.enclosed? rest = some e) : piecesOf (l :: rest) = (do
      let kind ← blockKind l e.closer
      let inner ← ofLexemes ((blockBase? l).getD .decimal) (some l) e.inner
      return (if l.kind = .holeEscape then Piece.escape kind (blockBase? l) inner
        else Piece.block kind (blockBase? l) inner) :: (← piecesOf e.after)) := by
  rw [piecesOf]
  rcases hkind with hkind | hkind <;> simp only [hkind]
  all_goals
    split
    · next hnone =>
      rw [he] at hnone
      cases hnone
    · next found hfound =>
      rw [he] at hfound
      cases hfound
      rfl

/-- What a string with a closer encloses. -/
theorem stringBody_of_pair (hpartner : opener.partner = some closer.place)
    (hplace : closer.place = opener.place + inner.length + 1) :
    stringBody opener (inner ++ closer :: rest) =
      ⟨inner, opener.span.merge closer.span, some closer, rest⟩ := by
  unfold stringBody
  rw [Lexeme.enclosed?_of_pair rest hpartner hplace]

/-- A string without a closer takes everything. -/
theorem stringBody_of_unended (hpartner : opener.partner = none) : stringBody opener rest =
    ⟨rest, opener.span.merge (rest.getLast?.elim opener.span (·.span)), none, []⟩ := by
  unfold stringBody
  rw [Lexeme.enclosed?_eq_none hpartner]

/-! ## §5 All items -/

/-- At most so many lexemes of an expression are made into items. -/
def ItemsCover (source : Text) (n : Nat) : Prop :=
  ∀ {ended : Bool} {context : ContextKind} {start stop : Nat} {ls : List Lexeme} (base : Radix)
    (before : Option Lexeme), ls.length ≤ n → context.isExpression = true →
    Body source ended context ls → Row none start stop ls →
    Yields (Fills start stop ls) (ofLexemes base before ls)

/-- At most so many lexemes of a string are made into pieces. -/
def PiecesCover (source : Text) (n : Nat) : Prop :=
  ∀ {context : ContextKind} {start stop : Nat} {ls : List Lexeme}, ls.length ≤ n →
    context = .stringBody ∨ context = .rawStringBody → Body source true context ls →
    Row none start stop ls → Yields (fun pieces => PiecesLieOn (joinTexts pieces).2 ls) (piecesOf ls)

/-- An item in front of others. -/
theorem yields_cons {middle : Nat} {front : List Lexeme} {tree : Tree}
    {x : Except (Failure LexError) (List Tree)} (hspan : tree.span = ⟨start, middle⟩)
    (hlt : start < middle) (htiles : Span.Tiles start middle (front.map (·.span)))
    (htree : tree.LiesOn front) (hrest : Yields (Fills middle stop back) x) :
    Yields (Fills start stop (front ++ back)) (do return tree :: (← x)) :=
  hrest.bind fun _ hfills => yields_ok (fills_cons hspan hlt htiles htree hfills)

/-- **A leaf in front of others.** -/
theorem yields_leaf {n middle : Nat} {front : List Lexeme} {leaf : Leaf} (ih : ItemsCover source n)
    (hlen : back.length ≤ n) (hcontext : context.isExpression = true)
    (hcut : Cut source ended context none start middle stop ls front back) :
    Yields (Fills start stop ls)
      (do return .leaf leaf ⟨start, middle⟩ :: (← ofLexemes base before back)) := by
  rw [hcut.eq]
  exact yields_cons rfl hcut.lt hcut.tiles (.leaf hcut.flat)
    (ih base before hlen hcontext hcut.body hcut.row)

/-- **What stands inside of a block fills it.** -/
theorem yields_inside {β : Type} {q : β → Prop} {n : Nat} {c : Context}
    {g : Delimiters → List Tree → Except (Failure LexError) β} (ih : ItemsCover source n)
    (hlen : inner.length ≤ n) (hblock : opener.kind.opensBlock = true)
    (hc : Scan.context? opener.kind opener.place opener.text = some c)
    (hencloses : opener.token.Encloses source closer.token) (hopener : opener.Matched)
    (hcloser : closer.Matched) (hinner : Body source true c.kind inner)
    (hrow : Row none opener.span.stop closer.span.start inner)
    (hg : ∀ kind trees, Fills opener.span.stop closer.span.start inner trees →
      Yields q (g kind trees)) :
    Yields q (do
      let kind ← blockKind opener closer
      let trees ← ofLexemes ((blockBase? opener).getD .decimal) (some opener) inner
      g kind trees) := by
  obtain ⟨kind, hkind⟩ := Lexeme.exists_blockKind hopener hcloser hblock hencloses
  rw [hkind]
  exact (ih _ _ hlen (TokenKind.isExpression_of_opensBlock hblock hc) hinner hrow).bind (hg kind)

/-- **A lexeme that is no opener begins a leaf**, which what is behind it goes on from. -/
theorem yields_plain {n : Nat} (ih : ItemsCover source n) (hlen : rest.length ≤ n)
    (hcontext : context.isExpression = true) (hlegal : l.kind.isLegalIn context = true)
    (hopener : l.kind.isOpener = false) (hcloser : l.kind.isCloser = false)
    (hrest : Body source ended context rest) (hrow : Row none start stop (l :: rest)) :
    Yields (Fills start stop (l :: rest)) (ofLexemes base before (l :: rest)) := by
  have hbody := Body.plain hlegal hopener hcloser hrest
  obtain ⟨hspan, -, hmatched, -⟩ := hrow.of_cons
  rcases TokenKind.plain_of_isExpression hcontext hlegal hopener hcloser with hkind | hkind | hkind
  · obtain ⟨leaf, hleaf⟩ := ofLexemes_plain base before rest hmatched hkind
    have hne : some l.kind ≠ some .number := by
      intro heq
      rw [Option.some.inj heq] at hkind
      exact absurd hkind (by decide)
    rw [hleaf, hspan]
    exact yields_leaf ih hlen hcontext ((Cut.single hrow hbody hopener).forget_of_ne hne)
  · obtain ⟨middle, front, back, ⟨leaf, hleaf⟩, hcut⟩ :=
      exists_cut_number base before hrow hbody hkind
    have hback := length_number_le base before l rest
    rw [hleaf] at hback
    rw [ofLexemes_number hkind, hleaf]
    exact yields_leaf ih (Nat.le_trans hback hlen) hcontext hcut
  · -- An exponent stands behind a number, which has taken it.
    exact absurd (hrow.exponents.1 hkind) (by decide)

/-- **A pair is an item**: a block, a string or a string of a base. -/
theorem yields_pair {n : Nat} {c : Context} (ihitems : ItemsCover source n)
    (ihpieces : PiecesCover source n) (hlenInner : inner.length ≤ n) (hlenRest : rest.length ≤ n)
    (hcontext : context.isExpression = true) (hlegal : opener.kind.isLegalIn context = true)
    (hc : Scan.context? opener.kind opener.place opener.text = some c)
    (hencloses : opener.token.Encloses source closer.token)
    (hpartner : opener.partner = some closer.place)
    (hplace : closer.place = opener.place + inner.length + 1)
    (hinner : Body source true c.kind inner) (hrest : Body source ended context rest)
    (hrow : Row none start stop (opener :: (inner ++ closer :: rest))) :
    Yields (Fills start stop (opener :: (inner ++ closer :: rest)))
      (ofLexemes base before (opener :: (inner ++ closer :: rest))) := by
  obtain ⟨hopener, hcloser, hlt, hmerge, htiles, hinside, hbehind⟩ := hrow.of_pair hencloses
  have henclosed := Lexeme.enclosed?_of_pair rest hpartner hplace
  have hmore := ihitems base (some closer) hlenRest hcontext hrest hbehind
  have hsplit : opener :: (inner ++ closer :: rest) = (opener :: (inner ++ [closer])) ++ rest := by
    simp
  rcases TokenKind.opener_of_isExpression hcontext hlegal (Scan.isOpener_of_context? hc) with
    ⟨hblock, hkind⟩ | hstring | hkind
  · rw [ofLexemes_block hblock hkind henclosed, hsplit]
    refine yields_inside ihitems hlenInner hblock hc hencloses hopener hcloser hinner hinside ?_
    rintro kind trees ⟨hfill, hlie⟩
    exact yields_cons hmerge hlt htiles (.block hpartner hfill hlie) hmore
  · rw [ofLexemes_string hstring, stringBody_of_pair hpartner hplace, hsplit]
    have hpieces := ihpieces hlenInner (TokenKind.kind_of_opensString hstring hc) hinner hinside
    refine hpieces.bind fun pieces hlie => ?_
    refine yields_cons ((span_ofPieces _ _).trans hmerge) hlt htiles ?_ hmore
    exact liesOn_ofPieces _ (TokenKind.opensBlock_eq_false_of_opensString hstring)
      (flat_of_encloses hencloses) hlie
  · rw [ofLexemes_basedString hkind henclosed, hsplit]
    refine yields_cons hmerge hlt htiles (.leaf ?_) hmore
    rw [hkind] at hc
    cases hc
    refine List.forall_mem_cons.mpr ⟨by rw [hkind]; rfl, ?_⟩
    exact List.forall_mem_append.mpr ⟨flat_of_basedString hinner, flat_of_encloses hencloses⟩

/-- **A string that nothing ends is the last item.** -/
theorem yields_unended {n : Nat} {c : Context} (ih : PiecesCover source n)
    (hlen : inner.length ≤ n)
    (hkind : opener.kind = .restOfFileOpener ∨ opener.kind = .rawRestOfFileOpener)
    (hc : Scan.context? opener.kind opener.place opener.text = some c)
    (hpartner : opener.partner = none) (hinner : Body source true c.kind inner)
    (hrow : Row none start stop (opener :: inner)) :
    Yields (Fills start stop (opener :: inner)) (ofLexemes base before (opener :: inner)) := by
  have hstring : opener.kind.opensString = true := by
    rcases hkind with hkind | hkind <;> rw [hkind] <;> rfl
  have hne : some opener.kind ≠ some .number := by
    rcases hkind with hkind | hkind <;> rw [hkind] <;> decide
  obtain ⟨-, -, -, hinside⟩ := hrow.of_cons
  obtain ⟨hlt, hmerge⟩ := hrow.merge_last
  have hsplit : opener :: inner = (opener :: (inner ++ [])) ++ [] := by simp
  have hpieces := ih hlen (TokenKind.kind_of_opensString hstring hc) hinner
    (hinside.forget_of_ne hne)
  have htiles := hrow.tiles
  rw [ofLexemes_string hstring, stringBody_of_unended hpartner, hmerge, hsplit]
  refine hpieces.bind fun pieces hlie => ?_
  refine yields_cons (span_ofPieces _ _) hlt (by simpa using htiles) ?_ ?_
  · exact liesOn_ofPieces _ (TokenKind.opensBlock_eq_false_of_opensString hstring)
      (fun l hl => by cases hl) hlie
  · rw [ofLexemes]
    exact yields_ok ⟨rfl, .nil⟩

/-- **The first of several items**, if what is inside of it and behind it covers its lexemes. -/
theorem itemsCover_succ {n : Nat} (ihitems : ItemsCover source n) (ihpieces : PiecesCover source n) :
    ItemsCover source (n + 1) := by
  intro ended context start stop ls base before hlen hcontext hbody hrow
  cases hbody with
  | nil =>
    rw [ofLexemes]
    exact yields_ok ⟨hrow.tiles, .nil⟩
  | plain hlegal hopener hcloser hrest =>
    exact yields_plain ihitems (Nat.le_of_succ_le_succ hlen) hcontext hlegal hopener hcloser hrest
      hrow
  | pair hlegal hc hencloses hpartner hplace hinner hrest =>
    rw [List.length_cons, List.length_append, List.length_cons] at hlen
    exact yields_pair ihitems ihpieces (by omega) (by omega) hcontext hlegal hc hencloses hpartner
      hplace hinner hrest hrow
  | unended hkind hc hpartner hinner =>
    exact yields_unended ihpieces (Nat.le_of_succ_le_succ hlen) hkind hc hpartner hinner hrow

/-- **The first of several pieces**, if what is inside of it and behind it covers its lexemes. -/
theorem piecesCover_succ {n : Nat} (ihitems : ItemsCover source n)
    (ihpieces : PiecesCover source n) : PiecesCover source (n + 1) := by
  intro context start stop ls hlen hcontext hbody hrow
  cases hbody with
  | nil =>
    rw [piecesOf]
    exact yields_ok .nil
  | @plain _ _ l rest hlegal hopener hcloser hrest =>
    have hlen : rest.length ≤ n := Nat.le_of_succ_le_succ hlen
    obtain ⟨-, -, hmatched, hbehind⟩ := hrow.of_cons
    have hkind := TokenKind.plain_of_string hcontext hlegal hopener hcloser
    have hne : some l.kind ≠ some .number := by
      rcases hkind with hkind | hkind | hkind <;> rw [hkind] <;> decide
    obtain ⟨x, hx, heq⟩ := piecesOf_plain rest hmatched hkind
    rw [heq]
    refine hx.bind fun t _ => ?_
    refine (ihpieces hlen hcontext hrest (hbehind.forget_of_ne hne)).bind fun pieces hlie => ?_
    exact yields_ok (.plain (TokenKind.opensBlock_eq_false_of_isOpener hopener) hlie)
  | @pair _ _ opener closer inner rest c hlegal hc hencloses hpartner hplace hinner hrest =>
    obtain ⟨hopener, hcloser, -, -, -, hinside, hbehind⟩ := hrow.of_pair hencloses
    have henclosed := Lexeme.enclosed?_of_pair rest hpartner hplace
    rw [List.length_cons, List.length_append, List.length_cons] at hlen
    have hlenInner : inner.length ≤ n := by omega
    have hlenRest : rest.length ≤ n := by omega
    have hkind := TokenKind.opener_of_string hcontext hlegal (Scan.isOpener_of_context? hc)
    have hblock : opener.kind.opensBlock = true := by
      rcases hkind with hkind | hkind <;> rw [hkind] <;> rfl
    rw [piecesOf_hole hkind henclosed]
    refine yields_inside ihitems hlenInner hblock hc hencloses hopener hcloser hinner hinside ?_
    rintro kind trees ⟨hfill, hlie⟩
    refine (ihpieces hlenRest hcontext hrest hbehind).bind fun pieces hrest => ?_
    refine yields_ok ?_
    rw [joinTexts_hole]
    · exact .hole hpartner hfill hlie (piecesLieOn_textPiece _ hrest)
    · intro t
      split <;> exact fun h => by cases h

/-- **Every stretch of lexemes is made into items or pieces that cover it.** -/
theorem cover (source : Text) (n : Nat) : ItemsCover source n ∧ PiecesCover source n := by
  -- Items hold pieces and pieces hold items, so both go by the number of lexemes.
  induction n with
  | zero =>
    constructor
    · intro ended context start stop ls base before hlen hcontext hbody hrow
      rw [List.length_eq_zero_iff.mp (Nat.le_zero.mp hlen)] at hrow ⊢
      rw [ofLexemes]
      exact yields_ok ⟨hrow.tiles, .nil⟩
    · intro context start stop ls hlen hcontext hbody hrow
      rw [List.length_eq_zero_iff.mp (Nat.le_zero.mp hlen), piecesOf]
      exact yields_ok .nil
  | succ n ih => exact ⟨itemsCover_succ ih.1 ih.2, piecesCover_succ ih.1 ih.2⟩

end Tree

/-! ## §6 Whole sources -/

/-- **The items of a source keep every byte.** What a scan leaves is made into items, or refused for an
escape that names no character. The items stand side by side from the start of the source to its end,
and those inside of every block and of every hole of a string fill it from the opener to the closer. -/
theorem TokenList.trees_cover (config : LexerConfig) (source : Text) (out : Tokenized)
    (h : tokenize config source = .ok out) :
    (∃ trees, out.tokens.trees source = .ok trees ∧
      Span.Tiles 0 (width source) (trees.map Tree.span) ∧
      TreesLieOn trees (out.tokens.lexemes source)) ∨
    ∃ cause, out.tokens.trees source = refuse cause ∧
      (∃ span digits, cause = .invalidCodePoint span digits) ∧
      cause.diagnostic.code = .invalidCodePoint := by
  obtain ⟨hitems, -⟩ := Tree.cover source (out.tokens.lexemes source).length
  rcases hitems .decimal none (Nat.le_refl _) rfl (Scan.body_of_tokenize h) (Scan.row_of_tokenize h)
    with ⟨trees, htrees, hfill, hlie⟩ | ⟨span, digits, hrefused⟩
  · exact .inl ⟨trees, htrees, hfill, hlie⟩
  · exact .inr ⟨_, hrefused, ⟨span, digits, rfl⟩, rfl⟩

/-- A block with a real number and a string with a hole for a name and one for a code point; and an
escape that names no character. -/
theorem TokenList.trees_cover_of_strings :
    let whole : Text := ['[', '1', '.', '5', '"', 'a', '\x7b', 'b', '\x7d', '\\', 'u', '\x7b', '4', '1',
      '\x7d', '"', ']']
    let surrogate : Text := ['"', '\\', 'u', 'd', '8', '0', '0', '"']
    (∃ out trees, tokenize default whole = .ok out ∧ out.tokens.size = 14 ∧
      out.tokens.trees whole = .ok trees ∧ Span.Tiles 0 17 (trees.map Tree.span) ∧
      TreesLieOn trees (out.tokens.lexemes whole)) ∧
    ∃ out cause, tokenize default surrogate = .ok out ∧ out.tokens.trees surrogate = refuse cause ∧
      cause.diagnostic.code = .invalidCodePoint := by
  intro whole surrogate
  constructor
  · have hrun : ((tokenize default whole).toOption.map fun out =>
        (out.tokens.size, (out.tokens.trees whole).toOption.isSome)) = some (14, true) := by
      decide +kernel
    obtain ⟨out, hout, hrun⟩ := Option.map_eq_some_iff.mp hrun
    have hout := toOption_eq_some_iff.mp hout
    injection hrun with hsize hsome
    obtain ⟨found, hfound⟩ := exists_ok_of_isSome hsome
    rcases trees_cover default whole out hout with ⟨trees, htrees, hrest⟩ | ⟨cause, hrefused, -⟩
    · exact ⟨out, trees, hout, hsize, htrees, hrest⟩
    · rw [hfound] at hrefused
      cases hrefused
  · have hrun : ((tokenize default surrogate).toOption.map fun out =>
        (out.tokens.trees surrogate).toOption.isSome) = some false := by
      decide +kernel
    obtain ⟨out, hout, hnone⟩ := Option.map_eq_some_iff.mp hrun
    have hout := toOption_eq_some_iff.mp hout
    rcases trees_cover default surrogate out hout with ⟨trees, htrees, -⟩ | ⟨cause, hrefused, -, hcode⟩
    · rw [htrees] at hnone
      cases hnone
    · exact ⟨out, cause, hout, hrefused, hcode⟩

end DewyFront
