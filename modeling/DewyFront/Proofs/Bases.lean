/-
# DewyFront.Proofs.Bases — items and tokens agree on the bases of numbers

Items tell the base of digits without a lead from the opener of the block around them; a scan has it on
its stack. Both give the same base, at any depth: what stands between an opener and its closer is read in
the context that the opener begins.

* §1 numbers read off lexemes;
* §2 items without numbers, and blocks;
* §3 all items;
* §4 whole sources.
-/
import DewyFront.Proofs.Admission
import DewyFront.Proofs.Covering
import DewyFront.Proofs.Numerals

namespace DewyFront

/-! ## §1 Numbers off lexemes -/

/-- **`ReadsOff`** — numbers are read from lexemes, in order: each from parts of its own, and no number
or exponent is left over. -/
def ReadsOff (config : LexerConfig) (source : Text) (ls : List Lexeme) (ns : List (RealLit × Span)) :
    Prop :=
  ∃ parts : List RealLit.Parts,
    List.Forall₂ (fun n p => ∃ context, n.1.ReadFrom config source context n.2 p) ns parts ∧
    (parts.flatMap (·.lexemes)).filter (·.kind.isNumeral) = ls.filter (·.kind.isNumeral)

section

variable {config : LexerConfig} {source : Text} {stack : List Context}
  {l opener closer : Lexeme} {ls xs ys inner rest : List Lexeme} {ms ns : List (RealLit × Span)}

/-- Where there are no numbers, none is read. -/
theorem ReadsOff.of_filter_eq_nil (h : ls.filter (·.kind.isNumeral) = []) :
    ReadsOff config source ls [] := ⟨[], .nil, h.symm⟩

theorem ReadsOff.append (hxs : ReadsOff config source xs ms) (hys : ReadsOff config source ys ns) :
    ReadsOff config source (xs ++ ys) (ms ++ ns) := by
  obtain ⟨ps, hms, hps⟩ := hxs
  obtain ⟨qs, hns, hqs⟩ := hys
  refine ⟨ps ++ qs, List.rel_append hms hns, ?_⟩
  rw [List.flatMap_append, List.filter_append, List.filter_append, hps, hqs]

theorem ReadsOff.exists_of_mem {n : RealLit × Span} (h : ReadsOff config source ls ns) (hn : n ∈ ns) :
    ∃ context p, n.1.ReadFrom config source context n.2 p := by
  obtain ⟨parts, hread, -⟩ := h
  induction hread with
  | nil => cases hn
  | @cons m p ms ps hm _ ih =>
    rcases List.mem_cons.mp hn with rfl | hn
    · obtain ⟨context, hm⟩ := hm
      exact ⟨context, p, hm⟩
    · exact ih hn

/-- A number is read from its parts. -/
theorem ReadsOff.single {r : RealLit} {span : Span} {p : RealLit.Parts}
    (h : r.Built (stack.headD .root).digitBase p)
    (htakes : ∀ x ∈ p.lexemes, ∃ more, Scan.TakesIn config source x (stack.headD .root) more)
    (htiles : Span.Tiles span.start span.stop (p.lexemes.map (·.span))) :
    ReadsOff config source p.lexemes [(r, span)] := by
  refine ⟨[p], .cons ⟨stack.headD .root, h.readFrom htakes htiles⟩ .nil, ?_⟩
  rw [List.flatMap_singleton]

theorem ReadsOff.cons (h : ReadsOff config source ls ns) (hl : l.kind.isNumeral = false) :
    ReadsOff config source (l :: ls) ns := by
  obtain ⟨ps, hns, hps⟩ := h
  refine ⟨ps, hns, ?_⟩
  rw [hps, List.filter_cons_of_neg (by rw [hl]; exact Bool.false_ne_true)]

theorem TokenKind.isNumeral_eq_false_of_isOpener {kind : TokenKind} (h : kind.isOpener = true) :
    kind.isNumeral = false := by
  cases kind <;> first | rfl | cases h

theorem TokenKind.isNumeral_eq_false_of_isCloser {kind : TokenKind} (h : kind.isCloser = true) :
    kind.isNumeral = false := by
  cases kind <;> first | rfl | cases h

/-- The numbers of a pair are those that it encloses. -/
theorem ReadsOff.pair (hencloses : opener.token.Encloses source closer.token)
    (hinner : ReadsOff config source inner ms) (hrest : ReadsOff config source rest ns) :
    ReadsOff config source (opener :: (inner ++ closer :: rest)) (ms ++ ns) :=
  (hinner.append (hrest.cons (TokenKind.isNumeral_eq_false_of_isCloser hencloses.isCloser))).cons
    (TokenKind.isNumeral_eq_false_of_isOpener hencloses.isOpener)

/-- In a string of a base no number stands. -/
theorem Body.filter_isNumeral_eq_nil (h : Body source true .basedStringBody ls) :
    ls.filter (·.kind.isNumeral) = [] := by
  generalize hkind : ContextKind.basedStringBody = kind at h
  generalize true = ended at h
  induction h with
  | nil => rfl
  | @plain _ _ l rest hlegal _ _ _ ih =>
    rw [← hkind] at hlegal
    have hl : l.kind.isNumeral = false := by
      generalize l.kind = k at hlegal
      cases k <;> first | rfl | cases hlegal
    rw [List.filter_cons_of_neg (by rw [hl]; exact Bool.false_ne_true), ih hkind]
  | pair hlegal hc =>
    rw [← hkind] at hlegal
    have hopener := TokenKind.isOpener_eq_false_of_basedString hlegal
    rw [Scan.isOpener_of_context? hc] at hopener
    cases hopener
  | unended => cases hkind

end

/-! ## §2 Items without numbers, and blocks -/

/-- The base that items take from the opener of a block is the one that a scan has on its stack. -/
theorem Scan.digitBase_of_context? {opener : Lexeme} {c : Context}
    (hblock : opener.kind.opensBlock = true)
    (hc : Scan.context? opener.kind opener.place opener.text = some c) :
    (Tree.blockBase? opener).getD .decimal = c.digitBase := by
  unfold Tree.blockBase?
  cases hkind : opener.kind <;> rw [hkind] at hblock hc <;>
    first | (cases hc; rfl) | cases hblock

namespace Tree

variable {config : LexerConfig} {source : Text} {ended : Bool} {kind : ContextKind} {n start stop : Nat}
  {stack : List Context} {c : Context} {l opener closer : Lexeme} {inner rest : List Lexeme}
  {base : Radix} {before : Option Lexeme} {trees : List Tree} {pieces : List Piece}

/-- **What is made of layout, a name, a symbol or a hashtag is no number.** -/
theorem of_ofLexemes_plain
    (hkind : l.kind ∈ [.blank, .lineComment, .blockComment, .name, .symbol, .shift, .hashtag])
    (h : ofLexemes base before (l :: rest) = .ok trees) : ∃ tree more, tree.numerals = [] ∧
      trees = tree :: more ∧ ofLexemes base (some l) rest = .ok more := by
  have hleaf : ∀ {tree : Tree}, tree.numerals = [] →
      (do return tree :: (← ofLexemes base (some l) rest)) = Except.ok trees →
      ∃ tree more, tree.numerals = [] ∧ trees = tree :: more ∧
        ofLexemes base (some l) rest = .ok more := by
    intro tree htree h
    obtain ⟨more, hmore, h⟩ := bind_ok_iff.mp h
    cases h
    exact ⟨tree, more, htree, rfl, hmore⟩
  have hword : (ofWord l).numerals = [] := by
    unfold ofWord
    split <;> rfl
  have hmarks : ∀ {tree}, ofMarks l = .ok tree → tree.numerals = [] := by
    intro tree h
    unfold ofMarks at h
    split at h
    · next found hfound =>
      cases h
      unfold markLeaf? at hfound
      split_ifs at hfound <;> first
        | (cases hfound; rfl)
        | (obtain ⟨_, _, rfl⟩ := Option.map_eq_some_iff.mp hfound; rfl)
    · cases h
  simp only [List.mem_cons, List.not_mem_nil, or_false] at hkind
  rw [ofLexemes] at h
  rcases hkind with hkind | hkind | hkind | hkind | hkind | hkind | hkind <;> simp only [hkind] at h
  case inl | inr.inl | inr.inr.inl | inr.inr.inr.inr.inr.inr => exact hleaf rfl h
  case inr.inr.inr.inl => exact hleaf hword h
  case inr.inr.inr.inr.inl | inr.inr.inr.inr.inr.inl =>
    obtain ⟨tree, htree, h⟩ := bind_ok_iff.mp h
    exact hleaf (hmarks htree) h

/-! ## §3 All items -/

/-- At most so many lexemes of an expression are made into items. -/
def ItemsRead (config : LexerConfig) (source : Text) (n : Nat) : Prop :=
  ∀ {ended : Bool} {kind : ContextKind} {start stop : Nat} {ls : List Lexeme} {stack : List Context}
    {trees : List Tree} (before : Option Lexeme), ls.length ≤ n → kind.isExpression = true →
    Body source ended kind ls → Row none start stop ls → TakesEach config source stack ls →
    ofLexemes (stack.headD .root).digitBase before ls = .ok trees →
    ReadsOff config source ls (numeralsOf trees)

/-- At most so many lexemes of a string are made into pieces. -/
def PiecesRead (config : LexerConfig) (source : Text) (n : Nat) : Prop :=
  ∀ {kind : ContextKind} {start stop : Nat} {ls : List Lexeme} {stack : List Context}
    {pieces : List Piece}, ls.length ≤ n → kind = .stringBody ∨ kind = .rawStringBody →
    Body source true kind ls → Row none start stop ls → TakesEach config source stack ls →
    piecesOf ls = .ok pieces → ReadsOff config source ls (pieceNumerals pieces)

/-- **A number and the items behind it.** -/
theorem readsOff_number (ih : ItemsRead config source n) (hlen : rest.length ≤ n)
    (hkind : kind.isExpression = true) (hnumber : l.kind = .number)
    (hbody : Body source ended kind (l :: rest)) (hrow : Row none start stop (l :: rest))
    (htakes : TakesEach config source stack (l :: rest))
    (h : ofLexemes (stack.headD .root).digitBase before (l :: rest) = .ok trees) :
    ReadsOff config source (l :: rest) (numeralsOf trees) := by
  obtain ⟨atom, r, p, span, back, hnum, hr, hbuilt, hsplit⟩ :=
    exists_parts (stack.headD .root).digitBase before rest hnumber
  obtain ⟨middle, front, back', ⟨leaf, hleaf⟩, hcut⟩ :=
    exists_cut_number (stack.headD .root).digitBase before hrow hbody hnumber
  have hback := length_number_le (stack.headD .root).digitBase before l rest
  rw [ofLexemes_number hnumber, hnum] at h
  rw [hnum] at hback
  cases hnum.symm.trans hleaf
  obtain ⟨more, hmore, h⟩ := bind_ok_iff.mp h
  cases h
  -- The parts are the lexemes that the number is cut off with.
  have hfront : p.lexemes = front := List.append_cancel_right (hsplit.trans hcut.eq)
  subst hfront
  rw [← hsplit] at htakes ⊢
  obtain ⟨hparts, hbehind⟩ := htakes.of_append_plain hbuilt.plain
  have hnumerals : numeralsOf (.leaf (.atom atom) ⟨start, middle⟩ :: more) =
      [(r, ⟨start, middle⟩)] ++ numeralsOf more := by
    rw [numeralsOf, numerals, hr]
    rfl
  rw [hnumerals]
  exact (ReadsOff.single hbuilt hparts hcut.tiles).append
    (ih none (Nat.le_trans hback hlen) hkind hcut.body hcut.row hbehind hmore)

/-- **A pair and the items behind it.** -/
theorem readsOff_pair (ihitems : ItemsRead config source n) (ihpieces : PiecesRead config source n)
    (hlenInner : inner.length ≤ n) (hlenRest : rest.length ≤ n) (hkind : kind.isExpression = true)
    (hlegal : opener.kind.isLegalIn kind = true)
    (hc : Scan.context? opener.kind opener.place opener.text = some c)
    (hencloses : opener.token.Encloses source closer.token)
    (hpartner : opener.partner = some closer.place)
    (hplace : closer.place = opener.place + inner.length + 1)
    (hinner : Body source true c.kind inner) (hrest : Body source ended kind rest)
    (hrow : Row none start stop (opener :: (inner ++ closer :: rest)))
    (htakes : TakesEach config source stack (opener :: (inner ++ closer :: rest)))
    (h : ofLexemes (stack.headD .root).digitBase before (opener :: (inner ++ closer :: rest)) =
      .ok trees) :
    ReadsOff config source (opener :: (inner ++ closer :: rest)) (numeralsOf trees) := by
  obtain ⟨-, -, -, -, -, hinside, hbehind⟩ := hrow.of_pair hencloses
  obtain ⟨htakesInner, htakesRest⟩ := htakes.of_pair hc hencloses hinner
  have henclosed := Lexeme.enclosed?_of_pair rest hpartner hplace
  rcases TokenKind.opener_of_isExpression hkind hlegal (Scan.isOpener_of_context? hc) with
    ⟨hblock, hne⟩ | hstring | hbased
  · rw [ofLexemes_block hblock hne henclosed, Scan.digitBase_of_context? hblock hc] at h
    obtain ⟨delimiters, -, h⟩ := bind_ok_iff.mp h
    obtain ⟨items, hitems, h⟩ := bind_ok_iff.mp h
    obtain ⟨more, hmore, h⟩ := bind_ok_iff.mp h
    cases h
    exact .pair hencloses
      (ihitems (some opener) hlenInner (TokenKind.isExpression_of_opensBlock hblock hc) hinner hinside
        htakesInner hitems)
      (ihitems _ hlenRest hkind hrest hbehind htakesRest hmore)
  · rw [ofLexemes_string hstring, stringBody_of_pair hpartner hplace] at h
    obtain ⟨pieces, hpieces, h⟩ := bind_ok_iff.mp h
    obtain ⟨more, hmore, h⟩ := bind_ok_iff.mp h
    cases h
    rw [numeralsOf, numerals_ofPieces]
    exact .pair hencloses
      (ihpieces hlenInner (TokenKind.kind_of_opensString hstring hc) hinner hinside htakesInner hpieces)
      (ihitems _ hlenRest hkind hrest hbehind htakesRest hmore)
  · rw [ofLexemes_basedString hbased henclosed] at h
    obtain ⟨more, hmore, h⟩ := bind_ok_iff.mp h
    cases h
    rw [hbased] at hc
    cases hc
    exact .pair hencloses (.of_filter_eq_nil hinner.filter_isNumeral_eq_nil)
      (ihitems _ hlenRest hkind hrest hbehind htakesRest hmore)

/-- **A string that nothing ends.** -/
theorem readsOff_unended (ih : PiecesRead config source n) (hlen : inner.length ≤ n)
    (hkind : opener.kind = .restOfFileOpener ∨ opener.kind = .rawRestOfFileOpener)
    (hc : Scan.context? opener.kind opener.place opener.text = some c)
    (hpartner : opener.partner = none) (hinner : Body source true c.kind inner)
    (hrow : Row none start stop (opener :: inner))
    (htakes : TakesEach config source stack (opener :: inner))
    (h : ofLexemes base before (opener :: inner) = .ok trees) :
    ReadsOff config source (opener :: inner) (numeralsOf trees) := by
  have hstring : opener.kind.opensString = true := by
    rcases hkind with hkind | hkind <;> rw [hkind] <;> rfl
  have hne : some opener.kind ≠ some .number := by
    rcases hkind with hkind | hkind <;> rw [hkind] <;> decide
  obtain ⟨-, -, -, hinside⟩ := hrow.of_cons
  have htakesInner := (List.forall_mem_cons.mp htakes).2
  rw [Lexeme.behind_opener stack hc] at htakesInner
  rw [ofLexemes_string hstring, stringBody_of_unended hpartner] at h
  obtain ⟨pieces, hpieces, h⟩ := bind_ok_iff.mp h
  obtain ⟨more, hmore, h⟩ := bind_ok_iff.mp h
  cases h
  rw [ofLexemes] at hmore
  cases hmore
  rw [numeralsOf, numerals_ofPieces, numeralsOf, List.append_nil]
  exact (ih hlen (TokenKind.kind_of_opensString hstring hc) hinner (hinside.forget_of_ne hne) htakesInner
    hpieces).cons (TokenKind.isNumeral_eq_false_of_isOpener (Scan.isOpener_of_context? hc))

/-- **The first of several items.** -/
theorem itemsRead_succ (ihitems : ItemsRead config source n) (ihpieces : PiecesRead config source n) :
    ItemsRead config source (n + 1) := by
  intro ended kind start stop ls stack trees before hlen hkind hbody hrow htakes h
  cases hbody with
  | nil =>
    rw [ofLexemes] at h
    cases h
    exact .of_filter_eq_nil rfl
  | @plain _ _ l rest hlegal hopener hcloser hrest =>
    have hlen : rest.length ≤ n := Nat.le_of_succ_le_succ hlen
    rcases TokenKind.plain_of_isExpression hkind hlegal hopener hcloser with hplain | hplain | hplain
    · obtain ⟨tree, more, htree, rfl, hmore⟩ := of_ofLexemes_plain hplain h
      obtain ⟨-, -, -, hbehind⟩ := hrow.of_cons
      have hl : l.kind.isNumeral = false ∧ some l.kind ≠ some .number := by
        generalize l.kind = k at hplain
        revert hplain
        cases k <;> decide
      rw [numeralsOf, htree, List.nil_append]
      exact (ihitems _ hlen hkind hrest (hbehind.forget_of_ne hl.2)
        (htakes.of_cons_plain hopener hcloser).2 hmore).cons hl.1
    · exact readsOff_number ihitems hlen hkind hplain (.plain hlegal hopener hcloser hrest) hrow htakes h
    · -- An exponent stands behind a number, which has taken it.
      exact absurd (hrow.exponents.1 hplain) (by decide)
  | pair hlegal hc hencloses hpartner hplace hinner hrest =>
    rw [List.length_cons, List.length_append, List.length_cons] at hlen
    exact readsOff_pair ihitems ihpieces (by omega) (by omega) hkind hlegal hc hencloses hpartner hplace
      hinner hrest hrow htakes h
  | unended hopens hc hpartner hinner =>
    exact readsOff_unended ihpieces (Nat.le_of_succ_le_succ hlen) hopens hc hpartner hinner hrow htakes h

/-- **The first of several pieces.** -/
theorem piecesRead_succ (ihitems : ItemsRead config source n) (ihpieces : PiecesRead config source n) :
    PiecesRead config source (n + 1) := by
  intro kind start stop ls stack pieces hlen hkind hbody hrow htakes h
  cases hbody with
  | nil =>
    rw [piecesOf] at h
    cases h
    exact .of_filter_eq_nil rfl
  | @plain _ _ l rest hlegal hopener hcloser hrest =>
    have hlen : rest.length ≤ n := Nat.le_of_succ_le_succ hlen
    obtain ⟨-, -, hmatched, hbehind⟩ := hrow.of_cons
    have hplain := TokenKind.plain_of_string hkind hlegal hopener hcloser
    have hl : l.kind.isNumeral = false ∧ some l.kind ≠ some .number := by
      rcases hplain with hplain | hplain | hplain <;> rw [hplain] <;> decide
    obtain ⟨x, -, heq⟩ := piecesOf_plain rest hmatched hplain
    rw [heq] at h
    obtain ⟨t, -, h⟩ := bind_ok_iff.mp h
    obtain ⟨more, hmore, h⟩ := bind_ok_iff.mp h
    cases h
    exact (ihpieces hlen hkind hrest (hbehind.forget_of_ne hl.2)
      (htakes.of_cons_plain hopener hcloser).2 hmore).cons hl.1
  | @pair _ _ opener closer inner rest c hlegal hc hencloses hpartner hplace hinner hrest =>
    obtain ⟨-, -, -, -, -, hinside, hbehind⟩ := hrow.of_pair hencloses
    obtain ⟨htakesInner, htakesRest⟩ := htakes.of_pair hc hencloses hinner
    have hopens := TokenKind.opener_of_string hkind hlegal (Scan.isOpener_of_context? hc)
    have hblock : opener.kind.opensBlock = true := by
      rcases hopens with hopens | hopens <;> rw [hopens] <;> rfl
    rw [List.length_cons, List.length_append, List.length_cons] at hlen
    rw [piecesOf_hole hopens (Lexeme.enclosed?_of_pair rest hpartner hplace),
      Scan.digitBase_of_context? hblock hc] at h
    obtain ⟨delimiters, -, h⟩ := bind_ok_iff.mp h
    obtain ⟨items, hitems, h⟩ := bind_ok_iff.mp h
    obtain ⟨more, hmore, h⟩ := bind_ok_iff.mp h
    cases h
    have hnumerals : pieceNumerals ((if opener.kind = .holeEscape
        then Piece.escape delimiters (blockBase? opener) items
        else Piece.block delimiters (blockBase? opener) items) :: more) =
        numeralsOf items ++ pieceNumerals more := by
      split <;> rfl
    rw [hnumerals]
    exact .pair hencloses
      (ihitems (some opener) (by omega) (TokenKind.isExpression_of_opensBlock hblock hc) hinner hinside
        htakesInner hitems)
      (ihpieces (by omega) hkind hrest hbehind htakesRest hmore)

/-- **What is made of lexemes reads its numbers off them.** -/
theorem read (config : LexerConfig) (source : Text) (n : Nat) :
    ItemsRead config source n ∧ PiecesRead config source n := by
  -- Items hold pieces and pieces hold items, so both go by the number of lexemes.
  induction n with
  | zero =>
    constructor
    · intro ended kind start stop ls stack trees before hlen hkind hbody hrow htakes h
      rw [List.length_eq_zero_iff.mp (Nat.le_zero.mp hlen)] at h ⊢
      rw [ofLexemes] at h
      cases h
      exact .of_filter_eq_nil rfl
    · intro kind start stop ls stack pieces hlen hkind hbody hrow htakes h
      rw [List.length_eq_zero_iff.mp (Nat.le_zero.mp hlen)] at h ⊢
      rw [piecesOf] at h
      cases h
      exact .of_filter_eq_nil rfl
  | succ n ih => exact ⟨itemsRead_succ ih.1 ih.2, piecesRead_succ ih.1 ih.2⟩

end Tree

/-! ## §4 Whole sources -/

/-- **The items of a scan read their numbers off its tokens.** -/
theorem TokenList.readsOff {config : LexerConfig} {source : Text} {out : Tokenized} {trees : List Tree}
    (h : tokenize config source = .ok out) (htrees : out.tokens.trees source = .ok trees) :
    ReadsOff config source (out.tokens.lexemes source) (Tree.numeralsOf trees) := by
  obtain ⟨hitems, -⟩ := Tree.read config source (out.tokens.lexemes source).length
  exact hitems none (Nat.le_refl _) rfl (Scan.body_of_tokenize h) (Scan.row_of_tokenize h)
    (Scan.takesEach_of_tokenize h) htrees

namespace Source

/-- **Items and tokens agree on the bases of numbers.** The number literals of a source, at any depth, are
read in order from number and exponent tokens, and each of these tokens is a part of one literal. A scan
takes the parts of a literal in one context, that on top of its stack. The whole part and the power of an
exponent have the base in which the scan takes their digits: that of their lead, or else that of the
context. -/
theorem lex_numerals (config : LexerConfig) (s : Source) (l : Lexed) (h : s.lex config = .ok l) :
    ∃ parts : List RealLit.Parts,
      List.Forall₂ (fun n p => ∃ context, n.1.ReadFrom config s.text context n.2 p)
        (Tree.numeralsOf l.trees) parts ∧
      (parts.flatMap (·.lexemes)).filter (·.kind.isNumeral) =
        (l.tokens.lexemes s.text).filter (·.kind.isNumeral) := by
  obtain ⟨-, out, trees, hout, htrees, rfl⟩ := lex_ok_iff.mp h
  exact TokenList.readsOff hout htrees

/-- Numbers in a block with a base, in the holes of a string inside of it, in type parameters and in
parentheses, and a power with a base of its own. -/
theorem lex_numerals_of_nested :
    let s : Source := ⟨['0', 'x', '[', '1', 'a', ' ', '"', '\x7b', '2', '\x7d', '\\', 'u', '\x7b', '1', 'b',
      '\x7d', '"', '<', '3', '>', '(', '4', 'p', '0', 'b', '1', '1', ')', ']'], none⟩
    ∃ l, s.lex default = .ok l ∧
      (Tree.numeralsOf l.trees).map (fun n => (n.1.whole.base, n.1.exponent.map (·.power.base))) =
        [(.hexadecimal, none), (.decimal, none), (.hexadecimal, none), (.decimal, none),
          (.decimal, some .binary)] ∧
      ∃ parts : List RealLit.Parts,
        List.Forall₂ (fun n p => ∃ context, n.1.ReadFrom default s.text context n.2 p)
          (Tree.numeralsOf l.trees) parts ∧
        (parts.flatMap (·.lexemes)).filter (·.kind.isNumeral) =
          (l.tokens.lexemes s.text).filter (·.kind.isNumeral) := by
  intro s
  have hrun : (s.lex default).toOption.map (fun l =>
      (Tree.numeralsOf l.trees).map (fun n => (n.1.whole.base, n.1.exponent.map (·.power.base)))) =
      some [(.hexadecimal, none), (.decimal, none), (.hexadecimal, none), (.decimal, none),
        (.decimal, some .binary)] := by decide +kernel
  obtain ⟨l, hl, hbases⟩ := Option.map_eq_some_iff.mp hrun
  have hl := toOption_eq_some_iff.mp hl
  exact ⟨l, hl, hbases, lex_numerals default s l hl⟩

end Source

end DewyFront
