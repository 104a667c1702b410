/-
# DewyFront.Proofs.Inventory — no item is lost between the items of a source and its chains

Read off in order, the chains of a source are written with the signs of its items, each once: grouping
takes its words from the front, a word is written like its item, and settling writes what it was given.
Only the bounds that a range lacks are added, and these take no bytes, which every item of a source
does.

* §1 words;
* §2 items;
* §3 items of a source take bytes;
* §4 sources.
-/
import DewyFront.Proofs.Admission
import DewyFront.Proofs.Covering
import DewyFront.Proofs.Depth
import DewyFront.Proofs.Readiness
import DewyFront.Source.Parsed

namespace DewyFront

namespace Chain

variable {c : Cursor} {chains : List Chain} {words : List Word} {read : Op → List Sign}

/-! ## §1 Words -/

theorem signsAll_ofWords (h : ofWords words = .ok chains) : (∀ word ∈ words, word.IsTaken) ∧
    ∀ read, signsAll read chains = words.flatMap (Word.signs read) :=
  ((ofWords_ok_iff words .nowhere).mp h).signsAll_eq

/-! ## §2 Items -/

theorem signs_leafWord {l : Leaf} {span : Span} (h : (leafWord l span).IsTaken) :
    (leafWord l span).signs Op.signs = Tree.leafSigns span l := by
  cases l with
  | atom a => cases a <;> simp [leafWord, Word.signs, operandSigns, atomSigns, Tree.leafSigns, Op.signs]
  | trivia | backtick | marker m => exact h.elim
  | _ => rfl

/-- The signs of chains that are made of items. -/
theorem signsAll_of_wordsOf {items : List Tree} (h : ofWords (wordsOf items) = .ok chains)
    (hitems : (∀ word ∈ wordsOf items, word.IsTaken) →
      (wordsOf items).flatMap (Word.signs Op.signs) = Tree.signsAll items) :
    signsAll Op.signs chains = Tree.signsAll items := by
  obtain ⟨htaken, hwritten⟩ := signsAll_ofWords h
  exact (hwritten Op.signs).trans (hitems htaken)

mutual
/-- **A word that grouping takes is written like its item.** -/
theorem signs_wordOf : ∀ {item : Tree}, (wordOf item).IsTaken →
    (wordOf item).signs Op.signs = item.signs
  | .leaf l span, h => by
    rw [wordOf] at h ⊢
    exact signs_leafWord h
  | .block kind base inner span, h => by
    rw [wordOf] at h ⊢
    obtain ⟨o, ho⟩ := h
    obtain ⟨chains, hchains, rfl⟩ := map_ok_iff.mp ho
    rw [ho, Word.signs, operandSigns, Tree.signs, signsAll_of_wordsOf hchains signs_wordsOf]
  | .istring pieces span, h => by
    rw [wordOf] at h ⊢
    obtain ⟨o, ho⟩ := h
    obtain ⟨found, hfound, rfl⟩ := map_ok_iff.mp ho
    rw [ho, Word.signs, operandSigns, Tree.signs, pieceSigns_piecesOf span hfound]
theorem signs_wordsOf : ∀ {items : List Tree}, (∀ word ∈ wordsOf items, word.IsTaken) →
    (wordsOf items).flatMap (Word.signs Op.signs) = Tree.signsAll items
  | [], _ => by
    rw [wordsOf, Tree.signsAll, List.flatMap_nil]
  | item :: rest, h => by
    rw [wordsOf] at h ⊢
    obtain ⟨hitem, hrest⟩ := List.forall_mem_cons.mp h
    rw [List.flatMap_cons, Tree.signsAll, signs_wordOf hitem, signs_wordsOf hrest]
theorem pieceSigns_piecesOf (span : Span) : ∀ {pieces : List Tree.Piece} {found : List Piece},
    piecesOf span pieces = .ok found → pieceSigns Op.signs found = Tree.pieceSigns pieces
  | [], found, h => by
    rw [piecesOf] at h
    cases h
    rw [pieceSigns, Tree.pieceSigns]
  | .text t :: rest, found, h => by
    rw [piecesOf] at h
    obtain ⟨more, hmore, h⟩ := bind_ok_iff.mp h
    cases h
    rw [pieceSigns, Tree.pieceSigns, pieceSigns_piecesOf span hmore]
  | .block kind base inner :: rest, found, h => by
    rw [piecesOf] at h
    obtain ⟨chains, hchains, h⟩ := bind_ok_iff.mp h
    obtain ⟨more, hmore, h⟩ := bind_ok_iff.mp h
    cases h
    rw [pieceSigns, Tree.pieceSigns, signsAll_of_wordsOf hchains signs_wordsOf,
      pieceSigns_piecesOf span hmore]
  | .escape kind base inner :: rest, found, h => by
    rw [piecesOf] at h
    obtain ⟨chains, hchains, h⟩ := bind_ok_iff.mp h
    obtain ⟨more, hmore, h⟩ := bind_ok_iff.mp h
    cases h
    rw [pieceSigns, Tree.pieceSigns, operandSigns, signsAll_of_wordsOf hchains signs_wordsOf,
      pieceSigns_piecesOf span hmore]
    · simp
    · exact fun _ _ _ h => by cases h
end

/-- **The chains of some items are written like the items.** -/
theorem signsAll_ofTrees {items : List Tree} (h : ofTrees items = .ok chains) :
    signsAll Op.signs chains = Tree.signsAll items :=
  signsAll_of_wordsOf h signs_wordsOf

end Chain

namespace Tree

/-! ## §3 Bytes -/

theorem lt_of_mem_tiles {start stop : Nat} {spans : List Span} (h : Span.Tiles start stop spans)
    {s : Span} (hmem : s ∈ spans) : s.start < s.stop := by
  induction spans generalizing start with
  | nil => cases hmem
  | cons first spans ih =>
    obtain ⟨rfl, hlt, hrest⟩ := h
    rcases List.mem_cons.mp hmem with rfl | hmem
    · exact hlt
    · exact ih hrest hmem

theorem isWritten_atom (a : Atom) {span : Span} (h : span.start < span.stop) :
    Sign.isWritten (.atom a span) = true := by
  simp [Sign.isWritten, Span.isEmpty, Nat.ne_of_lt h]

/-- A leaf that takes bytes is written. -/
theorem isWritten_leafSigns {l : Leaf} {span : Span} (h : span.start < span.stop) :
    ∀ sign ∈ leafSigns span l, sign.isWritten = true := by
  intro sign hsign
  cases l with
  | trivia | marker m => cases hsign
  | operator op => exact Op.isWritten_of_mem hsign
  | atom a =>
    cases a with
    | operator op => exact Op.isWritten_of_mem hsign
    | _ =>
      obtain rfl := List.mem_singleton.mp hsign
      exact isWritten_atom _ h
  | _ =>
    obtain rfl := List.mem_singleton.mp hsign
    rfl

mutual
/-- **Items that fill the bytes of a source are written.** -/
theorem isWritten_of_liesOn : ∀ {tree : Tree} {ls : List Lexeme}, tree.LiesOn ls →
    tree.span.start < tree.span.stop → ∀ sign ∈ tree.signs, sign.isWritten = true
  | _, _, .leaf _, hlt => isWritten_leafSigns hlt
  | _, _, .block _ htiles hinner, _ => by
    -- The items inside tile the bytes between the delimiters, so each of them takes some.
    have hall := isWritten_of_treesLieOn hinner fun tree htree =>
      lt_of_mem_tiles htiles (List.mem_map_of_mem htree)
    intro sign hsign
    rw [signs, List.mem_cons, List.mem_append, List.mem_singleton] at hsign
    rcases hsign with rfl | hsign | rfl
    · rfl
    · exact hall sign hsign
    · rfl
  | _, _, .istring _ hpieces, _ => by
    have hall := isWritten_of_piecesLieOn hpieces
    intro sign hsign
    rw [signs, List.mem_cons, List.mem_append, List.mem_singleton] at hsign
    rcases hsign with rfl | hsign | rfl
    · rfl
    · exact hall sign hsign
    · rfl
theorem isWritten_of_treesLieOn : ∀ {trees : List Tree} {ls : List Lexeme}, TreesLieOn trees ls →
    (∀ tree ∈ trees, tree.span.start < tree.span.stop) →
      ∀ sign ∈ signsAll trees, sign.isWritten = true
  | _, _, .nil, _ => by
    rw [signsAll]
    exact fun _ h => by cases h
  | _, _, .cons _ htree hrest, hlt => by
    obtain ⟨hfirst, hmore⟩ := List.forall_mem_cons.mp hlt
    rw [signsAll]
    exact List.forall_mem_append.mpr
      ⟨isWritten_of_liesOn htree hfirst, isWritten_of_treesLieOn hrest hmore⟩
theorem isWritten_of_piecesLieOn : ∀ {pieces : List Piece} {ls : List Lexeme},
    PiecesLieOn pieces ls → ∀ sign ∈ pieceSigns pieces, sign.isWritten = true
  | _, _, .nil => by
    rw [pieceSigns]
    exact fun _ h => by cases h
  | _, _, .plain _ hrest => isWritten_of_piecesLieOn hrest
  | _, _, .text hrest => by
    rw [pieceSigns]
    exact List.forall_mem_cons.mpr ⟨rfl, isWritten_of_piecesLieOn hrest⟩
  | _, _, @PiecesLieOn.hole opener _ _ _ _ _ _ _ _ htiles hinner hrest => by
    have hall := isWritten_of_treesLieOn hinner fun tree htree =>
      lt_of_mem_tiles htiles (List.mem_map_of_mem htree)
    have hmore := isWritten_of_piecesLieOn hrest
    by_cases hkind : opener.kind = .holeEscape
    · rw [if_pos hkind, pieceSigns]
      exact List.forall_mem_cons.mpr ⟨rfl, List.forall_mem_append.mpr
        ⟨hall, List.forall_mem_cons.mpr ⟨rfl, hmore⟩⟩⟩
    · rw [if_neg hkind, pieceSigns]
      exact List.forall_mem_cons.mpr ⟨rfl, List.forall_mem_append.mpr
        ⟨hall, List.forall_mem_cons.mpr ⟨rfl, hmore⟩⟩⟩
end

end Tree

/-! ## §4 Sources -/

/-- Every item of a source takes bytes. -/
theorem Lexed.isWritten {lexer : LexerConfig} {s : Source} {l : Lexed} (h : s.lex lexer = .ok l) :
    ∀ sign ∈ Tree.signsAll l.trees, sign.isWritten = true := by
  obtain ⟨-, out, trees, hout, htrees, rfl⟩ := Source.lex_ok_iff.mp h
  obtain ⟨hcover, -⟩ := Tree.cover s.text (out.tokens.lexemes s.text).length
  rcases hcover .decimal none (Nat.le_refl _) rfl (Scan.body_of_tokenize hout)
    (Scan.row_of_tokenize hout) with ⟨found, hfound, htiles, hlie⟩ | ⟨span, digits, hrefused⟩
  · cases hfound.symm.trans htrees
    exact Tree.isWritten_of_treesLieOn hlie fun tree htree =>
      Tree.lt_of_mem_tiles htiles (List.mem_map_of_mem htree)
  · cases hrefused.symm.trans htrees

/-- **No item is lost between a source and its chains.** The chains are written with the signs of the
items, each once and in order; what they have besides are bounds that no byte stands for. -/
theorem Lexed.signsAll_chains {lexer : LexerConfig} {s : Source} {l : Lexed} {chains : List Chain}
    (hl : s.lex lexer = .ok l) (hchains : l.chains = .ok chains) :
    (Chain.signsAll Op.signs chains).filter Sign.isWritten = Tree.signsAll l.trees := by
  obtain ⟨items, hitems, hchains⟩ := bind_ok_iff.mp hchains
  rw [Chain.signsAll_ofTrees (mapError_ok_iff.mp hchains),
    Tree.signsAll_settle (mapError_ok_iff.mp hitems)]
  exact List.filter_eq_self.mpr (Lexed.isWritten hl)

/-- An inverted comparison in a condition, a range without its end, and an operator that is assigned
with: of the eighteen signs only the end of the range is not written. -/
theorem Lexed.signsAll_chains_of_flow :
    let s : Source := ⟨['i', 'f', ' ', 'a', ' ', 'n', 'o', 't', ' ', '=', '?', ' ', 'b', ' ', '(', '0',
      '.', '.', ')', ' ', 'e', 'l', 's', 'e', ' ', 'x', '*', '-', 'y', '+', '=', '1'], none⟩
    ∃ l chains, s.lex default = .ok l ∧ l.chains = .ok chains ∧
      (Chain.signsAll Op.signs chains).length = 18 ∧ (Tree.signsAll l.trees).length = 17 ∧
      (Chain.signsAll Op.signs chains).filter Sign.isWritten = Tree.signsAll l.trees := by
  intro s
  have hsome : ((s.lex default).toOption.bind fun l => l.chains.toOption.map fun chains =>
      ((Chain.signsAll Op.signs chains).length, (Tree.signsAll l.trees).length)) =
        some (18, 17) := by
    decide +kernel
  obtain ⟨l, hl, hsome⟩ := Option.bind_eq_some_iff.mp hsome
  obtain ⟨chains, hchains, hlengths⟩ := Option.map_eq_some_iff.mp hsome
  injection hlengths with hlength htrees
  have hl := toOption_eq_some_iff.mp hl
  have hchains := toOption_eq_some_iff.mp hchains
  exact ⟨l, chains, hl, hchains, hlength, htrees, Lexed.signsAll_chains hl hchains⟩

end DewyFront
