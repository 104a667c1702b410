/-
# DewyFront.Proofs.Wrapping — a source between delimiters

A source between delimiters is a block of what the source is: its tokens are those of the source between
those of the delimiters, they make one item, and the item makes one expression. Inside it everything is as
it was, one byte later, and so are the warnings.

* §1 lexemes between delimiters;
* §2 the item that they make;
* §3 from the item to the expression;
* §4 whole sources.
-/
import DewyFront.Proofs.Admission
import DewyFront.Proofs.Enclosing
import DewyFront.Proofs.MovedChains
import DewyFront.Proofs.MovedItems
import DewyFront.Proofs.MovedLexemes
import DewyFront.Proofs.MovedReadings
import DewyFront.Proofs.Runs
import DewyFront.Source.Parsed

namespace DewyFront

theorem strictMono_succ : StrictMono (· + 1 : Nat → Nat) := fun _ _ => Nat.succ_lt_succ

/-! ## §1 Lexemes -/

/-- **`Relocation.next`** — one place and one byte later. -/
def Relocation.next : Relocation := ⟨(· + 1), 1, id, strictMono_succ, fun _ _ => rfl⟩

theorem Lexeme.move_next (l : Lexeme) : l.move .next =
    ⟨l.place + 1, l.kind, l.span.move (· + 1), l.partner.map (· + 1), l.text⟩ := by
  have htext : (if l.kind.isTrivia then id l.text else l.text) = l.text := ite_self _
  rw [move]
  exact congrArg _ htext

/-- A token of a text has the same text where the text comes one byte later. -/
theorem Token.text_shift {t : Token} {front lexeme back : Text} {o : Char}
    (hspan : t.span = ⟨width front, width front + width lexeme⟩) (ho : o.utf8Size = 1) (c : Char) :
    t.shift.text (o :: (front ++ (lexeme ++ back) ++ [c])) = t.text (front ++ (lexeme ++ back)) := by
  have hwidth : width (o :: front) = width front + 1 := by rw [width_cons, ho, Nat.add_comm]
  have hslice := slice_width (o :: front) lexeme (back ++ [c])
  rw [hwidth, Nat.add_right_comm] at hslice
  rw [text, text, shift, hspan, slice_width]
  rw [List.append_assoc, List.append_assoc]
  exact hslice

namespace Scan

variable {config : LexerConfig} {source : Text} {out : Tokenized}

/-- Every token of a source covers some text of it. -/
theorem exists_span_of_mem (h : tokenize config source = .ok out) {t : Token}
    (ht : t ∈ out.tokens.toList) : ∃ front lexeme back, source = front ++ (lexeme ++ back) ∧
      t.span = ⟨width front, width front + width lexeme⟩ := by
  -- The token begins where a scan has read the text before it.
  obtain ⟨htiles, hlongest⟩ := tiles_of_tokenize h
  obtain ⟨earlier, later, heq⟩ := List.append_of_mem ht
  obtain ⟨rest, hrest⟩ := hlongest earlier t later heq
  rw [heq, List.map_append, List.map_cons] at htiles
  obtain ⟨middle, -, hstart, hlt, -⟩ := Span.tiles_append.mp htiles
  obtain ⟨front, hsource, hfront⟩ := hrest.stands
  obtain ⟨n, -, hwidth⟩ := hrest.taken
  refine ⟨front, rest.take n, rest.drop n, by rw [List.take_append_drop, hsource], ?_⟩
  have hstop : t.span.start + t.span.size = t.span.stop := by
    rw [Span.size]
    omega
  rw [hfront, hwidth, hstop]

end Scan

namespace TokenList

variable {source source' : Text}

theorem lexemes_enclose (kind : TokenKind) (l : TokenList)
    (htext : ∀ t ∈ l.toList, t.shift.text source' = t.text source) :
    (l.enclose kind).lexemes source' =
      ⟨0, kind, ⟨0, 1⟩, none, Span.slice ⟨0, 1⟩ source'⟩ :: (l.lexemes source).map (Lexeme.move .next) := by
  apply List.ext_getElem?
  intro i
  cases i with
  | zero =>
    rw [getElem?_lexemes, get?_enclose_zero]
    rfl
  | succ i =>
    rw [getElem?_lexemes, get?_enclose_succ, List.getElem?_cons_succ, List.getElem?_map,
      getElem?_lexemes]
    cases hget : l.get? i with
    | none => rfl
    | some t =>
      have hmem : t ∈ l.toList := List.mem_of_getElem? ((getElem?_toList l i).trans hget)
      rw [Option.map_some, Option.map_some, Option.map_some, Option.map_some, lexeme, lexeme,
        htext t hmem, Lexeme.move_next]
      rfl

end TokenList

/-- The opener of a block that holds so many lexemes, at the start of a source. -/
def Delimiters.openerLexeme (d : Delimiters) (n : Nat) : Lexeme :=
  ⟨0, d.openerKind, ⟨0, 1⟩, some (n + 1), [d.opener]⟩

/-- The closer of that block, behind so many bytes. -/
def Delimiters.closerLexeme (d : Delimiters) (n stop : Nat) : Lexeme :=
  ⟨n + 1, d.closerKind, ⟨stop + 1, stop + 2⟩, some 0, [d.closer]⟩

/-- **The lexemes of a text between delimiters** are those of the text, later, between those of the
delimiters. -/
theorem lexemes_wrapped {config : LexerConfig} {source : Text} {out : Tokenized} (d : Delimiters)
    (h : tokenize config source = .ok out) :
    (((out.tokens.enclose d.openerKind).push d.closerKind
      ⟨width source + 1, width source + 2⟩).pair 0 (out.tokens.size + 1)).lexemes
        (d.opener :: (source ++ [d.closer])) =
      d.openerLexeme out.tokens.size :: ((out.tokens.lexemes source).map (Lexeme.move .next) ++
        [d.closerLexeme out.tokens.size (width source)]) := by
  have ho : d.opener.utf8Size = 1 := by cases d <;> rfl
  have hc : width [d.closer] = 1 := by cases d <;> rfl
  have htext : ∀ t ∈ out.tokens.toList,
      t.shift.text (d.opener :: (source ++ [d.closer])) = t.text source := by
    intro t ht
    obtain ⟨front, lexeme, back, rfl, hspan⟩ := Scan.exists_span_of_mem h ht
    exact Token.text_shift hspan ho d.closer
  have hopener : Span.slice ⟨0, 1⟩ (d.opener :: (source ++ [d.closer])) = [d.opener] := by
    have hslice := slice_width [] [d.opener] (source ++ [d.closer])
    rw [width_nil, width_cons, width_nil, ho] at hslice
    exact hslice
  have hcloser : Span.slice ⟨width source + 1, width source + 2⟩ (d.opener :: (source ++ [d.closer])) =
      [d.closer] := by
    have hslice := slice_width (d.opener :: source) [d.closer] []
    rw [width_cons, ho, hc, Nat.add_comm 1 (width source)] at hslice
    exact hslice
  have hpush := TokenList.lexemes_push (out.tokens.enclose d.openerKind)
    (d.opener :: (source ++ [d.closer])) d.closerKind ⟨width source + 1, width source + 2⟩
  rw [TokenList.lexemes_enclose _ _ htext, TokenList.size_enclose, hopener, hcloser] at hpush
  -- The partner of the opener is named first, then that of the closer.
  have hfront : _ = [] ++ _ :: (_ ++ [_]) := hpush
  have hpaired := TokenList.lexemes_setPartner (out.tokens.size + 1) hfront
  have hback : _ = d.openerLexeme out.tokens.size :: (out.tokens.lexemes source).map (Lexeme.move .next) ++
      [_] := hpaired
  have hboth := TokenList.lexemes_setPartner 0 hback
  rw [List.length_cons, List.length_map, TokenList.length_lexemes] at hboth
  exact hboth

/-! ## §2 The item -/

namespace Tree

variable {config : LexerConfig} {source : Text} {out : Tokenized}

/-- **A text between delimiters makes one item**, the block of what the text makes. -/
theorem trees_wrapped (d : Delimiters) (h : tokenize config source = .ok out) {items : List Tree}
    (hitems : out.tokens.trees source = .ok items) :
    (((out.tokens.enclose d.openerKind).push d.closerKind
      ⟨width source + 1, width source + 2⟩).pair 0 (out.tokens.size + 1)).trees
        (d.opener :: (source ++ [d.closer])) =
      .ok [.block d none (items.map (move (· + 1))) ⟨0, width source + 2⟩] := by
  have hkind : d.openerKind.opensBlock = true ∧ d.openerKind ≠ .holeEscape := by
    cases d <;> decide
  have henclosed : (d.openerLexeme out.tokens.size).enclosed?
      ((out.tokens.lexemes source).map (Lexeme.move .next) ++
        [d.closerLexeme out.tokens.size (width source)]) =
      some ⟨(out.tokens.lexemes source).map (Lexeme.move .next),
        d.closerLexeme out.tokens.size (width source), []⟩ := by
    refine Lexeme.enclosed?_of_pair [] rfl ?_
    rw [List.length_map, TokenList.length_lexemes]
    exact congrArg (· + 1) (Nat.zero_add _).symm
  have hpair : blockKind (d.openerLexeme out.tokens.size)
      (d.closerLexeme out.tokens.size (width source)) = .ok d := by
    cases d <;> rfl
  have hbase : blockBase? (d.openerLexeme out.tokens.size) = none := by
    cases d <;> rfl
  have hdot : (some (d.openerLexeme out.tokens.size)).any Lexeme.isDot = false := by
    cases d <;> rfl
  rw [TokenList.trees, lexemes_wrapped d h, ofLexemes_block hkind.1 hkind.2 henclosed, hpair, hbase]
  show (do
    let inner ← ofLexemes .decimal (some (d.openerLexeme out.tokens.size))
      ((out.tokens.lexemes source).map (Lexeme.move .next))
    return Tree.block d none inner _ :: (← ofLexemes .decimal _ [])) = _
  have hinner : ofLexemes .decimal ((none : Option Lexeme).map (Lexeme.move .next))
      ((out.tokens.lexemes source).map (Lexeme.move .next)) = .ok (items.map (move (· + 1))) :=
    (ofLexemes_move .next .decimal none _).eq_ok hitems
  rw [Option.map_none] at hinner
  rw [ofLexemes_of_not_isDot hdot, hinner, ofLexemes]
  show Except.ok [Tree.block d none (items.map (move (· + 1)))
    (Span.merge ⟨0, 1⟩ ⟨width source + 1, width source + 2⟩)] = _
  rw [Span.merge_eq (Nat.zero_le _) (Nat.succ_le_succ (Nat.zero_le _))]

/-! ## §3 The expression -/

/-- A block of items is settled where the items are. -/
theorem settle_block {d : Delimiters} {items settled : List Tree} (h : settle items = .ok settled)
    (span : Span) : settle [.block d none items span] = .ok [.block d none settled span] := by
  obtain ⟨inside, hinside, h⟩ := bind_ok_iff.mp h
  have hblock : settleInside (.block d none items span) = .ok (.block d none settled span) := by
    rw [settleInside, hinside]
    show (do return Tree.block d none (← settleLevel inside) span) = _
    rw [h]
    rfl
  rw [settle, settleInsideAll, hblock, settleInsideAll]
  rfl

end Tree

/-- A block of items is a chain of its own. -/
theorem Chain.ofTrees_block {d : Delimiters} {items : List Tree} {chains : List Chain}
    (h : ofTrees items = .ok chains) (span : Span) :
    ofTrees [.block d none items span] = .ok [[.operand (.block d none chains) span]] := by
  have hwords : ofWords (wordsOf items) = .ok chains := h
  rw [ofTrees, wordsOf, wordOf, hwords, wordsOf]
  rfl

/-- A single node is read as it is. -/
theorem Reading.reduce_node (limit : Nat) (span : Span) (e : Expr) :
    reduce limit span [.node e] = .ok e := by
  rw [reduce, readings, readingsFor, run_of_runs .refl (ends_node e)]
  rfl

namespace Expr

variable {config : ParseConfig}

/-- The expression of a block holds those of its chains. -/
theorem ofChain_block {d : Delimiters} {chains : List Chain} {es : List Expr}
    (h : ofChains config.maxReadings chains = .ok es) (span : Span) :
    ofChain config [.operand (.block d none chains) span] = .ok (.block d none es span) := by
  have hshape : Chain.checkShape [.operand (.block d none chains) span] = .ok span := by
    have hspan : span.merge span = span := Span.merge_eq (Nat.le_refl _) (Nat.le_refl _)
    show (do Chain.checkFrom true none _; return span.merge span) = _
    rw [hspan]
    rfl
  have hslots : slotsOf config.maxReadings [.operand (.block d none chains) span] =
      .ok [.node (.block d none es span)] := by
    rw [slotsOf, ofOperand, h, slotsOf]
    rfl
  rw [ofChain, assemble, hshape, hslots]
  show Reading.reduce config.maxReadings span [.node (.block d none es span)] = _
  exact Reading.reduce_node config.maxReadings span _

/-- The expressions of chains none of which is refused. -/
theorem ofChains_of_ofAll {chains : List Chain} {es : List Expr} (h : ofAll config chains = .ok es) :
    ofChains config.maxReadings chains = .ok es := by
  induction chains generalizing es with
  | nil =>
    cases h
    rw [ofChains]
  | cons chain chains ih =>
    rw [ofAll] at h
    cases hfirst : ofChain config chain with
    | error e =>
      -- A refusal stands, whatever becomes of the chains behind.
      rw [hfirst] at h
      cases hrest : ofAll config chains with
      | error e' =>
        rw [hrest] at h
        cases e <;> cases e' <;> cases h
      | ok es' =>
        rw [hrest] at h
        cases e <;> cases h
    | ok e =>
      cases hrest : ofAll config chains with
      | error e' =>
        rw [hfirst, hrest] at h
        cases h
      | ok es' =>
        rw [hfirst, hrest] at h
        cases h
        have hassemble : assemble config.maxReadings chain (slotsOf config.maxReadings chain) = .ok e :=
          hfirst
        rw [ofChains, hassemble, ih hrest]
        rfl

end Expr

/-! ## §4 Whole sources -/

namespace Source

variable {config : ParseConfig} {s : Source} {d : Delimiters}

/-- A source between delimiters. -/
def wrapped (s : Source) (d : Delimiters) : Source :=
  { s with text := d.opener :: (s.text ++ [d.closer]) }

/-- Each of the delimiters takes one byte. -/
theorem size_wrapped (s : Source) (d : Delimiters) : (s.wrapped d).size = s.size + 2 := by
  have hopener : d.opener.utf8Size = 1 := by cases d <;> rfl
  have hcloser : d.closer.utf8Size = 1 := by cases d <;> rfl
  rw [size, wrapped, width_cons, width_append, width_cons, width_nil, hopener, hcloser, size]
  omega

/-- **The lexer gives one block.** -/
theorem lex_wrapped {config : LexerConfig} {l : Lexed} (h : s.lex config = .ok l)
    (hl : l.tokens.SelfContained s.text) (hd : d ≠ .angle) (hsize : s.size + 2 ≤ Span.limit) :
    ∃ tokens, (s.wrapped d).lex config = .ok ⟨tokens,
        [.block d none (l.trees.map (Tree.move (· + 1))) ⟨0, s.size + 2⟩],
        l.loneReturns.map (· + 1)⟩ := by
  obtain ⟨-, out, trees, hout, htrees, rfl⟩ := lex_ok_iff.mp h
  have hmark : (s.wrapped d).hasByteOrderMark = false := by cases d <;> rfl
  have hissues := encodingIssues_eq_nil_iff.mpr ⟨hmark, (size_wrapped s d).trans_le hsize⟩
  have hwrapped : tokenize config (s.wrapped d).text = _ := tokenize_enclose hout hl hd
  exact ⟨_, lex_ok_iff.mpr ⟨hissues, _, _, hwrapped, Tree.trees_wrapped d hout htrees, rfl⟩⟩

/-- The warnings about lone carriage returns are the same, one byte later. -/
theorem loneReturnWarnings_succ (name : Option String) (offsets : List Nat) :
    loneReturnWarnings name (offsets.map (· + 1)) =
      (loneReturnWarnings name offsets).map (Diagnostic.move (· + 1)) := by
  rw [loneReturnWarnings, loneReturnWarnings, List.map_map, List.map_map]
  refine List.map_congr_left fun offset _ => ?_
  exact (Diagnostic.move_attach (· + 1) (loneReturnWarning offset) name).symm

/-- **A source between delimiters is a block of what the source is.** If nothing in a source reads on to
its end, and the delimiters do not make it oversized, the source between delimiters has one item: a block
without a base that holds the items of the source, one byte later. The warnings are the same, one byte
later. -/
theorem parse_wrapped {l : Lexed} {p : Parsed} (hl : s.lex config.lexer = .ok l)
    (hp : s.parse config = .ok p) (hself : l.tokens.SelfContained s.text) (hd : d ≠ .angle)
    (hsize : s.size + 2 ≤ Span.limit) :
    (s.wrapped d).parse config =
      .ok ⟨[.block d none (p.items.map (Expr.move (· + 1))) ⟨0, s.size + 2⟩],
        p.loneReturns.map (· + 1)⟩ ∧
    loneReturnWarnings s.name (p.loneReturns.map (· + 1)) =
      (loneReturnWarnings s.name p.loneReturns).map (Diagnostic.move (· + 1)) := by
  refine ⟨?_, loneReturnWarnings_succ s.name p.loneReturns⟩
  obtain ⟨l', hl', hp⟩ := bind_ok_iff.mp hp
  rw [hl] at hl'
  cases hl'
  obtain ⟨chains, hchains, hp⟩ := bind_ok_iff.mp hp
  obtain ⟨es, hes, hp⟩ := bind_ok_iff.mp hp
  cases hp
  obtain ⟨settled, hsettled, hchains⟩ := bind_ok_iff.mp hchains
  have hchains := mapError_ok_iff.mp hchains
  obtain ⟨tokens, hlex⟩ := lex_wrapped hl hself hd hsize
  -- Everything inside is moved by one byte, stage by stage.
  have hinner : Tree.settle (l.trees.map (Tree.move (· + 1))) =
      .ok (settled.map (Tree.move (· + 1))) := by
    rw [Tree.settle_move strictMono_succ, mapError_ok_iff.mp hsettled, carry_ok]
  have hinside : Chain.ofTrees (settled.map (Tree.move (· + 1))) =
      .ok (chains.map (Chain.move (· + 1))) := by
    rw [Chain.ofTrees_move strictMono_succ, hchains, carry_ok]
  have hmoved : Expr.ofChains config.maxReadings (chains.map (Chain.move (· + 1))) =
      .ok (es.map (Expr.move (· + 1))) := by
    have hne : Chain.EveryChain (· ≠ []) chains :=
      (Chain.ofTrees_isWellShaped hchains).mono fun _ h => h.1
    rw [← Chain.moveAll_eq_map, Expr.ofChains_move strictMono_succ config.maxReadings hne,
      Expr.ofChains_of_ofAll (mapError_ok_iff.mp hes), carry_ok, Expr.moveAll_eq_map]
  have hblock := Tree.settle_block hinner ⟨0, s.size + 2⟩ (d := d)
  have hchain := Chain.ofTrees_block hinside ⟨0, s.size + 2⟩ (d := d)
  have hall : Expr.ofAll config [[.operand (.block d none (chains.map (Chain.move (· + 1))))
      ⟨0, s.size + 2⟩]] =
      .ok [.block d none (es.map (Expr.move (· + 1))) ⟨0, s.size + 2⟩] := by
    rw [Expr.ofAll, Expr.ofChain_block hmoved]
    rfl
  refine bind_ok_iff.mpr ⟨_, hlex, bind_ok_iff.mpr ⟨_, ?_, bind_ok_iff.mpr
    ⟨_, mapError_ok_iff.mpr hall, rfl⟩⟩⟩
  exact bind_ok_iff.mpr ⟨_, mapError_ok_iff.mpr hblock, mapError_ok_iff.mpr hchain⟩

/-- A call that is assigned, with a lone carriage return and a comment behind it, between a bracket and a
parenthesis. -/
theorem parse_wrapped_of_comment :
    let s : Source := ⟨['q', '=', 'f', '(', 'y', ')', '\r', '%', 'c', '\n'], none⟩
    ∃ l p, s.lex default = .ok l ∧ s.parse default = .ok p ∧ l.tokens.SelfContained s.text ∧
      p.items.length = 1 ∧ p.loneReturns = [6] ∧ (s.wrapped .bracketParen).parse default =
        .ok ⟨[.block .bracketParen none (p.items.map (Expr.move (· + 1))) ⟨0, 12⟩], [7]⟩ := by
  intro s
  have hparse : (s.parse default).toOption.map (fun p => (p.items.length, p.loneReturns)) =
      some (1, [6]) := by decide +kernel
  have hlex : ((s.lex default).toOption.filter fun l => l.tokens.SelfContained s.text).isSome = true := by
    decide +kernel
  obtain ⟨p, hp, hitems⟩ := Option.map_eq_some_iff.mp hparse
  obtain ⟨l, hl⟩ := Option.isSome_iff_exists.mp hlex
  obtain ⟨hl, hself⟩ := Option.filter_eq_some_iff.mp hl
  have hp := toOption_eq_some_iff.mp hp
  have hl := toOption_eq_some_iff.mp hl
  have hself := of_decide_eq_true hself
  obtain ⟨hlength, hreturns⟩ := Prod.mk.inj hitems
  have hwrapped := (parse_wrapped hl hp hself (by decide : Delimiters.bracketParen ≠ .angle)
    (by decide)).1
  rw [hreturns] at hwrapped
  exact ⟨l, p, hl, hp, hself, hlength, hreturns, hwrapped⟩

end Source

end DewyFront
