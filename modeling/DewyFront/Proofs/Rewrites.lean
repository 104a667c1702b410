/-
# DewyFront.Proofs.Rewrites — what to write instead of a number that is a name

Where a number is a name as well, three texts are suggested instead: with a zero in front or with the lead
of the base it is a number, and in parentheses it is a name. A scan comes to the place as before, unless a
number ends right in front of it or a delimiter goes on with the new text, and reads what is suggested.
Only where the zero and the first letter are a lead, it is not the number that was meant, and only where
the base is above the limit, its lead is refused.

* §1 digits that may be a name;
* §2 numbers with something in front;
* §3 names in parentheses;
* §4 reading another text;
* §5 numbers of items;
* §6 what is suggested.
-/
import DewyFront.Proofs.Alikes
import DewyFront.Proofs.BasedStrings
import DewyFront.Proofs.Forks

namespace DewyFront

variable {config : LexerConfig} {source s post rest t : Text} {b : Radix} {a c : Char}

/-! ## §1 Digits -/

namespace Radix.Alike

theorem ne_nil (h : b.Alike s post) : s ≠ [] := by
  obtain ⟨c, more, rfl, -⟩ := h.head
  exact List.cons_ne_nil c more

theorem mem (h : b.Alike s post) (ha : a ∈ s) : b.isDigit a = true ∨ a = '_' := by
  have hall := forall_mem_take_of_le_runLength (Nat.le_of_eq h.digits.symm)
  rw [List.take_left] at hall
  simpa using hall a ha

/-- All characters go on with a name. -/
theorem isNameContinue (h : b.Alike s post) (ha : a ∈ s) :
    (Lexicon.isNameContinue a || Lexicon.isDecoration a) = true := by
  obtain ⟨c, more, rfl, hc, -⟩ := h.head
  have hname := h.name
  rw [List.cons_append, Lexicon.nameLength_cons (Lexicon.isNameStart_letter hc)
    (Lexicon.isDecoration_letter hc), List.length_cons, Nat.add_comm] at hname
  have hall := forall_mem_take_of_le_runLength (Nat.le_of_eq (Nat.succ.inj hname).symm)
  rw [List.take_left] at hall
  rcases List.mem_cons.mp ha with rfl | ha
  · rw [Lexicon.isNameContinue_letter hc, Bool.true_or]
  · exact hall a ha

/-- No base has a question mark or a quote for a digit. -/
theorem not_mem_of_mark (h : b.Alike s post) (ha : a ∈ ['?', '"', '\'']) : a ∉ s := by
  have hall : ∀ a ∈ ['?', '"', '\''], ∀ b ∈ Radix.all, b.isDigit a = false ∧ a ≠ '_' :=
    List.all_iff_forall_prop.mp (by decide)
  obtain ⟨hdigit, hne⟩ := hall a ha b b.mem_all
  intro hmem
  rcases h.mem hmem with hdigit' | heq
  · rw [hdigit] at hdigit'
    cases hdigit'
  · exact hne heq

/-- Whether a zero in front begins a lead, the first letter tells. -/
theorem ofLead?_zero (h : b.Alike s post) : Radix.ofLead? ('0' :: s ++ post) = Radix.ofLead? ('0' :: s) := by
  obtain ⟨c, more, rfl, -⟩ := h.head
  rfl

end Radix.Alike

/-! ## §2 Numbers -/

namespace View

variable {v : View} {kind : TokenKind}

/-- With a zero in front the digits are a number, unless the zero begins a lead. -/
theorem numberAt_zero (h : b.Alike s post) (hlead : Radix.ofLead? ('0' :: s) = none)
    (hbase : v.context.digitBase = b) (start : Nat) :
    v.numberAt start ('0' :: s ++ post) = .ok (some ('0' :: s).length) := by
  have hzero : ∀ b ∈ Radix.all, b.isDigit '0' = true := by decide
  have hdigit := hzero b b.mem_all
  have hrun : digitRun b ('0' :: s ++ post) = ('0' :: s).length := by
    have hdigits := h.digits
    unfold digitRun runLength at hdigits ⊢
    rw [List.cons_append, List.takeWhile_cons_of_pos (by rw [hdigit]; rfl), List.length_cons, hdigits,
      List.length_cons]
  unfold numberAt
  rw [h.ofLead?_zero, hlead]
  dsimp only
  rw [hbase, hrun, List.cons_append, List.head?_cons, Option.any_some, if_pos hdigit]

/-- With the lead of the base in front they are one if the base is allowed, and refused if not. -/
theorem numberAt_lead (h : b.Alike s post) (start : Nat) :
    v.numberAt start (b.lead ++ s ++ post) =
      if v.config.maxRadix < b.value then .error (.baseTooHigh start b s v.config.maxRadix)
      else .ok (some (b.lead ++ s).length) := by
  have hlead : Radix.ofLead? (b.lead ++ s ++ post) = some b := by
    rw [List.append_assoc]
    exact Radix.ofLead?_lead b (s ++ post)
  have hdrop : (b.lead ++ s ++ post).drop 2 = s ++ post := rfl
  obtain ⟨c, more, hs, -, hdigit⟩ := h.head
  have hhead : (s ++ post).head?.any b.isDigit = true := by
    rw [hs, List.cons_append, List.head?_cons, Option.any_some]
    exact hdigit
  unfold numberAt
  rw [hlead]
  dsimp only
  rw [hdrop, if_pos hhead, h.digits, List.take_left, List.length_append]
  rfl

/-- **At a zero a number stands**, if neither a string nor a block has a lead there. -/
theorem stands_number (hcontext : v.context.kind.isExpression = true) (hrest : v.rest = '0' :: t)
    {n : Nat} (hnumber : v.matchKind .number = .ok (some n))
    (hled : ∀ kind, kind.isLed = true → kind ≠ .number → v.matchKind kind = .ok none) :
    Scan.Stands v ⟨.number, n⟩ := by
  refine Scan.stands_of_longest hcontext hnumber fun kind hlegal hne => ⟨none, ?_, fun n hn => by cases hn⟩
  cases hkind : kind.isLed with
  | true => exact hled kind hkind hne
  | false => exact matchKind_zero hcontext hlegal hrest hkind

/-- Neither a string nor a block has a lead in front of a letter. -/
theorem matchKind_led (hrest : v.rest = a :: c :: rest)
    (hplain : Radix.ofLead? v.rest = none ∨ ∃ e u, rest = e :: u ∧ e ∈ letters)
    (hkind : kind.isLed = true) (hne : kind ≠ .number) : v.matchKind kind = .ok none := by
  cases kind with
  | number => exact absurd rfl hne
  | basedStringOpener =>
    refine congrArg Except.ok ?_
    rw [basedString]
    rcases hplain with hnone | ⟨e, u, rfl, he⟩
    · rw [hnone]
      rfl
    · have hquote : quoteRun (e :: u) = none := by simp [quoteRun, isQuote_letter he]
      have hdrop : v.rest.drop 2 = e :: u := by rw [hrest]; rfl
      rw [hdrop, hquote]
      exact ite_self _
  | basedBlockOpener =>
    refine congrArg Except.ok (if_neg ?_)
    rintro ⟨hlead, hhead⟩
    rcases hplain with hnone | ⟨e, u, rfl, he⟩
    · rw [hnone] at hlead
      cases hlead
    · rw [hrest] at hhead
      exact ne_of_letter he (by decide) (Option.some.inj hhead)
  | _ => cases hkind

end View

/-! ## §3 Names -/

namespace Lexicon

theorem longestOf_eq_zero {table : List Text} (h : ∀ s ∈ table, s.isPrefixOf t = false) :
    longestOf table t = 0 := by
  have hfold : ∀ (table : List Text) (best : Nat), (∀ s ∈ table, s.isPrefixOf t = false) →
      table.foldl (fun best s => if s.isPrefixOf t then max best s.length else best) best = best := by
    intro table
    induction table with
    | nil => exact fun _ _ => rfl
    | cons r table ih =>
      intro best hall
      obtain ⟨hr, htable⟩ := List.forall_mem_cons.mp hall
      rw [List.foldl_cons, hr, if_neg Bool.false_ne_true, ih best htable]
  exact hfold table 0 h

/-- A symbol that begins with a letter has a question mark. -/
theorem symbolLength_eq_zero (hc : c ∈ letters) (hmark : '?' ∉ c :: s) (post : Text) :
    symbolLength (c :: s ++ ')' :: post) = 0 := by
  have hall : ∀ c ∈ letters, ∀ r ∈ symbols, ')' ∉ r ∧ r ≠ [] ∧ (r.head? = some c → '?' ∈ r) :=
    List.all_iff_forall_prop.mp (by decide)
  refine longestOf_eq_zero fun r hr => Bool.eq_false_iff.mpr fun hbegins => ?_
  obtain ⟨hparen, hne, hword⟩ := hall c hc r hr
  have hle : r.length ≤ (c :: s).length := by
    by_contra hlong
    exact hparen (mem_of_isPrefixOf hbegins (Nat.lt_of_not_le hlong)).1
  rw [isPrefixOf_append_iff hle] at hbegins
  have hfront := List.isPrefixOf_iff_prefix.mp hbegins
  obtain ⟨a, r, rfl⟩ := List.exists_cons_of_ne_nil hne
  have hhead : a = c := (List.cons_prefix_cons.mp hfront).1
  exact hmark (hfront.subset (hword (by rw [hhead]; rfl)))

theorem shiftLength_eq_zero (hc : c ∈ letters) (t : Text) : shiftLength (c :: t) = 0 := by
  have hall : ∀ c ∈ letters, ∀ r ∈ shifts, r ≠ [] ∧ r.head? ≠ some c :=
    List.all_iff_forall_prop.mp (by decide)
  refine longestOf_eq_zero fun r hr => Bool.eq_false_iff.mpr fun hbegins => ?_
  obtain ⟨hne, hword⟩ := hall c hc r hr
  obtain ⟨a, r, rfl⟩ := List.exists_cons_of_ne_nil hne
  have hhead := (List.cons_prefix_cons.mp (List.isPrefixOf_iff_prefix.mp hbegins)).1
  exact hword (by rw [hhead]; rfl)

end Lexicon

namespace View

variable {v : View} {kind : TokenKind}

/-- **In a block a letter begins a name**, and nothing else where no digit, exponent, raw string or symbol
can. -/
theorem matchKind_letter (hc : c ∈ letters) (hrest : v.rest = c :: t)
    (hlegal : kind.isLegalIn .blockBody = true)
    (hkind : kind ∉ [.name, .symbol, .rawStringOpener, .number, .exponent]) :
    v.matchKind kind = .ok none := by
  have hblank : ∀ c ∈ letters, Lexicon.isBlank c = false := List.all_iff_forall_prop.mp (by decide)
  have hne : ∀ {a : Char}, a ∉ letters → c ≠ a := fun ha => ne_of_letter hc ha
  have hsingle : ∀ {a : Char}, a ∉ letters → single a (c :: t) = none := fun ha =>
    if_neg fun heq => hne ha (Option.some.inj heq)
  have hlead : Radix.ofLead? (c :: t) = none := by
    simp [Radix.ofLead?, hne (show '0' ∉ letters by decide)]
  have hheredoc : ∀ sigil : Text, v.heredoc ('#' :: sigil) = .ok none := by
    intro sigil
    refine heredoc_of_not_sigil ?_
    rw [hrest, Bool.eq_false_iff, ne_eq, List.isPrefixOf_iff_prefix, List.cons_prefix_cons]
    exact fun hprefix => hne (by decide) hprefix.1.symm
  -- No mark, no blank and no zero is a letter.
  cases kind with
  | blank =>
    have hrun : Lexicon.blankLength (c :: t) = 0 := by simp [Lexicon.blankLength, runLength, hblank c hc]
    rw [matchKind, hrest, hrun]
    rfl
  | lineComment =>
    rw [matchKind, hrest]
    simp [Lexicon.lineCommentLength, hne (show '%' ∉ letters by decide), positive]
  | blockComment =>
    rw [matchKind, blockComment, hrest]
    simp [Lexicon.scanComment, hne (show '%' ∉ letters by decide)]
  | shift =>
    rw [matchKind, hrest, Lexicon.shiftLength_eq_zero hc]
    rfl
  | hashtag =>
    rw [matchKind, hrest]
    simp [hashtag, hne (show '#' ∉ letters by decide)]
  | leftBracket | rightBracket | leftParen | rightParen | leftBrace | rightBrace | leftAngle =>
    rw [matchKind, hrest, hsingle (by decide)]
  | basedBlockOpener =>
    rw [matchKind, hrest, basedBlock, hlead]
    rfl
  | basedStringOpener =>
    rw [matchKind, hrest, basedString, hlead]
    rfl
  | stringOpener =>
    rw [matchKind, hrest]
    simp [quoteRun, isQuote_letter hc]
  | heredocOpener | rawHeredocOpener => exact hheredoc _
  | name | symbol | rawStringOpener | number | exponent => exact absurd (by simp) hkind
  | rightAngle | stringCloser | stringText | stringEscape | holeEscape | rawStringText
  | restOfFileOpener | rawRestOfFileOpener | heredocCloser | basedStringText => cases hlegal

theorem rawString_eq_none (h : ∀ a, t.head? = some a → isQuote a = false) : rawString (c :: t) = none := by
  by_cases hc : c = 'r'
  · subst hc
    cases t with
    | nil => rfl
    | cons a t => simp [rawString, quoteRun, h a rfl]
  · simp [rawString, hc]

/-- No decimal begins with a letter. -/
theorem numberAt_letter (hc : c ∈ letters) (hbase : v.context.digitBase = .decimal) (start : Nat)
    (t : Text) : v.numberAt start (c :: t) = .ok none := by
  have hdigit : ∀ c ∈ letters, Radix.decimal.isDigit c = false := List.all_iff_forall_prop.mp (by decide)
  have hlead : Radix.ofLead? (c :: t) = none := by
    simp [Radix.ofLead?, ne_of_letter hc (show '0' ∉ letters by decide)]
  rw [numberAt, hlead]
  dsimp only
  rw [hbase, List.head?_cons, Option.any_some, hdigit c hc, if_neg Bool.false_ne_true]

/-- **In parentheses it is a name.** -/
theorem stands_name (h : b.Alike s post) {opener : Nat} (hcontext : v.context = .blockBody opener .decimal)
    (hprevious : v.previous ≠ some .number) (hrest : v.rest = s ++ ')' :: rest) :
    Scan.Stands v ⟨.name, s.length⟩ := by
  obtain ⟨c, more, hs, hc, -⟩ := h.head
  have hkind : v.context.kind = .blockBody := by rw [hcontext]; rfl
  have hcons : v.rest = c :: (more ++ ')' :: rest) := by rw [hrest, hs]; rfl
  have hlength : Lexicon.nameLength (s ++ ')' :: rest) = s.length := by
    have hall : ∀ a ∈ more, (Lexicon.isNameContinue a || Lexicon.isDecoration a) = true := by
      intro a ha
      exact h.isNameContinue (hs ▸ List.mem_cons_of_mem c ha)
    have hrun := runLength_append_eq (p := fun a => Lexicon.isNameContinue a || Lexicon.isDecoration a)
      (t := ')' :: rest) hall fun a ha => by cases ha; decide
    rw [hs, List.cons_append, Lexicon.nameLength_cons (Lexicon.isNameStart_letter hc)
      (Lexicon.isDecoration_letter hc), hrun, List.length_cons, Nat.add_comm]
  have hpos : s.length ≠ 0 := Nat.ne_of_gt (List.length_pos_of_ne_nil h.ne_nil)
  refine Scan.stands_of_longest (by rw [hkind]; rfl) ?_ fun kind hlegal hne =>
    ⟨none, ?_, fun n hn => by cases hn⟩
  · rw [matchKind, hrest, hlength, positive, if_neg hpos]
  · rw [hkind] at hlegal
    by_cases hother : kind ∈ [TokenKind.name, .symbol, .rawStringOpener, .number, .exponent]
    · simp only [List.mem_cons, List.not_mem_nil, or_false] at hother
      rcases hother with rfl | rfl | rfl | rfl | rfl
      · exact absurd rfl hne
      · have hmark : '?' ∉ c :: more := hs ▸ h.not_mem_of_mark (by decide)
        rw [matchKind, hrest, hs, Lexicon.symbolLength_eq_zero hc hmark]
        rfl
      · have hquote : ∀ a, (more ++ ')' :: rest).head? = some a → isQuote a = false := by
          intro a ha
          by_contra hquote
          have hmark : a ∈ ['?', '"', '\''] := by
            rcases eq_of_isQuote (Bool.not_eq_false _ ▸ hquote) with rfl | rfl <;> decide
          cases more with
          | nil =>
            cases ha
            exact hquote rfl
          | cons e more =>
            cases ha
            exact h.not_mem_of_mark hmark (hs ▸ by simp)
        rw [matchKind, hcons]
        exact congrArg _ (rawString_eq_none hquote)
      · rw [matchKind, hcons]
        exact numberAt_letter hc (by rw [hcontext]; rfl) v.start _
      · exact exponent_of_previous hprevious
    · exact matchKind_letter hc hcons hlegal hother

end View

/-! ## §4 Another text -/

/-- **`Context.Spares`** — what ends the string of a context lacks a character if it has a brace. -/
def Context.Spares (context : Context) (d : Char) : Prop :=
  ∀ e, context.ending?.bind Ending.text? = some e → '\x7b' ∈ e → d ∉ e

namespace Scan

variable {config : LexerConfig} {source pre post lexeme w : Text} {σ : Scan} {b : Radix} {d : Char}

/-- Tokens of some kinds and texts, one behind the other from an offset. -/
def piecesFrom : Nat → List (TokenKind × Text) → List (TokenKind × Span)
  | _, [] => []
  | offset, (kind, lexeme) :: words =>
    (kind, ⟨offset, offset + width lexeme⟩) :: piecesFrom (offset + width lexeme) words

/-- **`Rereads`** — with other words in a source, a scan comes to the place in the same state, takes the
words there one by one, and goes on behind them in the same contexts. -/
structure Rereads (config : LexerConfig) (pre post : Text) (s : Scan)
    (words : List (TokenKind × Text)) : Prop where
  comes : Reaches config (pre ++ (words.flatMap Prod.snd ++ post)) s (words.flatMap Prod.snd ++ post)
  takes : ∃ next, Reaches config (pre ++ (words.flatMap Prod.snd ++ post)) next post ∧
    next.stack = s.stack ∧ next.errors = s.errors ∧
    next.tokens.pieces = s.tokens.pieces ++ piecesFrom s.offset words

theorem Doubts.kind_eq (h : σ.Doubts b lexeme post) : σ.top.kind = .blockBody := by
  obtain ⟨opener, htop⟩ := h.block
  rw [htop]
  rfl

theorem Doubts.isExpression (h : σ.Doubts b lexeme post) : σ.top.kind.isExpression = true := by
  rw [h.kind_eq]
  rfl

theorem Doubts.digitBase_eq (h : σ.Doubts b lexeme post) : σ.top.digitBase = b := by
  obtain ⟨opener, htop⟩ := h.block
  rw [htop]
  rfl

/-- **A scan comes to the place with another text there.** -/
theorem Doubts.reaches (h : σ.Doubts b lexeme post) (hd : d ∈ leads)
    (hreaches : Reaches config (pre ++ (lexeme ++ post)) σ (lexeme ++ post))
    (hspared : ∀ context ∈ σ.stack, context.Spares d) (hnumber : d = '(' ∨ ¬ σ.IsBehindNumber) (y : Text) :
    Reaches config (pre ++ d :: y) σ (d :: y) := by
  obtain ⟨c, more, rfl, hc, -⟩ := h.alike.head
  have hunaffected : σ.Unaffected [] (c :: more ++ post) d := by
    refine ⟨fun _ => ⟨h.isExpression, hnumber⟩, fun closer e he => ?_,
      fun context hcontext closer e he => ?_⟩
    · exact absurd (he.isExpression_eq_false.symm.trans h.isExpression) Bool.false_ne_true
    · exact .inr (hspared context (List.mem_of_mem_tail hcontext) e he.text?_eq)
  exact hreaches.swap (t := []) rfl hc hd rfl hunaffected y

/-- **A number that stands at the place is read there.** -/
theorem rereads_number (hreaches : Reaches config (pre ++ (w ++ post)) σ (w ++ post)) (hw : w ≠ [])
    (hstands : Stands (σ.view config (w ++ post)) ⟨.number, w.length⟩) :
    σ.Rereads config pre post [(.number, w)] := by
  have hspelled : [(TokenKind.number, w)].flatMap Prod.snd = w := List.flatMap_singleton ..
  have htake : σ.take .number w = .ok (σ.record .number w) := rfl
  refine ⟨hspelled.symm ▸ hreaches, σ.record .number w, ?_, rfl, rfl, TokenList.pieces_push _ _ _⟩
  rw [hspelled]
  exact hreaches.take hw hstands htake

/-- A bracket that may stand where it does stands. -/
theorem stands_bracket {v : View} {kind : TokenKind} {a : Char} {t : Text}
    (hcontext : v.context.kind.isExpression = true) (hlegal : kind.isLegalIn v.context.kind = true)
    (hkind : kind.bracket? = some a) (ha : a ∈ brackets) (hrest : v.rest = a :: t) :
    Stands v ⟨kind, 1⟩ := by
  have hhash : ∀ {k : TokenKind}, a = '#' → k.isHashed = false := by
    rintro k rfl
    exact absurd ha (by decide)
  have hmatch : ∀ {k : TokenKind}, k.isLegalIn v.context.kind = true →
      v.matchKind k = .ok (if k.bracket? = some a then some 1 else none) := fun hk =>
    View.matchKind_mark (List.mem_cons_of_mem _ ha) hrest
      (TokenKind.isInnerText_eq_false hcontext hk) hhash
  have honly : ∀ {k : TokenKind}, k.bracket? = some a → k = kind := by
    intro k hk
    cases kind <;> cases hkind <;> cases k <;> first | rfl | cases hk
  refine stands_of_longest hlegal ?_ fun k hk hne => ⟨none, ?_, fun n hn => by cases hn⟩
  · rw [hmatch hlegal, if_pos hkind]
  · rw [hmatch hk, if_neg fun heq => hne (honly heq)]

/-- A token of one character is taken off the front. -/
theorem Reaches.take_single {s next : Scan} {kind : TokenKind} {a : Char} {rest : Text}
    (h : Reaches config source s (a :: rest)) (hstands : Stands (s.view config (a :: rest)) ⟨kind, 1⟩)
    (htake : s.take kind [a] = .ok next) : Reaches config source next rest := by
  have hfront : Reaches config source s ([a] ++ rest) := h
  exact hfront.take (List.cons_ne_nil a []) hstands htake

/-- **A name in parentheses is read as such**, and the contexts are as before. -/
theorem Reaches.exists_parens (hreaches : Reaches config source σ ('(' :: (lexeme ++ ')' :: post)))
    (hblock : σ.top.kind = .blockBody) {more : Text} (h : b.Alike lexeme more) :
    ∃ next, Reaches config source next post ∧ next.stack = σ.stack ∧ next.errors = σ.errors ∧
      next.tokens.pieces = σ.tokens.pieces ++
        piecesFrom σ.offset [(.leftParen, ['(']), (.name, lexeme), (.rightParen, [')'])] := by
  have hexpression : σ.top.kind.isExpression = true := by rw [hblock]; rfl
  -- The opener begins a block of decimals.
  have hopened := hreaches.take_single
    (stands_bracket hexpression (by rw [view, hblock]; rfl) rfl (by decide) rfl)
    (show σ.take .leftParen ['('] =
      .ok ((σ.record .leftParen ['(']).enter (.blockBody σ.tokens.size .decimal)) from rfl)
  generalize hs : (σ.record .leftParen ['(']).enter (.blockBody σ.tokens.size .decimal) = s at hopened
  have htop : s.top = .blockBody σ.tokens.size .decimal := by rw [← hs]; rfl
  have hpieces : s.tokens.pieces =
      σ.tokens.pieces ++ [(.leftParen, ⟨σ.offset, σ.offset + width ['(']⟩)] := by
    rw [← hs]
    exact TokenList.pieces_push _ _ _
  -- Inside stands the name, for no number is in front of it.
  have hprevious : (s.view config (lexeme ++ ')' :: post)).previous ≠ some .number := by
    rw [view, TokenList.last?_eq, hpieces, List.getLast?_append, List.getLast?_singleton]
    exact fun heq => by cases heq
  have hnamed := hopened.take h.ne_nil (View.stands_name h htop hprevious rfl)
    (show s.take .name lexeme = .ok (s.record .name lexeme) from rfl)
  -- What is closed is the block that the opener began.
  have hopener : ((s.record .name lexeme).record .rightParen [')']).tokens.get? σ.tokens.size =
      some ⟨.leftParen, ⟨σ.offset, σ.offset + width ['(']⟩, none⟩ := by
    rw [← hs]
    show (((σ.tokens.push .leftParen _).push .name _).push .rightParen _).get? σ.tokens.size = _
    rw [TokenList.get?_push, TokenList.get?_push, TokenList.get?_push, TokenList.size_push,
      TokenList.size_push, if_neg (by omega), if_neg (by omega), if_pos rfl]
  have hclose : (s.record .name lexeme).take .rightParen [')'] =
      .ok (((s.record .name lexeme).record .rightParen [')']).leave σ.tokens.size
        (s.record .name lexeme).tokens.size) := by
    show closeBlock _ .rightParen _ [')'] = _
    unfold closeBlock
    have htop : ((s.record .name lexeme).record .rightParen [')']).top =
        .blockBody σ.tokens.size .decimal := htop
    rw [htop]
    dsimp only
    rw [hopener]
    rfl
  have hlegal : TokenKind.rightParen.isLegalIn
      ((s.record .name lexeme).view config (')' :: post)).context.kind = true := by
    show TokenKind.rightParen.isLegalIn s.top.kind = true
    rw [htop]
    rfl
  have hclosed := hnamed.take_single
    (stands_bracket (by rw [show View.context _ = s.top from rfl, htop]; rfl) hlegal rfl (by decide) rfl)
    hclose
  refine ⟨_, hclosed, ?_, ?_, ?_⟩
  · show s.stack.tail = _
    rw [← hs]
    rfl
  · rw [← hs]
    rfl
  · show (TokenList.pair _ _ _).pieces = _
    rw [TokenList.pieces_pair]
    show ((s.tokens.push .name _).push .rightParen _).pieces = _
    rw [TokenList.pieces_push, TokenList.pieces_push, hpieces, ← hs]
    simp [piecesFrom, record, enter]

/-- **A name in parentheses is read as such.** -/
theorem Doubts.rereads_parens (h : σ.Doubts b lexeme post)
    (hreaches : Reaches config (pre ++ (lexeme ++ post)) σ (lexeme ++ post))
    (hspared : ∀ context ∈ σ.stack, context.Spares '(') :
    σ.Rereads config pre post [(.leftParen, ['(']), (.name, lexeme), (.rightParen, [')'])] := by
  have hspelled : [(TokenKind.leftParen, ['(']), (.name, lexeme), (.rightParen, [')'])].flatMap Prod.snd ++
      post = '(' :: (lexeme ++ ')' :: post) := by simp
  have hcomes := h.reaches (by decide) hreaches hspared (.inl rfl) (lexeme ++ ')' :: post)
  refine ⟨hspelled.symm ▸ hcomes, ?_⟩
  rw [hspelled]
  exact hcomes.exists_parens h.kind_eq h.alike

/-- With a zero in front it is read as a number, unless the zero begins a lead. -/
theorem Doubts.rereads_zero (h : σ.Doubts b lexeme post)
    (hreaches : Reaches config (pre ++ (lexeme ++ post)) σ (lexeme ++ post))
    (hspared : ∀ context ∈ σ.stack, context.Spares '0') (hnumber : ¬ σ.IsBehindNumber)
    (hlead : Radix.ofLead? ('0' :: lexeme) = none) :
    σ.Rereads config pre post [(.number, '0' :: lexeme)] := by
  obtain ⟨c, more, hlexeme, -⟩ := h.alike.head
  have hcomes := h.reaches (by decide) hreaches hspared (.inr hnumber) (lexeme ++ post)
  refine rereads_number hcomes (List.cons_ne_nil _ _) (View.stands_number h.isExpression rfl
    (View.numberAt_zero h.alike hlead h.digitBase_eq σ.offset) fun kind hled hne => ?_)
  exact View.matchKind_led (by rw [hlexeme]; rfl) (.inl (h.alike.ofLead?_zero.trans hlead)) hled hne

/-- With the lead of the base in front, neither a string nor a block of the base stands there. -/
theorem Doubts.matchKind_lead (h : σ.Doubts b lexeme post) {kind : TokenKind} (hled : kind.isLed = true)
    (hne : kind ≠ .number) :
    (σ.view config (b.lead ++ lexeme ++ post)).matchKind kind = .ok none := by
  obtain ⟨c, more, hlexeme, hc, -⟩ := h.alike.head
  have hrest : (σ.view config (b.lead ++ lexeme ++ post)).rest = '0' :: b.letter :: (lexeme ++ post) := rfl
  exact View.matchKind_led hrest (.inr ⟨c, more ++ post, by rw [hlexeme]; rfl, hc⟩) hled hne

/-- With the lead of the base in front it is read as a number, if the base is allowed. -/
theorem Doubts.rereads_lead (h : σ.Doubts b lexeme post)
    (hreaches : Reaches config (pre ++ (lexeme ++ post)) σ (lexeme ++ post))
    (hspared : ∀ context ∈ σ.stack, context.Spares '0') (hnumber : ¬ σ.IsBehindNumber)
    (hmax : b.value ≤ config.maxRadix) : σ.Rereads config pre post [(.number, b.lead ++ lexeme)] := by
  have hcomes := h.reaches (by decide) hreaches hspared (.inr hnumber) (b.letter :: lexeme ++ post)
  have hmatch : (σ.view config (b.lead ++ lexeme ++ post)).matchKind .number =
      .ok (some (b.lead ++ lexeme).length) := by
    refine (View.numberAt_lead h.alike σ.offset).trans (if_neg ?_)
    exact Nat.not_lt_of_le hmax
  exact rereads_number hcomes (List.cons_ne_nil _ _)
    (View.stands_number h.isExpression rfl hmatch fun kind hled hne => h.matchKind_lead hled hne)

end Scan

theorem View.matchesOf_error {v : View} {kinds : List TokenKind} {kind : TokenKind} {e : LexError}
    (hkind : kind ∈ kinds) (h : v.matchKind kind = .error e)
    (hothers : ∀ k ∈ kinds, k ≠ kind → v.matchKind k = .ok none) : v.matchesOf kinds = .error e := by
  induction kinds with
  | nil => cases hkind
  | cons k kinds ih =>
    obtain ⟨hk, hkinds⟩ := List.forall_mem_cons.mp hothers
    rw [matchesOf]
    by_cases heq : k = kind
    · rw [heq, h]
      rfl
    · rw [hk heq, ih ((List.mem_cons.mp hkind).resolve_left (Ne.symm heq)) hkinds]
      rfl

namespace Scan

variable {config : LexerConfig} {source pre post lexeme w : Text} {σ : Scan} {b : Radix}

/-- **A base above the limit is refused** with its lead. -/
theorem Doubts.refused_lead (h : σ.Doubts b lexeme post)
    (hreaches : Reaches config (pre ++ (lexeme ++ post)) σ (lexeme ++ post))
    (hspared : ∀ context ∈ σ.stack, context.Spares '0') (hnumber : ¬ σ.IsBehindNumber)
    (hmax : config.maxRadix < b.value) : tokenize config (pre ++ (b.lead ++ lexeme ++ post)) =
      refuse (σ.errors ++ [.baseTooHigh σ.offset b lexeme config.maxRadix]) := by
  have hcomes := h.reaches (by decide) hreaches hspared (.inr hnumber) (b.letter :: lexeme ++ post)
  have hkind : (σ.view config (b.lead ++ lexeme ++ post)).context.kind = .blockBody := h.kind_eq
  have hmatch : (σ.view config (b.lead ++ lexeme ++ post)).matchKind .number =
      .error (.baseTooHigh σ.offset b lexeme config.maxRadix) :=
    (View.numberAt_lead h.alike σ.offset).trans (if_pos hmax)
  have hall : (σ.view config (b.lead ++ lexeme ++ post)).allMatches =
      .error (.baseTooHigh σ.offset b lexeme config.maxRadix) := by
    refine View.matchesOf_error (by rw [hkind]; decide) hmatch fun k hk hne => ?_
    cases hled : k.isLed with
    | true => exact h.matchKind_lead hled hne
    | false => exact View.matchKind_zero (by rw [hkind]; rfl) (List.mem_filter.mp hk).2 rfl hled
  have hstep : σ.step config ('0' :: (b.letter :: lexeme ++ post)) =
      refuse (.baseTooHigh σ.offset b lexeme config.maxRadix) := by
    unfold step
    rw [show (σ.view config ('0' :: (b.letter :: lexeme ++ post))).allMatches = _ from hall]
    rfl
  refine hcomes.tokenize_eq.trans ?_
  rw [run, hstep]
  rfl

end Scan

/-! ## §5 Items -/

/-- A literal is told from the text that it is read from. -/
theorem IntegerLit.Scanned.eq_integerLit {i : IntegerLit} {context : Context} {more : Text}
    (h : i.Scanned context t more) : i = Tree.integerLit context.digitBase t := by
  obtain ⟨base, digits⟩ := i
  obtain ⟨rfl, -, -, rfl⟩ := h
  rw [Tree.integerLit_eq]

/-- **A number among the parts of a literal** is its whole part, or its fraction. -/
theorem RealLit.ReadFrom.of_mem {r : RealLit} {context : Context} {span : Span} {p : RealLit.Parts}
    {x : Lexeme} (h : r.ReadFrom config source context span p) (hx : x ∈ p.lexemes)
    (hkind : x.kind = .number) : (x = p.whole ∧ x.span.start = span.start) ∨
      (r.fraction = some (Tree.withoutSeparators x.text) ∧ span.start < x.span.start ∧
        x.span.stop ≤ span.stop) := by
  obtain ⟨whole, fraction, exponent⟩ := p
  obtain ⟨integer, digits, power⟩ := r
  obtain ⟨htiles, -, hfraction, hexponent⟩ := h
  rcases List.mem_cons.mp hx with rfl | hx
  · exact .inl ⟨rfl, htiles.1⟩
  · rcases List.mem_append.mp hx with hx | hx
    · right
      cases hfraction with
      | none => cases hx
      | @some digits f hf =>
        obtain ⟨dot, y⟩ := f
        obtain ⟨hdot, -, -, rfl⟩ := hf
        simp only [Lexeme.isDot, Bool.and_eq_true, beq_iff_eq] at hdot
        rcases List.mem_cons.mp hx with rfl | hx
        · rw [hkind] at hdot
          cases hdot.1
        · cases List.mem_singleton.mp hx
          obtain ⟨-, hwhole, -, hdot, hy, -, hbehind⟩ := htiles
          have hwhole : span.start < whole.span.stop := hwhole
          have hdot : whole.span.stop < dot.span.stop := hdot
          have hy : y.span.start = dot.span.stop := hy
          refine ⟨rfl, ?_, hbehind.le⟩
          show span.start < y.span.start
          omega
    · cases hexponent with
      | none => cases hx
      | @some e y hy =>
        cases List.mem_singleton.mp hx
        rw [hkind] at hy
        cases hy.1

namespace Scan

variable {config : LexerConfig} {source : Text}

/-- States behind the same number of tokens have the same contexts. -/
theorem Finishes.stack_eq_of_size {out : Tokenized} {s s' : Scan} {rest rest' : Text}
    (h : Finishes config source out s rest) (h' : Finishes config source out s' rest')
    (hsize : s.tokens.size = s'.tokens.size) : s.stack = s'.stack := by
  obtain ⟨later, hlater⟩ := h.pieces_prefix
  obtain ⟨later', hlater'⟩ := h'.pieces_prefix
  have hlength : s.tokens.pieces.length = s'.tokens.pieces.length := by
    rw [TokenList.length_pieces, TokenList.length_pieces, hsize]
  obtain ⟨hpieces, -⟩ := List.append_inj (hlater.trans hlater'.symm) hlength
  rw [h.reaches.told.stack, h'.reaches.told.stack, hpieces]

/-- A token behind those of a state is among the lexemes of the whole scan, at that place. -/
theorem Finishes.exists_lexeme {out : Tokenized} {s next : Scan} {rest : Text} {kind : TokenKind}
    {span : Span} (h : Finishes config source out next rest)
    (hpieces : next.tokens.pieces = s.tokens.pieces ++ [(kind, span)]) :
    ∃ x ∈ out.tokens.lexemes source, x.kind = kind ∧ x.span = span ∧ x.place = s.tokens.size := by
  obtain ⟨later, hlater⟩ := h.pieces_prefix
  have hall : out.tokens.pieces = (out.tokens.lexemes source).map (·.token.piece) :=
    TokenList.pieces_of_lexemes rfl
  rw [hpieces, hall, List.append_assoc] at hlater
  obtain ⟨xs, ys, hlexemes, hxs, hys⟩ := List.map_eq_append_iff.mp hlater.symm
  obtain ⟨x, zs, rfl, hx, -⟩ := List.map_eq_cons_iff.mp hys
  refine ⟨x, hlexemes ▸ List.mem_append_right _ List.mem_cons_self, congrArg Prod.fst hx,
    congrArg Prod.snd hx, ?_⟩
  rw [TokenList.place_of_lexemes hlexemes, ← TokenList.length_pieces, ← hxs, List.length_map]

end Scan

namespace Source

variable {config : LexerConfig} {pre post w : Text} {σ : Scan} {name : Option String} {l : Lexed}

/-- **A number that is read at the place is a number of the items**: the whole part of a literal that begins
there, or the fraction of one that has begun before. -/
theorem exists_numeral_of_rereads (h : σ.Rereads config pre post [(.number, w)])
    (hl : (⟨pre ++ (w ++ post), name⟩ : Source).lex config = .ok l) : ∃ n ∈ Tree.numeralsOf l.trees,
      (n.1.whole = Tree.integerLit σ.top.digitBase w ∧ n.2.start = σ.offset) ∨
      (n.1.fraction = some (Tree.withoutSeparators w) ∧ n.2.start < σ.offset ∧
        σ.offset + width w ≤ n.2.stop) := by
  have hspelled : [(TokenKind.number, w)].flatMap Prod.snd = w := List.flatMap_singleton ..
  obtain ⟨hcomes, next, hnext, -, -, hpieces⟩ := h
  rw [hspelled] at hcomes hnext
  generalize hsource : pre ++ (w ++ post) = source at *
  obtain ⟨-, out, trees, hout, htrees, rfl⟩ := lex_ok_iff.mp hl
  obtain ⟨parts, hread, hnumerals⟩ := TokenList.readsOff hout htrees
  have hσ : Scan.Finishes config source out σ (w ++ post) := ⟨hcomes, hcomes.tokenize_eq.symm.trans hout⟩
  have hbehind : Scan.Finishes config source out next post := ⟨hnext, hnext.tokenize_eq.symm.trans hout⟩
  -- The number is among the lexemes, behind those of the state.
  obtain ⟨x, hlexeme, hkind, hspan, hplace⟩ := hbehind.exists_lexeme hpieces
  have htext : x.text = w := by
    rw [TokenList.text_of_mem_lexemes hlexeme, hspan, hcomes.grounded.slice_append]
  -- So it is a part of some literal.
  have hmem : x ∈ parts.flatMap (·.lexemes) := by
    have hfilter : x ∈ (out.tokens.lexemes source).filter (·.kind.isNumeral) :=
      List.mem_filter.mpr ⟨hlexeme, by rw [hkind]; rfl⟩
    rw [← hnumerals] at hfilter
    exact (List.mem_filter.mp hfilter).1
  obtain ⟨p, hp, hxp⟩ := List.mem_flatMap.mp hmem
  obtain ⟨n, hn, context, hfrom⟩ := Reading.exists_of_mem_right hread hp
  refine ⟨n, hn, ?_⟩
  rcases hfrom.of_mem hxp hkind with ⟨rfl, hstart⟩ | ⟨hfraction, hstart, hstop⟩
  · left
    obtain ⟨-, more, ⟨s, -, hs, rfl, -, hsize, -⟩, hscanned⟩ := hfrom.whole
    have hfinishes : Scan.Finishes config source out s (p.whole.text ++ more) :=
      ⟨hs, hs.tokenize_eq.symm.trans hout⟩
    have htop : s.top = σ.top := by
      rw [Scan.top, Scan.top, hfinishes.stack_eq_of_size hσ (hsize.trans hplace)]
    rw [← htext, ← htop, ← hstart, hspan]
    exact ⟨hscanned.eq_integerLit, rfl⟩
  · right
    rw [← htext, hfraction]
    rw [hspan] at hstart hstop
    exact ⟨rfl, hstart, htext ▸ hstop⟩

end Source

/-! ## §6 What is suggested -/

namespace Scan

variable {config : LexerConfig} {source pre post lexeme w : Text} {σ : Scan} {b : Radix}

/-- **`ReadsNumber`** — with another text at the place a scan reads it as one number, cooked to an integer.
Among the items of a source with a result the integer is the whole part of a literal that begins there,
unless the number is the fraction of a literal that has begun before. -/
structure ReadsNumber (config : LexerConfig) (pre post : Text) (σ : Scan) (w : Text) (i : IntegerLit) :
    Prop where
  rereads : σ.Rereads config pre post [(.number, w)]
  cooked : Tree.integerLit σ.top.digitBase w = i
  items : ∀ name l, (⟨pre ++ (w ++ post), name⟩ : Source).lex config = .ok l →
    ∃ n ∈ Tree.numeralsOf l.trees, (n.1.whole = i ∧ n.2.start = σ.offset) ∨
      (n.1.fraction = some (Tree.withoutSeparators w) ∧ n.2.start < σ.offset ∧
        σ.offset + width w ≤ n.2.stop)

theorem Rereads.readsNumber (h : σ.Rereads config pre post [(.number, w)]) {i : IntegerLit}
    (hcooked : Tree.integerLit σ.top.digitBase w = i) : σ.ReadsNumber config pre post w i := by
  refine ⟨h, hcooked, fun name l hl => ?_⟩
  rw [← hcooked]
  exact Source.exists_numeral_of_rereads h hl

/-- **`Rewrites`** — what the suggested texts come to in a state in front of a number that is a name.
Provided that no number ends right in front and no delimiter around goes on with a zero, a zero in front
makes it a number of the base if and only if the zero begins no lead, and the lead of the base does if the
base is allowed and is refused if it is not. In parentheses it is a name, provided that no delimiter goes
on with one. -/
structure Rewrites (config : LexerConfig) (pre post : Text) (σ : Scan) (lexeme : Text) (b : Radix) :
    Prop where
  zero : (∀ context ∈ σ.stack, context.Spares '0') → ¬ σ.IsBehindNumber →
    (σ.ReadsNumber config pre post ('0' :: lexeme) ⟨b, '0' :: Tree.withoutSeparators lexeme⟩ ↔
      Radix.ofLead? ('0' :: lexeme) = none)
  lead : (∀ context ∈ σ.stack, context.Spares '0') → ¬ σ.IsBehindNumber → b.value ≤ config.maxRadix →
    σ.ReadsNumber config pre post (b.lead ++ lexeme) ⟨b, Tree.withoutSeparators lexeme⟩
  limit : (∀ context ∈ σ.stack, context.Spares '0') → ¬ σ.IsBehindNumber → config.maxRadix < b.value →
    tokenize config (pre ++ (b.lead ++ lexeme ++ post)) =
      refuse (σ.errors ++ [.baseTooHigh σ.offset b lexeme config.maxRadix])
  parens : (∀ context ∈ σ.stack, context.Spares '(') →
    σ.Rereads config pre post [(.leftParen, ['(']), (.name, lexeme), (.rightParen, [')'])]

/-- A zero that begins a lead takes the first letter from the digits. -/
theorem integerLit_zero_iff (base : Radix) (lexeme : Text) :
    Tree.integerLit base ('0' :: lexeme) = ⟨base, '0' :: Tree.withoutSeparators lexeme⟩ ↔
      Radix.ofLead? ('0' :: lexeme) = none := by
  rw [Tree.integerLit_eq]
  constructor
  · intro h
    rw [Option.eq_none_iff_forall_ne_some]
    intro own hown
    obtain ⟨c, more, heq, -⟩ := Radix.ofLead?_eq_some hown
    cases heq
    have hdigits := congrArg (List.length ∘ IntegerLit.digits) h
    rw [Radix.unled, hown] at hdigits
    have hless : (Tree.withoutSeparators more).length ≤ (Tree.withoutSeparators (c :: more)).length :=
      ((List.sublist_cons_self c more).filter _).length_le
    have hlength : (Tree.withoutSeparators more).length =
        (Tree.withoutSeparators (c :: more)).length + 1 := hdigits
    omega
  · intro h
    rw [h, Radix.unled, h]
    rfl

/-- **What is suggested instead of a number that is a name comes to what it is suggested for**, from the
state in front of it. -/
theorem Doubts.rewrites (h : σ.Doubts b lexeme post)
    (hreaches : Reaches config (pre ++ (lexeme ++ post)) σ (lexeme ++ post)) :
    σ.Rewrites config pre post lexeme b := by
  refine ⟨fun hspared hnumber => ⟨fun hreads => ?_, fun hlead => ?_⟩, fun hspared hnumber hmax => ?_,
    fun hspared hnumber hmax => h.refused_lead hreaches hspared hnumber hmax,
    fun hspared => h.rereads_parens hreaches hspared⟩
  · exact (integerLit_zero_iff b lexeme).mp (h.digitBase_eq ▸ hreads.cooked)
  · refine (h.rereads_zero hreaches hspared hnumber hlead).readsNumber ?_
    rw [h.digitBase_eq]
    exact (integerLit_zero_iff b lexeme).mpr hlead
  · refine (h.rereads_lead hreaches hspared hnumber hmax).readsNumber ?_
    have hlead := Radix.ofLead?_lead b lexeme
    rw [Tree.integerLit_eq, Radix.unled, hlead]
    rfl

/-- **The rewrites that are suggested for a number that is a name.** A scan that is refused for one has come
to a state in front of it, in a block of a base above ten. With a suggested text in its place, the scan
comes there as before and reads the text, with the conditions that `Rewrites` tells. -/
theorem tokenize_rewrites (config : LexerConfig) (source : Text) (errors : List LexError) (start : Nat)
    (lexeme : Text) (b : Radix)
    (h : tokenize config source = refuse (errors ++ [.numberOrName start lexeme b])) :
    ∃ pre post σ, source = pre ++ (lexeme ++ post) ∧ width pre = start ∧
      Reaches config source σ (lexeme ++ post) ∧ σ.offset = start ∧ σ.errors = errors ∧
      σ.Doubts b lexeme post ∧ σ.Rewrites config pre post lexeme b := by
  obtain ⟨pre, post, σ, rfl, hpre, hreaches, hstart, herrors, hdoubts⟩ := exists_doubts h
  exact ⟨pre, post, σ, rfl, hpre, hreaches, hstart, herrors, hdoubts, hdoubts.rewrites hreaches⟩

/-- A number in base 16 that is a name. -/
theorem tokenize_rewrites_of_hexadecimal :
    let source : Text := ['0', 'x', '[', 'a', '1', ']']
    tokenize default source = refuse [.numberOrName 3 ['a', '1'] .hexadecimal] ∧
    ∃ pre post σ, source = pre ++ (['a', '1'] ++ post) ∧ width pre = 3 ∧
      Reaches default source σ (['a', '1'] ++ post) ∧ σ.offset = 3 ∧ σ.errors = [] ∧
      σ.Doubts .hexadecimal ['a', '1'] post ∧ σ.Rewrites default pre post ['a', '1'] .hexadecimal := by
  intro source
  have hrefused : tokenize default source = refuse [.numberOrName 3 ['a', '1'] .hexadecimal] := by
    decide +kernel
  exact ⟨hrefused, tokenize_rewrites default source [] 3 ['a', '1'] .hexadecimal hrefused⟩

/-- **A zero in front of a number that is a name may be its lead**: in base 16 the text `b1` is doubtful,
and `0b1` is read in base 2. -/
theorem exists_zero_misread :
    ¬ ∀ (config : LexerConfig) (pre post lexeme : Text) (errors : List LexError) (b : Radix),
      tokenize config (pre ++ (lexeme ++ post)) =
        refuse (errors ++ [.numberOrName (width pre) lexeme b]) →
      ∀ name l, (⟨pre ++ ('0' :: lexeme ++ post), name⟩ : Source).lex config = .ok l →
        ∃ n ∈ Tree.numeralsOf l.trees, n.1.whole = ⟨b, '0' :: Tree.withoutSeparators lexeme⟩ ∧
          n.2.start = width pre := by
  intro hall
  have hrun : ((Source.mk ['0', 'x', '[', '0', 'b', '1', ']'] none).lex default).toOption.map
      (fun l => Tree.numeralsOf l.trees) = some [(⟨⟨.binary, ['1']⟩, none, none⟩, ⟨3, 6⟩)] := by
    decide +kernel
  obtain ⟨l, hl, hnumerals⟩ := Option.map_eq_some_iff.mp hrun
  obtain ⟨n, hn, hwhole, -⟩ := hall default ['0', 'x', '['] [']'] ['b', '1'] [] .hexadecimal
    (by decide +kernel) none l (toOption_eq_some_iff.mp hl)
  rw [hnumerals, List.mem_singleton] at hn
  subst hn
  exact absurd hwhole (by decide)

/-- Right behind a number with a lead of its own, the zero goes on with that number. -/
example : tokenize default ['0', 'x', '[', '0', 'b', '1', 'c', ']'] =
      refuse [.numberOrName 6 ['c'] .hexadecimal] ∧
    tokenize default ['0', 'x', '[', '0', 'b', '1', '0', 'c', ']'] =
      refuse [.numberOrName 7 ['c'] .hexadecimal] := by
  decide +kernel

end Scan

end DewyFront
