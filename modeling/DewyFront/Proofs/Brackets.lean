/-
# DewyFront.Proofs.Brackets — what begins with a bracket or a hash sign

Between tokens of an expression, a bracket is a token of its own and nothing else. What begins with a
hash sign is a hashtag, a string up to the end of the source, or a heredoc. So where such a string could
begin, it does, and no scan with a result comes to a sigil with nothing but a quote behind it.

* §1 brackets and hash signs;
* §2 all matches at a bracket;
* §3 the matches that stand;
* §4 all matches with a closer behind the text.
-/
import DewyFront.Proofs.Scanning
import DewyFront.Proofs.Trailing

namespace DewyFront

/-! ## §1 Brackets and hash signs -/

/-- The characters that enclose blocks, chevrons aside. -/
def brackets : Text := ['(', ')', '[', ']', '\x7b', '\x7d']

theorem mem_brackets_of_isBlockCloser {c : Char} (h : IsBlockCloser c) : c ∈ brackets := by
  rcases h with rfl | rfl | rfl <;> decide

namespace TokenKind

/-- **`bracket?`** — the bracket that a kind is. -/
def bracket? : TokenKind → Option Char
  | leftParen => some '('
  | rightParen => some ')'
  | leftBracket => some '['
  | rightBracket => some ']'
  | leftBrace => some '\x7b'
  | rightBrace => some '\x7d'
  | _ => none

/-- Kinds whose tokens begin with a hash sign. -/
def isHashed : TokenKind → Bool
  | hashtag | restOfFileOpener | rawRestOfFileOpener | heredocOpener | rawHeredocOpener => true
  | _ => false

/-- Kinds that are read inside of strings only. -/
def isInnerText : TokenKind → Bool
  | stringCloser | heredocCloser | stringText | stringEscape | holeEscape | rawStringText
  | basedStringText => true
  | _ => false

theorem isInnerText_eq_false {kind : TokenKind} {context : ContextKind}
    (hcontext : context.isExpression = true) (hlegal : kind.isLegalIn context = true) :
    kind.isInnerText = false := by
  revert hcontext hlegal
  cases kind <;> cases context <;> decide

/-- What stands in the root may stand in a block, unless it reads on to the end. -/
theorem isLegalIn_blockBody {kind : TokenKind} (h : kind.isLegalIn .root = true)
    (hkind : kind ≠ .restOfFileOpener ∧ kind ≠ .rawRestOfFileOpener) :
    kind.isLegalIn .blockBody = true := by
  revert h hkind
  cases kind <;> decide

/-- Strings up to the end of the source stand in the root only. -/
theorem isLegalIn_restOfFile {kind : TokenKind} {context : ContextKind}
    (hkind : kind = .restOfFileOpener ∨ kind = .rawRestOfFileOpener) :
    kind.isLegalIn context = true ↔ context = .root := by
  rcases hkind with rfl | rfl <;> cases context <;> decide

/-- Closers are all that may stand in a block and not in the root. -/
theorem eq_of_isLegalIn_blockBody {kind : TokenKind} (hroot : kind.isLegalIn .root = false)
    (h : kind.isLegalIn .blockBody = true) :
    kind = .rightBracket ∨ kind = .rightParen ∨ kind = .rightBrace := by
  revert hroot h
  cases kind <;> decide

end TokenKind

theorem Radix.isDigit_mark {a : Char} (ha : a ∈ '#' :: brackets) (base : Radix) :
    base.isDigit a = false := by
  have hall : ('#' :: brackets).all (!base.isDigit ·) = true := by
    cases base <;> rfl
  simpa using List.all_eq_true.mp hall a ha

namespace View

variable {v : View} {a : Char} {t : Text} {kind : TokenKind} {n : Nat}

theorem numberAt_mark (ha : a ∈ '#' :: brackets) (v : View) (start : Nat) (t : Text) :
    v.numberAt start (a :: t) = .ok none := by
  have hlead : Radix.ofLead? (a :: t) = none := by
    have hzero : a ≠ '0' := by
      rintro rfl
      exact absurd ha (by decide)
    simp [Radix.ofLead?, hzero]
  unfold numberAt
  rw [hlead]
  dsimp only
  rw [List.head?_cons, Option.any_some, Radix.isDigit_mark ha, if_neg Bool.false_ne_true]

theorem exponent_mark (ha : a ∈ '#' :: brackets) (hrest : v.rest = a :: t) :
    v.exponent = .ok none := by
  have hmarker : ¬ (a = 'e' ∨ a = 'E' ∨ a = 'p' ∨ a = 'P') := by
    rintro (rfl | rfl | rfl | rfl) <;> exact absurd ha (by decide)
  unfold exponent
  rw [hrest]
  split
  · next heq =>
    cases heq
    rw [if_neg hmarker]
  · rfl

/-- **A bracket is a token of its own**, and what begins with a hash sign is of a few kinds. -/
theorem matchKind_mark (ha : a ∈ '#' :: brackets) (hrest : v.rest = a :: t)
    (htext : kind.isInnerText = false) (hhash : a = '#' → kind.isHashed = false) :
    v.matchKind kind = .ok (if kind.bracket? = some a then some 1 else none) := by
  have hheredoc : ∀ sigil : Text, a ≠ '#' → v.heredoc ('#' :: sigil) = .ok none := by
    intro sigil hne
    have hbegins : ('#' :: sigil).isPrefixOf (a :: t) = false := by
      rw [Bool.eq_false_iff, ne_eq, List.isPrefixOf_iff_prefix, List.cons_prefix_cons]
      exact fun h => hne h.1.symm
    rw [heredoc, hrest, hbegins]
    rfl
  have hblock : v.blockComment = .ok none := by
    have habsent : Lexicon.scanComment (a :: t) = .absent := by
      have hpercent : a ≠ '%' := by
        rintro rfl
        exact absurd ha (by decide)
      simp [Lexicon.scanComment, hpercent]
    rw [blockComment, hrest, habsent]
  cases kind with
  | blockComment => exact hblock
  | number =>
    rw [matchKind, hrest]
    exact numberAt_mark ha v v.start t
  | exponent => exact exponent_mark ha hrest
  | heredocOpener => exact hheredoc _ fun heq => by cases hhash heq
  | rawHeredocOpener => exact hheredoc _ fun heq => by cases hhash heq
  | stringCloser | heredocCloser | stringText | stringEscape | holeEscape | rawStringText
  | basedStringText => cases htext
  | hashtag | restOfFileOpener | rawRestOfFileOpener =>
    rw [matchKind, hrest]
    simp only [brackets, List.mem_cons, List.not_mem_nil, or_false] at ha
    rcases ha with rfl | rfl | rfl | rfl | rfl | rfl | rfl
    · cases hhash rfl
    all_goals rfl
  | _ =>
    rw [matchKind, hrest]
    simp only [brackets, List.mem_cons, List.not_mem_nil, or_false] at ha
    rcases ha with rfl | rfl | rfl | rfl | rfl | rfl | rfl <;> rfl

/-! ## §2 All matches at a bracket -/

/-- The matches of kinds that are refused nowhere, one by one. -/
theorem matchesOf_eq {g : TokenKind → Option Nat} {kinds : List TokenKind}
    (h : ∀ kind ∈ kinds, v.matchKind kind = .ok (g kind)) :
    v.matchesOf kinds = .ok (kinds.flatMap fun kind => ((g kind).map (Match.mk kind)).toList) := by
  induction kinds with
  | nil => rfl
  | cons kind kinds ih =>
    rw [matchesOf, h kind List.mem_cons_self,
      ih fun kind hkind => h kind (List.mem_cons_of_mem _ hkind)]
    rfl

/-- At a bracket matches the kind that it is, if that may stand there. -/
theorem allMatches_bracket (hcontext : v.context.kind.isExpression = true) (ha : a ∈ brackets)
    (hrest : v.rest = a :: t) : v.allMatches =
      .ok ((TokenKind.candidates v.context.kind).flatMap fun kind =>
        ((if kind.bracket? = some a then some 1 else none).map (Match.mk kind)).toList) := by
  refine matchesOf_eq fun kind hkind => ?_
  have hlegal := (List.mem_filter.mp hkind).2
  refine matchKind_mark (List.mem_cons_of_mem _ ha) hrest
    (TokenKind.isInnerText_eq_false hcontext hlegal) ?_
  rintro rfl
  exact absurd ha (by decide)

/-- The only match there is stands. -/
theorem winners_singleton (m : Match) : winners [m] = [m] := by
  have hlongest : longest [m] = [m] := by
    simp [longest, greatestLength]
  have hstands : losesTo [m] m = false := by
    cases m with
    | mk kind length => cases kind <;> rfl
  rw [winners, hlongest]
  simp [hstands]

/-! ## §3 The matches that stand -/

variable {m : Match}

/-- A match that is as long as the one that stands is that one, unless its kind gives way to some. -/
theorem eq_of_stands (hstands : Scan.Stands v m)
    (hlegal : kind.isLegalIn v.context.kind = true) (hmatch : v.matchKind kind = .ok (some n))
    (hle : m.length ≤ n) (hkind : ∀ p ∈ TokenKind.precedence, p.2 ≠ kind) :
    m.kind = kind ∧ m.length = n := by
  obtain ⟨found, hfound, hlongest⟩ := hstands.others kind hlegal
  rw [hmatch] at hfound
  cases hfound
  obtain ⟨hge, htie⟩ := hlongest n rfl
  have hlength : n = m.length := Nat.le_antisymm hge hle
  rcases htie hlength with heq | hprecedence
  · exact ⟨heq.symm, hlength.symm⟩
  · exact absurd rfl (hkind _ hprecedence)

/-- What stands at a bracket is that bracket. -/
theorem bracket?_of_stands (hcontext : v.context.kind.isExpression = true)
    (hstands : Scan.Stands v m) (ha : a ∈ brackets) (hrest : v.rest = a :: t) :
    m.kind.bracket? = some a := by
  have hmatch := hstands.taken
  rw [matchKind_mark (List.mem_cons_of_mem _ ha) hrest
    (TokenKind.isInnerText_eq_false hcontext hstands.legal)
    (by rintro rfl; exact absurd ha (by decide))] at hmatch
  by_contra hne
  rw [if_neg hne] at hmatch
  cases hmatch

/-- Nothing that closes blocks stands in the root. -/
theorem not_isBlockCloser_of_stands (hcontext : v.context.kind = .root)
    (hstands : Scan.Stands v m) (hrest : v.rest = a :: t) : ¬ IsBlockCloser a := by
  intro ha
  have hbracket := bracket?_of_stands (by rw [hcontext]; rfl) hstands
    (mem_brackets_of_isBlockCloser ha) hrest
  have hlegal := hstands.legal
  rw [hcontext] at hlegal
  generalize m.kind = kind at hbracket hlegal
  rcases ha with rfl | rfl | rfl <;> cases kind <;> cases hbracket <;> cases hlegal

/-- What stands at a hash sign is of one of the kinds that begin with it. -/
theorem isHashed_of_stands (hcontext : v.context.kind.isExpression = true)
    (hstands : Scan.Stands v m) (hrest : v.rest = '#' :: t) : m.kind.isHashed = true := by
  have hmatch := hstands.taken
  by_contra hhash
  rw [matchKind_mark List.mem_cons_self hrest
    (TokenKind.isInnerText_eq_false hcontext hstands.legal)
    (fun _ => Bool.eq_false_iff.mpr hhash)] at hmatch
  generalize m.kind = kind at hmatch
  cases kind <;> cases hmatch

theorem eq_of_isQuote {q : Char} (hq : isQuote q = true) : q = '"' ∨ q = '\'' := by
  rw [isQuote, Bool.or_eq_true, beq_iff_eq, beq_iff_eq] at hq
  exact hq

/-- A heredoc has a delimiter, which does not begin with a quote. -/
theorem heredoc_of_head {sigil : Text} {q : Char} (hrest : v.rest = sigil ++ q :: t)
    (ht : t.head?.all isQuote = true) : v.heredoc sigil = .ok none := by
  have hdelimiter : t.takeWhile Lexicon.isDelimiterCharacter = [] := by
    cases t with
    | nil => rfl
    | cons d t =>
      refine List.takeWhile_cons_of_neg ?_
      rcases eq_of_isQuote ht with rfl | rfl <;> decide
  rw [heredoc_of_quote hrest, hdelimiter, List.isEmpty_nil, Bool.or_true]
  rfl

/-- Behind a hash sign and a quote stands a heredoc, or the quotes of a string without an end. -/
theorem hashed_of_quote {q : Char} (hq : isQuote q = true) (hrest : v.rest = '#' :: q :: t)
    (ht : t.head?.all isQuote = true) (hkind : kind.isHashed = true)
    (hmatch : v.matchKind kind = .ok (some n)) : kind = .restOfFileOpener := by
  cases kind <;> cases hkind
  case restOfFileOpener => rfl
  case hashtag | rawRestOfFileOpener =>
    rw [matchKind, hrest] at hmatch
    rcases eq_of_isQuote hq with rfl | rfl <;> cases hmatch
  case heredocOpener =>
    rw [matchKind, heredoc_of_head hrest ht] at hmatch
    cases hmatch
  case rawHeredocOpener =>
    rw [matchKind, heredoc, hrest] at hmatch
    rcases eq_of_isQuote hq with rfl | rfl <;> cases hmatch

/-- The same behind the sigil of raw strings, which may be a hashtag besides. -/
theorem hashed_of_raw_quote {q : Char} (hq : isQuote q = true) (hrest : v.rest = '#' :: 'r' :: q :: t)
    (ht : t.head?.all isQuote = true) (hkind : kind.isHashed = true)
    (hmatch : v.matchKind kind = .ok (some n)) :
    kind = .rawRestOfFileOpener ∨ kind = .hashtag ∧ n = 2 := by
  cases kind <;> cases hkind
  case rawRestOfFileOpener => exact .inl rfl
  case hashtag =>
    rw [matchKind, hrest] at hmatch
    rcases eq_of_isQuote hq with rfl | rfl <;> cases hmatch <;> exact .inr ⟨rfl, rfl⟩
  case restOfFileOpener =>
    rw [matchKind, hrest] at hmatch
    cases hmatch
  case heredocOpener =>
    rw [matchKind, heredoc, hrest] at hmatch
    cases hmatch
  case rawHeredocOpener =>
    rw [matchKind, heredoc_of_head hrest ht] at hmatch
    cases hmatch

/-- What begins with one of two spellings of a sigil and three quotes. -/
theorem exists_of_either {x y : String} (h : either x y t = some n) :
    n = x.length ∧ ∃ more, t = x.toList ++ more ∨ t = y.toList ++ more := by
  unfold either at h
  split at h
  · next hbegins =>
    cases h
    refine ⟨rfl, ?_⟩
    rw [Bool.or_eq_true, List.isPrefixOf_iff_prefix, List.isPrefixOf_iff_prefix] at hbegins
    rcases hbegins with ⟨more, rfl⟩ | ⟨more, rfl⟩
    · exact ⟨more, .inl rfl⟩
    · exact ⟨more, .inr rfl⟩
  · cases h

/-- **Where a string up to the end of the source could begin, it does.** -/
theorem kind_eq_of_restOfFile (hstands : Scan.Stands v m)
    (hkind : kind = .restOfFileOpener ∨ kind = .rawRestOfFileOpener)
    (hlegal : kind.isLegalIn v.context.kind = true) (hmatch : v.matchKind kind = .ok (some n)) :
    m.kind = kind := by
  have hcontext : v.context.kind.isExpression = true := by
    rw [(TokenKind.isLegalIn_restOfFile hkind).mp hlegal]
    rfl
  obtain ⟨found, hfound, hlongest⟩ := hstands.others kind hlegal
  rw [hmatch] at hfound
  cases hfound
  have hle := (hlongest n rfl).1
  -- Of the kinds that begin with the sigil, only a hashtag matches besides, and it is too short.
  rcases hkind with rfl | rfl
  · obtain ⟨-, more, hrest⟩ := exists_of_either (Except.ok.inj hmatch)
    rcases hrest with hrest | hrest
    · exact hashed_of_quote rfl hrest rfl (isHashed_of_stands hcontext hstands hrest) hstands.taken
    · exact hashed_of_quote rfl hrest rfl (isHashed_of_stands hcontext hstands hrest) hstands.taken
  · obtain ⟨rfl, more, hrest⟩ := exists_of_either (Except.ok.inj hmatch)
    have hshort : m.length ≠ 2 := by
      intro hlength
      rw [hlength] at hle
      exact absurd hle (by decide)
    rcases hrest with hrest | hrest
    · exact (hashed_of_raw_quote rfl hrest rfl (isHashed_of_stands hcontext hstands hrest)
        hstands.taken).resolve_right fun h => hshort h.2
    · exact (hashed_of_raw_quote rfl hrest rfl (isHashed_of_stands hcontext hstands hrest)
        hstands.taken).resolve_right fun h => hshort h.2

/-- Where something else stands, no such string does. -/
theorem matchKind_restOfFile (hstands : Scan.Stands v m)
    (hm : m.kind ≠ .restOfFileOpener ∧ m.kind ≠ .rawRestOfFileOpener)
    (hkind : kind = .restOfFileOpener ∨ kind = .rawRestOfFileOpener)
    (hlegal : kind.isLegalIn v.context.kind = true) : v.matchKind kind = .ok none := by
  obtain ⟨found, hfound, -⟩ := hstands.others kind hlegal
  cases found with
  | none => exact hfound
  | some n =>
    have heq := kind_eq_of_restOfFile hstands hkind hlegal hfound
    rcases hkind with rfl | rfl
    · exact absurd heq hm.1
    · exact absurd heq hm.2

/-- Nothing stands at a hash sign with nothing but a quote behind it. -/
theorem rest_ne_of_stands {q : Char} (hcontext : v.context.kind.isExpression = true)
    (hstands : Scan.Stands v m) (hq : isQuote q = true) : v.rest ≠ ['#', q] := by
  intro hrest
  have htaken := hstands.taken
  rw [hashed_of_quote hq hrest rfl (isHashed_of_stands hcontext hstands hrest) htaken, matchKind,
    hrest] at htaken
  rcases eq_of_isQuote hq with rfl | rfl <;> cases htaken

/-- At the sigil of raw strings with nothing but a quote behind it stands a hashtag. -/
theorem hashtag_of_stands {q : Char} (hcontext : v.context.kind.isExpression = true)
    (hstands : Scan.Stands v m) (hq : isQuote q = true) (hrest : v.rest = ['#', 'r', q]) :
    m.kind = .hashtag ∧ m.length = 2 := by
  have htaken := hstands.taken
  rcases hashed_of_raw_quote hq hrest rfl (isHashed_of_stands hcontext hstands hrest) htaken with
    hkind | hkind
  · rw [hkind, matchKind, hrest] at htaken
    rcases eq_of_isQuote hq with rfl | rfl <;> cases htaken
  · exact hkind

/-- At a single quote stands the opener of a string. -/
theorem stringOpener_of_stands {q : Char} (hcontext : v.context.kind.isExpression = true)
    (hstands : Scan.Stands v m) (hv : v.context.Ends) (hq : isQuote q = true) (hrest : v.rest = [q]) :
    m.kind = .stringOpener ∧ m.length = 1 := by
  have hlegal : TokenKind.stringOpener.isLegalIn v.context.kind = true := hcontext
  have hmatch : v.matchKind .stringOpener = .ok (some 1) := by
    rw [matchKind, hrest]
    rcases eq_of_isQuote hq with rfl | rfl <;> rfl
  have hbound := (hstands.bounds hv).2
  rw [hrest, List.length_singleton] at hbound
  exact eq_of_stands hstands hlegal hmatch hbound (by decide)

/-! ## §4 All matches with a closer behind the text -/

variable {v' : View} {c : Char}

/-- The matches of two choices of kinds are the same, if what only one of them tries does not match. -/
theorem matchesOf_filter {p q : TokenKind → Bool} (kinds : List TokenKind)
    (hp : ∀ kind, p kind = true → (q kind = true ∧ v'.matchKind kind = v.matchKind kind) ∨
      (q kind = false ∧ v.matchKind kind = .ok none))
    (hq : ∀ kind, p kind = false → q kind = true → v'.matchKind kind = .ok none) :
    v'.matchesOf (kinds.filter q) = v.matchesOf (kinds.filter p) := by
  have hskip : ∀ (w : View) (kind : TokenKind) (kinds : List TokenKind),
      w.matchKind kind = .ok none → w.matchesOf (kind :: kinds) = w.matchesOf kinds := by
    intro w kind kinds h
    rw [matchesOf, h]
    cases w.matchesOf kinds <;> rfl
  induction kinds with
  | nil => rfl
  | cons kind kinds ih =>
    -- A kind that only one choice tries adds nothing to its matches.
    cases hkind : p kind with
    | true =>
      rw [List.filter_cons_of_pos hkind]
      rcases hp kind hkind with ⟨hlegal, hmatch⟩ | ⟨hlegal, hmatch⟩
      · rw [List.filter_cons_of_pos hlegal, matchesOf, matchesOf, hmatch, ih]
      · rw [List.filter_cons_of_neg (Bool.eq_false_iff.mp hlegal), hskip v kind _ hmatch, ih]
    | false =>
      rw [List.filter_cons_of_neg (Bool.eq_false_iff.mp hkind)]
      cases hlegal : q kind with
      | true => rw [List.filter_cons_of_pos hlegal, hskip v' kind _ (hq kind hkind hlegal), ih]
      | false => rw [List.filter_cons_of_neg (Bool.eq_false_iff.mp hlegal), ih]

/-- A closer behind a text of the root does not stand at the front. -/
theorem matchKind_closer (h : Extends c v v') (hv : v.rest ≠ []) (hroot : v.context.kind = .root)
    (hstands : Scan.Stands v m)
    (hkind : kind = .rightBracket ∨ kind = .rightParen ∨ kind = .rightBrace) :
    v'.matchKind kind = .ok none := by
  obtain ⟨a, t, hsplit⟩ := List.exists_cons_of_ne_nil hv
  have hcloser := not_isBlockCloser_of_stands hroot hstands hsplit
  have hsingle : ∀ d, IsBlockCloser d → single d v'.rest = none := by
    intro d hd
    rw [single, h.rest, hsplit, if_neg]
    intro heq
    cases heq
    exact hcloser hd
  rcases hkind with rfl | rfl | rfl
  · rw [matchKind, hsingle _ (.inr (.inl rfl))]
  · rw [matchKind, hsingle _ (.inl rfl)]
  · rw [matchKind, hsingle _ (.inr (.inr rfl))]

/-- **With a closer behind the text the same matches are found**, where a token stands that does not
read on to the end. -/
theorem allMatches_concat (hc : IsBlockCloser c) (h : Extends c v v') (hv : v.rest ≠ [])
    (hopen : ¬ v.IsOpenEnded) (hending : v.context.ending? ≠ some .endOfSource)
    (htext : ∀ d, v.context.ending?.bind Ending.text? = some d → d <:+: v.rest)
    (hstands : Scan.Stands v m)
    (hkind : m.kind ≠ .restOfFileOpener ∧ m.kind ≠ .rawRestOfFileOpener) :
    v'.allMatches = v.allMatches := by
  have hsame : ∀ kind, kind.isLegalIn v.context.kind = true →
      kind ≠ .restOfFileOpener ∧ kind ≠ .rawRestOfFileOpener →
      v'.matchKind kind = v.matchKind kind := by
    intro kind hlegal hne
    obtain ⟨found, hfound, -⟩ := hstands.others kind hlegal
    rw [hfound]
    exact matchKind_concat hc h hv hopen hending htext hlegal hne hfound
  rcases h.context.kinds with ⟨hroot, hkinds⟩ | ⟨hroot, hblock⟩
  · -- Both try the same kinds, and a string up to the end of the source is none of them.
    refine matchesOf_filter TokenKind.all (fun kind hlegal => .inl ⟨?_, hsame kind hlegal ?_⟩) ?_
    · rw [hkinds]
      exact hlegal
    · exact not_or.mp fun hrest => hroot ((TokenKind.isLegalIn_restOfFile hrest).mp hlegal)
    · intro kind hillegal hlegal
      rw [hkinds, hillegal] at hlegal
      cases hlegal
  · refine matchesOf_filter TokenKind.all (fun kind hlegal => ?_) fun kind hillegal hlegal => ?_
    · by_cases hrest : kind = .restOfFileOpener ∨ kind = .rawRestOfFileOpener
      · refine .inr ⟨Bool.eq_false_iff.mpr fun hlegal' => ?_,
          matchKind_restOfFile hstands hkind hrest hlegal⟩
        have hroot' := (TokenKind.isLegalIn_restOfFile hrest).mp hlegal'
        rw [hblock] at hroot'
        cases hroot'
      · rw [hroot] at hlegal
        refine .inl ⟨?_, hsame kind (hroot ▸ hlegal) (not_or.mp hrest)⟩
        rw [hblock]
        exact TokenKind.isLegalIn_blockBody hlegal (not_or.mp hrest)
    · -- Only the block tries closers, and none of them stands here.
      rw [hroot] at hillegal
      rw [hblock] at hlegal
      exact matchKind_closer h hv hroot hstands (TokenKind.eq_of_isLegalIn_blockBody hillegal hlegal)

end View

end DewyFront
