/-
# DewyFront.Proofs.Strings — from the tokens of a string to the text that it denotes

A string without holes is an opener, a row of texts and escapes, and a closer. If each of these tokens
stands at its place, a scan takes them one after the other and pairs the opener with the closer, and the
items of the source are one atom: the text that the row denotes.

* §1 the match that stands is taken;
* §2 rows of texts and escapes;
* §3 scanning a row;
* §4 the item of a row;
* §5 whole sources.
-/
import DewyFront.Proofs.Admission
import DewyFront.Proofs.Enclosing
import Mathlib.Data.List.Nodup

namespace DewyFront

/-! ## §1 The match that stands -/

namespace View

variable {v : View} {kinds : List TokenKind} {ms : List Match} {m : Match} {n : Nat}

/-- Where no kind is refused there are matches, at most one of each kind. -/
theorem exists_matchesOf (h : ∀ kind ∈ kinds, ∃ found, v.matchKind kind = .ok found) :
    ∃ ms, v.matchesOf kinds = .ok ms ∧ (ms.map (·.kind)).Sublist kinds := by
  induction kinds with
  | nil => exact ⟨[], rfl, .slnil⟩
  | cons kind kinds ih =>
    obtain ⟨hkind, hkinds⟩ := List.forall_mem_cons.mp h
    obtain ⟨found, hfound⟩ := hkind
    obtain ⟨ms, hms, hsublist⟩ := ih hkinds
    refine ⟨(found.map (Match.mk kind)).toList ++ ms, ?_, ?_⟩
    · rw [matchesOf, hfound, hms]
      rfl
    · cases found with
      | none => exact hsublist.cons kind
      | some n => exact hsublist.cons_cons kind

theorem greatestLength_le (h : ∀ m ∈ ms, m.length ≤ n) : greatestLength ms ≤ n := by
  have hfold : ∀ best ≤ n, ms.foldl (fun k m => max k m.length) best ≤ n := by
    induction ms with
    | nil => exact fun _ hbest => hbest
    | cons first ms ih =>
      obtain ⟨hfirst, hms⟩ := List.forall_mem_cons.mp h
      exact fun best hbest => ih hms _ (Nat.max_le.mpr ⟨hbest, hfirst⟩)
  exact hfold 0 (Nat.zero_le _)

/-- **One match is left** if the others are shorter or give way to it. -/
theorem winners_eq_singleton (hnodup : ms.Nodup) (hm : m ∈ ms)
    (hothers : ∀ m' ∈ ms, m'.length ≤ m.length ∧
      (m'.length = m.length → m' = m ∨ (m.kind, m'.kind) ∈ TokenKind.precedence)) :
    winners ms = [m] := by
  have hgreatest : m.length = greatestLength ms :=
    Nat.le_antisymm (length_le_greatestLength hm) (greatestLength_le fun m' h => (hothers m' h).1)
  have hlongest : m ∈ longest ms := mem_longest.mpr ⟨hm, hgreatest⟩
  have honly : ∀ m', m' ∈ winners ms ↔ m' = m := by
    intro m'
    rw [mem_winners]
    constructor
    · rintro ⟨hm', hstands⟩
      obtain ⟨hmem, hlength⟩ := mem_longest.mp hm'
      refine ((hothers m' hmem).2 (hlength.trans hgreatest.symm)).resolve_right fun hgives => ?_
      refine Bool.false_ne_true (hstands.symm.trans (List.any_eq_true.mpr ⟨_, hgives, ?_⟩))
      show (m'.kind == m'.kind && (longest ms).any (·.kind == m.kind)) = true
      rw [beq_self_eq_true, Bool.true_and]
      exact List.any_eq_true.mpr ⟨m, hlongest, beq_self_eq_true _⟩
    · rintro rfl
      refine ⟨hlongest, Bool.eq_false_iff.mpr fun hloses => ?_⟩
      -- What it would give way to is itself, or gives way to it.
      obtain ⟨p, hp, hbeats⟩ := List.any_eq_true.mp hloses
      obtain ⟨w, hw, hkind⟩ := List.any_eq_true.mp (Bool.and_eq_true_iff.mp hbeats).2
      obtain ⟨hmem, hlength⟩ := mem_longest.mp hw
      have hstands : losesTo (longest ms) m' = false := by
        rcases (hothers w hmem).2 (hlength.trans hgreatest.symm) with rfl | hgives
        · exact losesTo_eq_false hp (eq_of_beq hkind) _
        · exact losesTo_eq_false hgives rfl _
      exact Bool.false_ne_true (hstands.symm.trans hloses)
  have hwinners : (winners ms).Nodup := (hnodup.filter _).filter _
  exact List.perm_singleton.mp
    ((List.perm_ext_iff_of_nodup hwinners (List.nodup_singleton m)).mpr fun m' =>
      (honly m').trans List.mem_singleton.symm)

end View

namespace Scan

variable {config : LexerConfig} {source rest lexeme : Text} {s next : Scan} {kind : TokenKind}
  {m : View.Match} {v : View}

/-- **The match that stands is the only one left.** -/
theorem Stands.exists_winners (h : Stands v m) :
    ∃ ms, v.allMatches = .ok ms ∧ View.winners ms = [m] := by
  have hlegal : ∀ {kind}, kind ∈ TokenKind.candidates v.context.kind ↔
      kind.isLegalIn v.context.kind = true := by
    intro kind
    rw [TokenKind.candidates, List.mem_filter, and_iff_right (mem_all kind)]
  have hkinds : (TokenKind.candidates v.context.kind).Nodup :=
    List.Nodup.filter _ (by decide)
  obtain ⟨ms, hms, hsublist⟩ := View.exists_matchesOf fun kind hkind => by
    obtain ⟨found, hfound, -⟩ := h.others kind (hlegal.mp hkind)
    exact ⟨found, hfound⟩
  refine ⟨ms, hms, View.winners_eq_singleton (.of_map _ (hsublist.nodup hkinds)) ?_ ?_⟩
  · exact ((View.mem_of_matchesOf hms).2 m).mpr ⟨hlegal.mpr h.legal, h.taken⟩
  · intro m' hm'
    obtain ⟨hkind, hmatch⟩ := ((View.mem_of_matchesOf hms).2 m').mp hm'
    obtain ⟨found, hfound, hlongest⟩ := h.others m'.kind (hlegal.mp hkind)
    obtain ⟨hle, htie⟩ := hlongest m'.length (Except.ok.inj (hfound.symm.trans hmatch))
    refine ⟨hle, fun hlength => (htie hlength).imp_left fun heq => ?_⟩
    cases m
    cases m'
    exact congr (congrArg View.Match.mk heq) hlength

/-- **The longest match stands**, if no kind is refused. -/
theorem stands_of_longest (hlegal : m.kind.isLegalIn v.context.kind = true)
    (htaken : v.matchKind m.kind = .ok (some m.length))
    (hothers : ∀ kind, kind.isLegalIn v.context.kind = true → kind ≠ m.kind →
      ∃ found, v.matchKind kind = .ok found ∧ ∀ n, found = some n → n < m.length) : Stands v m := by
  refine ⟨hlegal, htaken, fun kind hkind => ?_⟩
  by_cases heq : kind = m.kind
  · subst heq
    refine ⟨_, htaken, fun n hn => ?_⟩
    cases hn
    exact ⟨Nat.le_refl _, fun _ => .inl rfl⟩
  · obtain ⟨found, hfound, hshort⟩ := hothers kind hkind heq
    exact ⟨found, hfound, fun n hn => ⟨Nat.le_of_lt (hshort n hn), fun hlength =>
      absurd hlength (Nat.ne_of_lt (hshort n hn))⟩⟩

/-- What stands in front of a text is taken off it. -/
theorem Reaches.take (h : Reaches config source s (lexeme ++ rest)) (hlexeme : lexeme ≠ [])
    (hstands : Stands (s.view config (lexeme ++ rest)) ⟨kind, lexeme.length⟩)
    (htake : s.take kind lexeme = .ok next) : Reaches config source next rest := by
  obtain ⟨ms, hms, hwinners⟩ := hstands.exists_winners
  have hstep : s.step config (lexeme ++ rest) = .ok (next, lexeme.length) :=
    step_of_winners hms hwinners (by rw [List.take_left]; exact htake)
  have hnext := h.step (List.append_ne_nil_of_left_ne_nil hlexeme _) hstep
  rwa [List.drop_left] at hnext

end Scan

/-! ## §2 Rows -/

/-- **`Fragment`** — a token inside of a string: its kind, its text, and the text that it denotes. -/
structure Fragment where
  kind : TokenKind
  lexeme : Text
  value : Text

/-- Kinds that open a string of text. -/
def TokenKind.opensText : TokenKind → Bool
  | stringOpener | rawStringOpener | heredocOpener | rawHeredocOpener => true
  | _ => false

/-- Kinds that open a string that something closes. -/
def TokenKind.awaitsCloser (kind : TokenKind) : Bool := kind.opensText || kind == .basedStringOpener

namespace Fragment

/-- **`Denotes`** — a text of a string denotes itself, and an escape what it is cooked to. -/
inductive Denotes : Fragment → Prop
  | text (t : Text) : Denotes ⟨.stringText, t, t⟩
  | rawText (t : Text) : Denotes ⟨.rawStringText, t, t⟩
  | escape {e t : Text} (h : ∀ l : Lexeme, l.text = e → Tree.escapeText l = .ok t) :
      Denotes ⟨.stringEscape, e, t⟩

/-- How fragments are written. -/
def spelled (fs : List Fragment) : Text := fs.flatMap (·.lexeme)

/-- The text that fragments denote. -/
def denoted (fs : List Fragment) : Text := fs.flatMap (·.value)

@[simp] theorem spelled_nil : spelled [] = [] := rfl

@[simp] theorem denoted_nil : denoted [] = [] := rfl

@[simp] theorem spelled_cons (f : Fragment) (fs : List Fragment) :
    spelled (f :: fs) = f.lexeme ++ spelled fs := List.flatMap_cons

@[simp] theorem denoted_cons (f : Fragment) (fs : List Fragment) :
    denoted (f :: fs) = f.value ++ denoted fs := List.flatMap_cons

/-- Whether a lexeme is a token of a fragment. -/
def IsTokenOf (l : Lexeme) (f : Fragment) : Prop := l.kind = f.kind ∧ l.text = f.lexeme

end Fragment

namespace Context

/-- **`Fits`** — wherever a context is the innermost one, a kind takes a text off the front of what is
left. -/
def Fits (context : Context) (kind : TokenKind) (lexeme rest : Text) : Prop :=
  ∀ v : View, v.context = context → v.rest = lexeme ++ rest → Scan.Stands v ⟨kind, lexeme.length⟩

/-- **`Row`** — each of some fragments satisfies `q`, and fits in a context in front of those behind it and
what closes the string. -/
inductive Row (q : Fragment → Prop) (context : Context) (closing : Text) : List Fragment → Prop
  | nil : Row q context closing []
  | cons {f : Fragment} {fs : List Fragment}
      (hfits : context.Fits f.kind f.lexeme (Fragment.spelled fs ++ closing)) (hf : q f)
      (hfs : Row q context closing fs) : Row q context closing (f :: fs)

/-- A row of texts and escapes. -/
abbrev Reads (context : Context) (closing : Text) (fs : List Fragment) : Prop :=
  Row Fragment.Denotes context closing fs

theorem Row.forall_mem {q : Fragment → Prop} {context : Context} {closing : Text} {fs : List Fragment}
    (h : Row q context closing fs) : ∀ f ∈ fs, q f := by
  induction h with
  | nil => exact List.forall_mem_nil _
  | cons _ hf _ ih => exact List.forall_mem_cons.mpr ⟨hf, ih⟩

end Context

namespace Scan

variable {config : LexerConfig} {source rest closing lexeme : Text} {s : Scan} {context : Context}
  {f : Fragment} {fs : List Fragment}

/-! ## §3 Scanning a row -/

/-- **`Records`** — fragments that satisfy `q` are recorded, and the lone carriage returns found with them
satisfy `r` if those found before did. -/
def Records (q : Fragment → Prop) (r : List Nat → Prop) : Prop :=
  ∀ (f : Fragment) (s : Scan), q f → r s.loneReturns → ∃ returns, r returns ∧
    s.take f.kind f.lexeme = .ok { s.record f.kind f.lexeme with loneReturns := returns }

/-- Texts and escapes are not searched for carriage returns. -/
theorem records_denotes (r : List Nat → Prop) : Records Fragment.Denotes r := by
  intro f s hf hr
  refine ⟨s.loneReturns, hr, ?_⟩
  cases hf <;> rfl

/-- **`Passes`** — a state and the one behind some fragments: these have been recorded, and nothing
else has changed that the end of the scan looks at but the lone carriage returns. -/
structure Passes (source : Text) (r : List Nat → Prop) (s next : Scan) (fs : List Fragment) : Prop where
  stack : next.stack = s.stack
  errors : next.errors = s.errors
  loneReturns : r next.loneReturns
  lexemes : ∃ inner, next.tokens.lexemes source = s.tokens.lexemes source ++ inner ∧
    List.Forall₂ Fragment.IsTokenOf inner fs

/-- What stands in front of a text stands in the source. -/
theorem Grounded.slice_append (h : Grounded source s (lexeme ++ rest)) :
    (Span.mk s.offset (s.offset + width lexeme)).slice source = lexeme := by
  have hslice := h.slice_eq lexeme.length
  rwa [List.take_left] at hslice

variable {q : Fragment → Prop} {r : List Nat → Prop}

/-- **A row is scanned token by token.** -/
theorem Reaches.exists_passes (h : Reaches config source s (Fragment.spelled fs ++ closing))
    (hrecords : Records q r) (hreturns : r s.loneReturns) (hrow : s.top.Row q closing fs) :
    ∃ next, Reaches config source next closing ∧ Passes source r s next fs := by
  generalize htop : s.top = context at hrow
  induction hrow generalizing s with
  | nil => exact ⟨s, h, rfl, rfl, hreturns, [], by rw [List.append_nil], .nil⟩
  | @cons f fs hfits hf hfs ih =>
    rw [Fragment.spelled_cons, List.append_assoc] at h
    have hlexemes := lexemes_record s f.kind h.grounded.slice_append
    have hstands : Stands (s.view config (f.lexeme ++ (Fragment.spelled fs ++ closing)))
        ⟨f.kind, f.lexeme.length⟩ := hfits _ htop rfl
    have hpos := (hstands.bounds h.grounded.ends_top).1
    obtain ⟨returns, hfound, htake⟩ := hrecords f s hf hreturns
    have hrecord := h.take (List.ne_nil_of_length_pos hpos) hstands htake
    obtain ⟨next, hnext, hpasses⟩ := ih hrecord hfound htop
    obtain ⟨inner, hinner, htokens⟩ := hpasses.lexemes
    refine ⟨next, hnext, hpasses.stack, hpasses.errors, hpasses.loneReturns,
      ⟨s.tokens.size, f.kind, ⟨s.offset, s.offset + width f.lexeme⟩, none, f.lexeme⟩ :: inner, ?_,
      .cons ⟨rfl, rfl⟩ htokens⟩
    rw [hinner, ← List.singleton_append, ← List.append_assoc, ← hlexemes]

end Scan

/-! ## §4 The item of a row -/

namespace Tree

variable {fs : List Fragment} {inner : List Lexeme} {l closer : Lexeme}

/-- The tokens of a row are its texts. -/
theorem piecesOf_eq (h : List.Forall₂ Fragment.IsTokenOf inner fs) (hfs : ∀ f ∈ fs, f.Denotes) :
    piecesOf inner = .ok (fs.map fun f => .text f.value) := by
  induction h with
  | nil => rw [piecesOf]; rfl
  | @cons l f inner fs htoken _ ih =>
    obtain ⟨hf, hfs⟩ := List.forall_mem_cons.mp hfs
    obtain ⟨hkind, htext⟩ := htoken
    rw [piecesOf, ih hfs]
    cases hf with
    | text t | rawText t =>
      rw [hkind, htext]
      rfl
    | escape hcooked =>
      rw [hkind]
      dsimp only
      rw [hcooked l htext]
      rfl

/-- Texts without holes between them are one text. -/
theorem joinTexts_texts (fs : List Fragment) :
    joinTexts (fs.map fun f => .text f.value) = (Fragment.denoted fs, []) := by
  induction fs with
  | nil => rfl
  | cons f fs ih => simp only [List.map_cons, joinTexts, ih, Fragment.denoted_cons]

/-- **A string without holes is one atom**: an opener, the tokens of a row, and the closer that the opener
is paired with. -/
theorem ofLexemes_of_row (base : Radix) (hopener : l.kind.opensText = true) (hplace : l.place = 0)
    (hpartner : l.partner = some (inner.length + 1))
    (h : List.Forall₂ Fragment.IsTokenOf inner fs) (hfs : ∀ f ∈ fs, f.Denotes) :
    ofLexemes base none (l :: (inner ++ [closer])) =
      .ok [.leaf (.atom (.string (Fragment.denoted fs))) (l.span.merge closer.span)] := by
  have hencloses : l.enclosed? (inner ++ [closer]) = some ⟨inner, closer, []⟩ := by
    have hcloser : (l :: (inner ++ [closer]))[inner.length + 1]? = some closer := by
      rw [List.getElem?_cons_succ, List.getElem?_append_right (Nat.le_refl _), Nat.sub_self,
        List.getElem?_cons_zero]
    have hafter : (inner ++ [closer]).drop (inner.length + 1) = [] := by
      apply List.drop_eq_nil_of_le
      simp
    rw [Lexeme.enclosed?, hpartner, hplace]
    show ((l :: (inner ++ [closer]))[inner.length + 1]?).bind _ = _
    rw [hcloser]
    show some (Enclosed.mk ((inner ++ [closer]).take inner.length) closer
      ((inner ++ [closer]).drop (inner.length + 1))) = _
    rw [List.take_left, hafter]
  have hbody : stringBody l (inner ++ [closer]) =
      ⟨inner, l.span.merge closer.span, some closer, []⟩ := by
    rw [stringBody, hencloses]
  have hitem : ofPieces (fs.map fun f => .text f.value) (l.span.merge closer.span) =
      .leaf (.atom (.string (Fragment.denoted fs))) (l.span.merge closer.span) := by
    rw [ofPieces, joinTexts_texts]
  have hend : ofLexemes base (some closer) [] = .ok [] := by rw [ofLexemes]
  have hkind : l.kind = .stringOpener ∨ l.kind = .rawStringOpener ∨ l.kind = .heredocOpener ∨
      l.kind = .rawHeredocOpener := by
    revert hopener
    cases l.kind <;> decide
  rw [ofLexemes]
  rcases hkind with hkind | hkind | hkind | hkind <;>
  · rw [hkind]
    dsimp only
    rw [hbody, piecesOf_eq h hfs]
    show (ofLexemes base (some closer) [] >>= fun more =>
      pure (ofPieces (fs.map fun f => .text f.value) (l.span.merge closer.span) :: more)) = _
    rw [hend, hitem]
    rfl

end Tree

/-! ## §5 Whole sources -/

/-- The first token and the last one become partners. -/
theorem TokenList.lexemes_pair {tokens : TokenList} {source : Text} {first last : Lexeme}
    {inner : List Lexeme} (h : tokens.lexemes source = first :: inner ++ [last]) :
    (tokens.pair 0 (inner.length + 1)).lexemes source =
      { first with partner := some (inner.length + 1) } ::
        (inner ++ [{ last with partner := some 0 }]) := by
  have hsplit : tokens.lexemes source = [] ++ first :: (inner ++ [last]) := h
  have hfirst : (tokens.setPartner 0 (inner.length + 1)).lexemes source =
      ({ first with partner := some (inner.length + 1) } :: inner) ++ last :: [] :=
    lexemes_setPartner (inner.length + 1) hsplit
  exact lexemes_setPartner 0 hfirst

/-- **`Denotes`** — a source is lexed without a warning to one item, the atom of a text, which spans
all of it. -/
def Source.Denotes (config : LexerConfig) (s : Source) (t : Text) : Prop :=
  ∃ tokens, s.lex config = .ok ⟨tokens, [.leaf (.atom (.string t)) ⟨0, s.size⟩], []⟩

namespace Scan

variable {config : LexerConfig} {source closing lexeme : Text} {s : Scan}
  {opener closer : TokenKind} {context : Context} {fs : List Fragment} {q : Fragment → Prop}
  {r : List Nat → Prop}

/-- **`Opens`** — a text opens a string at the start of a source, and begins a context there. -/
structure Opens (config : LexerConfig) (opener : TokenKind) (lexeme rest : Text) (context : Context) :
    Prop where
  kind : opener.awaitsCloser = true
  begins : context? opener 0 lexeme = some context
  stands : Stands (Scan.start.view config (lexeme ++ rest)) ⟨opener, lexeme.length⟩

theorem take_of_awaitsCloser (hopener : opener.awaitsCloser = true)
    (hc : context? opener s.tokens.size lexeme = some context) :
    s.take opener lexeme = .ok ((s.record opener lexeme).enter context) := by
  have htake : s.take opener lexeme = .ok ((context? opener s.tokens.size lexeme).elim
      (s.record opener lexeme) (s.record opener lexeme).enter) := by
    cases opener <;> first | rfl | cases hopener
  rw [htake, hc]
  rfl

theorem take_of_closes (hcloser : closer = .stringCloser ∨ closer = .heredocCloser) {place : Nat}
    (hplace : s.top.opener? = some place) :
    s.take closer lexeme = .ok ((s.record closer lexeme).leave place s.tokens.size) := by
  have htake : s.take closer lexeme = .ok ((s.record closer lexeme).top.opener?.elim
      (s.record closer lexeme) ((s.record closer lexeme).leave · s.tokens.size)) := by
    rcases hcloser with rfl | rfl <;> rfl
  have htop : (s.record closer lexeme).top.opener? = some place := hplace
  rw [htake, htop]
  rfl

/-- Behind the closer nothing is open, so a scan that ends there has a result. -/
theorem finish_of_closes (hstack : s.stack = [context, .root]) (herrors : s.errors = []) :
    ((s.record closer lexeme).leave 0 s.tokens.size).finish =
      .ok ⟨(s.record closer lexeme).tokens.pair 0 s.tokens.size, s.loneReturns⟩ := by
  have hleft : ((s.record closer lexeme).leave 0 s.tokens.size).stack = [.root] :=
    congrArg List.tail hstack
  have hopen : ((s.record closer lexeme).leave 0 s.tokens.size).openContexts = [.root] := by
    unfold openContexts
    rw [hleft]
  have hfound : ((s.record closer lexeme).leave 0 s.tokens.size).errors = [] := herrors
  unfold finish
  rw [hopen, hfound]
  rfl

/-- The state in front of the closer: the opener and the row have been recorded. -/
theorem Opens.exists_reaches (h : Opens config opener lexeme (Fragment.spelled fs ++ closing) context)
    (hsource : source = lexeme ++ (Fragment.spelled fs ++ closing)) (hrecords : Records q r)
    (hreturns : r []) (hrow : context.Row q closing fs) :
    ∃ s inner, Reaches config source s closing ∧ s.stack = [context, .root] ∧ s.errors = [] ∧
      r s.loneReturns ∧ s.tokens.lexemes source =
        ⟨0, opener, ⟨0, width lexeme⟩, none, lexeme⟩ :: inner ∧
      List.Forall₂ Fragment.IsTokenOf inner fs := by
  have hstart : Reaches config source .start (lexeme ++ (Fragment.spelled fs ++ closing)) :=
    hsource ▸ .start
  have hpos := (h.stands.bounds hstart.grounded.ends_top).1
  have hopened := hstart.take (List.ne_nil_of_length_pos hpos) h.stands
    (take_of_awaitsCloser h.kind h.begins)
  have hfirst : ((Scan.start.record opener lexeme).enter context).tokens.lexemes source =
      [⟨0, opener, ⟨0, width lexeme⟩, none, lexeme⟩] := by
    have hrecord := lexemes_record .start opener hstart.grounded.slice_append
    rw [show Scan.start.offset + width lexeme = width lexeme from Nat.zero_add _] at hrecord
    exact hrecord
  obtain ⟨s, hs, hpasses⟩ := hopened.exists_passes hrecords hreturns hrow
  obtain ⟨inner, hinner, htokens⟩ := hpasses.lexemes
  refine ⟨s, inner, hs, hpasses.stack, hpasses.errors, hpasses.loneReturns, ?_, htokens⟩
  rw [hinner, hfirst, List.singleton_append]

/-- **A string is scanned to its tokens**: the opener, the row and the closer, and the opener and the
closer are partners. -/
theorem Opens.exists_lexemes (h : Opens config opener lexeme (Fragment.spelled fs ++ closing) context)
    (hsource : source = lexeme ++ (Fragment.spelled fs ++ closing)) (hrecords : Records q r)
    (hreturns : r []) (hrow : context.Row q closing fs)
    (hcloser : closer = .stringCloser ∨ closer = .heredocCloser) (hfits : context.Fits closer closing []) :
    ∃ tokens returns inner, r returns ∧ tokenize config source = .ok ⟨tokens, returns⟩ ∧
      List.Forall₂ Fragment.IsTokenOf inner fs ∧ ∃ start, start + width closing = width source ∧
      tokens.lexemes source = ⟨0, opener, ⟨0, width lexeme⟩, some (inner.length + 1), lexeme⟩ ::
        (inner ++ [⟨inner.length + 1, closer, ⟨start, width source⟩, some 0, closing⟩]) := by
  obtain ⟨s, inner, hs, hstack, herrors, hfound, hlexemes, htokens⟩ :=
    h.exists_reaches hsource hrecords hreturns hrow
  have hs : Reaches config source s (closing ++ []) := by rwa [List.append_nil]
  have htop : s.top = context := by rw [top, hstack]; rfl
  have hcloses := hfits (s.view config (closing ++ [])) htop rfl
  have hpos := (hcloses.bounds hs.grounded.ends_top).1
  have hplace : s.top.opener? = some 0 := by
    rw [htop]
    exact opener?_of_context? h.begins
  have hclosed := hs.take (List.ne_nil_of_length_pos hpos) hcloses (take_of_closes hcloser hplace)
  have hend : ((s.record closer closing).leave 0 s.tokens.size).finish = _ :=
    finish_of_closes hstack herrors
  have hsize : s.tokens.size = inner.length + 1 := by
    rw [← TokenList.length_lexemes s.tokens source, hlexemes, List.length_cons]
  obtain ⟨front, hfront, hoffset⟩ := hs.grounded.read
  have hstop : s.offset + width closing = width source := by
    rw [hfront, hoffset, List.append_nil, width_append]
  have hrecord := lexemes_record s closer hs.grounded.slice_append
  rw [hlexemes, hstop, hsize] at hrecord
  refine ⟨(s.record closer closing).tokens.pair 0 s.tokens.size, s.loneReturns, inner, hfound, ?_,
    htokens, s.offset, hstop, ?_⟩
  · exact hclosed.tokenize_eq.trans ((run.eq_1 _ _).trans hend)
  · rw [hsize]
    exact TokenList.lexemes_pair hrecord

end Scan

/-- **A source that is a string denotes its text**: an opener at its start, texts and escapes each of
which fits at its place, and a closer at its end. -/
theorem Source.denotes_of_reads {config : LexerConfig} {s : Source} {lexeme closing : Text}
    {opener closer : TokenKind} {context : Context} {fs : List Fragment}
    (hopener : opener.opensText = true)
    (hopens : Scan.Opens config opener lexeme (Fragment.spelled fs ++ closing) context)
    (hreads : context.Reads closing fs)
    (hcloser : closer = .stringCloser ∨ closer = .heredocCloser) (hfits : context.Fits closer closing [])
    (htext : s.text = lexeme ++ (Fragment.spelled fs ++ closing)) (hissues : s.encodingIssues = []) :
    s.Denotes config (Fragment.denoted fs) := by
  obtain ⟨tokens, -, inner, rfl, hscan, htokens, start, hstart, hlexemes⟩ :=
    hopens.exists_lexemes htext (Scan.records_denotes (· = [])) rfl hreads hcloser hfits
  have hspan : (Span.mk 0 (width lexeme)).merge ⟨start, width s.text⟩ = ⟨0, s.size⟩ := by
    have hle : width lexeme ≤ width s.text := by
      rw [htext, width_append]
      exact Nat.le_add_right _ _
    rw [Span.merge, Nat.zero_min, Nat.max_eq_right hle]
    rfl
  have hitems : tokens.trees s.text =
      .ok [.leaf (.atom (.string (Fragment.denoted fs))) ⟨0, s.size⟩] := by
    rw [TokenList.trees, hlexemes, ← hspan]
    exact Tree.ofLexemes_of_row .decimal hopener rfl rfl htokens hreads.forall_mem
  exact ⟨tokens, lex_ok_iff.mpr ⟨hissues, _, _, hscan, hitems, rfl⟩⟩

end DewyFront
