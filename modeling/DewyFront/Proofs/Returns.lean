/-
# DewyFront.Proofs.Returns — a source with other line endings

With a carriage return in front of every newline a source is what it was: it has the same expressions,
moved, and no lone carriage return, or it is refused under the same codes. Newlines in the text of strings
are part of what the strings denote, so there must be none. Nor may a newline stand behind a backslash:
there it denotes nothing, and a carriage return in front of it would be taken in its place.

* §1 lexemes;
* §2 items;
* §3 whole sources;
* §4 newlines behind a backslash.
-/
import DewyFront.Proofs.Abreast
import DewyFront.Proofs.Layout
import DewyFront.Proofs.Wrapping
import Mathlib.Order.WellFounded

namespace DewyFront

variable {config : LexerConfig} {source : Text} {out : Tokenized}

/-! ## §1 Lexemes -/

theorem Delimiters.ofPair?_eq_none {c : Char} (h : ∀ d : Delimiters, d.closer ≠ c) (o : Char) :
    ofPair? o c = none := by
  refine List.find?_eq_none.mpr fun d _ hd => ?_
  exact h d (eq_of_beq (Bool.and_eq_true_iff.mp hd).2)

/-- **`Relocation.returns`** — where the lexemes of a text stand with a carriage return in front of every
newline. -/
def Relocation.returns (source : Text) : Relocation where
  offset := returnsOffset source
  places := 0
  layout := withReturns
  strictMono := strictMono_returnsOffset source
  closes o t := by
    cases t with
    | nil => rfl
    | cons c t =>
      by_cases hc : c = '\n'
      · subst hc
        rw [withReturns_newline, List.headD_cons, List.headD_cons,
          Delimiters.ofPair?_eq_none (fun d => by cases d <;> decide),
          Delimiters.ofPair?_eq_none (fun d => by cases d <;> decide)]
      · rw [withReturns_cons hc]
        rfl

/-- The text of a token becomes what it becomes by itself. -/
theorem Token.text_withReturns (h : tokenize config source = .ok out) {t : Token}
    (ht : t ∈ out.tokens.toList) :
    (t.move (returnsOffset source)).text (withReturns source) = withReturns (t.text source) := by
  obtain ⟨front, lexeme, back, rfl, hspan⟩ := Scan.exists_span_of_mem h ht
  have hstart := returnsOffset_width front (lexeme ++ back)
  have hstop := returnsOffset_width (front ++ lexeme) back
  rw [List.append_assoc, width_append, withReturns_append, width_append] at hstop
  rw [text, text, move, hspan, Span.move, slice_width, hstart, hstop, withReturns_append,
    withReturns_append, slice_width]

namespace Scan

/-- No token but layout and comments goes over lines, if none of a string does. -/
theorem not_mem_newline (h : tokenize config source = .ok out)
    (htext : Unbroken config source .stringText) (hraw : Unbroken config source .rawStringText)
    (hescape : Unbroken config source .stringEscape) {t : Token} (ht : t ∈ out.tokens.toList)
    (htrivia : t.kind.isTrivia = false) : '\n' ∉ t.text source := by
  obtain ⟨last, hreaches, hfinish⟩ := exists_reaches_of_tokenize h
  rw [(errors_eq_nil_of_finish hfinish).2.2] at ht
  cases hfree : t.kind.isFree with
  | false =>
    have hblank : t.kind ≠ .blank := by
      intro hblank
      rw [hblank] at htrivia
      cases htrivia
    exact (hreaches.confined.tokens t.piece (List.mem_map_of_mem ht) hfree hblank).not_mem (.inl rfl)
  | true =>
    cases hkind : t.kind with
    | stringText => exact htext hreaches t ht hkind
    | rawStringText => exact hraw hreaches t ht hkind
    | stringEscape => exact hescape hreaches t ht hkind
    | lineComment | blockComment =>
      rw [hkind] at htrivia
      cases htrivia
    | _ =>
      rw [hkind] at hfree
      cases hfree

/-- What no token of the result does, none does on the way. -/
theorem Unbroken.of_tokenize {kind : TokenKind} (h : tokenize config source = .ok out)
    (hout : ∀ t ∈ out.tokens.toList, t.kind = kind → '\n' ∉ t.text source) :
    Unbroken config source kind := by
  intro s rest hreaches t ht hkind
  have hfinishes : Finishes config source out s rest := ⟨hreaches, hreaches.tokenize_eq ▸ h⟩
  obtain ⟨u, hu, hpiece⟩ := List.mem_map.mp (hfinishes.pieces_prefix.subset (List.mem_map_of_mem ht))
  obtain ⟨hkinds, hspans⟩ := Prod.mk.inj hpiece
  have hnone := hout u hu (hkinds.trans hkind)
  rwa [Token.text, hspans] at hnone

end Scan

/-- **The lexemes are the same**, where they come to stand. -/
theorem TokenList.lexemes_withReturns (h : tokenize config source = .ok out)
    (hlines : ∀ t ∈ out.tokens.toList, t.kind.isTrivia = false → '\n' ∉ t.text source) :
    (out.tokens.move (returnsOffset source)).lexemes (withReturns source) =
      (out.tokens.lexemes source).map (Lexeme.move (.returns source)) := by
  apply List.ext_getElem?
  intro i
  rw [getElem?_lexemes, get?_move, List.getElem?_map, getElem?_lexemes]
  cases hget : out.tokens.get? i with
  | none => rfl
  | some t =>
    have ht : t ∈ out.tokens.toList := List.mem_of_getElem? ((getElem?_toList out.tokens i).trans hget)
    have htext : withReturns (t.text source) =
        if t.kind.isTrivia then withReturns (t.text source) else t.text source := by
      cases htrivia : t.kind.isTrivia with
      | true => rfl
      | false => exact withReturns_of_not_mem (hlines t ht htrivia)
    have hpartner : t.partner.map (· + 0) = t.partner := Option.map_id'
    rw [Option.map_some, Option.map_some, Option.map_some, lexeme, lexeme, Token.text_withReturns h ht]
    show some (Lexeme.mk i t.kind (t.span.move _) t.partner _) =
      some (Lexeme.mk i t.kind (t.span.move _) (t.partner.map (· + 0)) _)
    rw [hpartner, htext]
    rfl

/-! ## §2 Items -/

/-- **The items are the same**, where they come to stand, or an escape is refused in both. -/
theorem TokenList.trees_withReturns (h : tokenize config source = .ok out)
    (hlines : ∀ t ∈ out.tokens.toList, t.kind.isTrivia = false → '\n' ∉ t.text source) :
    ToldAlike (List.map (Tree.move (returnsOffset source))) (out.tokens.trees source)
      ((out.tokens.move (returnsOffset source)).trees (withReturns source)) := by
  rw [trees, trees, lexemes_withReturns h hlines]
  exact Tree.ofLexemes_move (.returns source) .decimal none (out.tokens.lexemes source)

/-! ## §3 Whole sources -/

/-- **`Refusal.SameCodes`** — two refusals that are told under the same codes, one after the other. -/
def Refusal.SameCodes (r r' : Refusal) : Prop :=
  ∀ name, (r'.diagnostics name).map (·.code) = (r.diagnostics name).map (·.code)

theorem Refusal.sameCodes_lexical {es es' : List LexError} (h : LexError.SameCodes es es') :
    SameCodes (.lexical es) (.lexical es') := by
  have hcodes : ∀ name (causes : List LexError),
      ((Refusal.lexical causes).diagnostics name).map (·.code) = causes.map LexError.code := by
    intro name causes
    rw [diagnostics, List.map_map]
    refine List.map_congr_left fun cause _ => ?_
    rw [Function.comp_apply, Diagnostic.code_attach, cause.code_diagnostic]
  intro name
  rw [hcodes, hcodes, h]

namespace Source

variable {s : Source}

/-- **`withReturns`** — a source with a carriage return in front of every newline. -/
def withReturns (s : Source) : Source := { s with text := DewyFront.withReturns s.text }

theorem hasByteOrderMark_withReturns (s : Source) :
    s.withReturns.hasByteOrderMark = s.hasByteOrderMark := by
  rw [hasByteOrderMark, hasByteOrderMark, Bool.eq_iff_iff, beq_iff_eq, beq_iff_eq]
  exact head?_withReturns_iff (by unfold IsLineBreak; decide)

/-- Carriage returns take bytes of their own. -/
theorem size_le_size_withReturns (s : Source) : s.size ≤ s.withReturns.size := by
  have hwidth := returnsOffset_width s.text []
  rw [List.append_nil] at hwidth
  exact (strictMono_returnsOffset s.text).le_apply.trans_eq hwidth

/-- If the carriage returns do not make a source oversized, what rules it out without them rules it out with
them. -/
theorem encodingIssues_withReturns (hsize : s.withReturns.size ≤ Span.limit) :
    s.withReturns.encodingIssues = s.encodingIssues := by
  rw [encodingIssues, encodingIssues, hasByteOrderMark_withReturns, isOversized_eq_false_iff.mpr hsize,
    isOversized_eq_false_iff.mpr ((size_le_size_withReturns s).trans hsize)]

/-- **The lexer gives the same items**, or refuses both sources alike. -/
theorem lex_withReturns (hreturn : '\r' ∉ s.text) (htext : Scan.Unbroken config s.text .stringText)
    (hraw : Scan.Unbroken config s.text .rawStringText)
    (hescape : Scan.Unbroken config s.text .stringEscape)
    (hsize : s.withReturns.size ≤ Span.limit) :
    Related (Failure.Both Refusal.SameCodes)
      (fun l l' => l'.trees = l.trees.map (Tree.move (returnsOffset s.text)) ∧ l.loneReturns = [] ∧
        l'.loneReturns = [])
      (s.lex config) (s.withReturns.lex config) := by
  have hrefused : ∀ f f', Failure.Both LexError.SameCodes f f' →
      Failure.Both Refusal.SameCodes (f.map .lexical) (f'.map .lexical) := by
    rintro _ _ (h | f)
    · exact .refused (Refusal.sameCodes_lexical h)
    · exact .broken f
  have hissues := encodingIssues_withReturns hsize
  by_cases hnone : s.encodingIssues = []
  case neg =>
    rw [lex_of_issues hnone, lex_of_issues (hissues ▸ hnone), hissues]
    exact .error (.refused fun _ => rfl)
  rw [lex_of_admitted hnone, lex_of_admitted (hissues.trans hnone)]
  have htokens := tokenize_withReturns hreturn hescape
  cases hout : tokenize config s.text with
  | error failure =>
    obtain ⟨failure', hout', hfailure⟩ := htokens.exists_error hout
    rw [show s.withReturns.text = DewyFront.withReturns s.text from rfl, hout']
    exact .error (hrefused _ _ hfailure)
  | ok out =>
    obtain ⟨out', hout', hreturns, rfl⟩ := htokens.exists_ok hout
    have htrees := TokenList.trees_withReturns hout fun t ht =>
      Scan.not_mem_newline hout htext hraw hescape ht
    have hcause : ∀ f f', Failure.Both LexError.SameCode f f' →
        Failure.Both Refusal.SameCodes (f.map fun cause => .lexical [cause])
          (f'.map fun cause => .lexical [cause]) := by
      rintro _ _ (h | f)
      · exact .refused (Refusal.sameCodes_lexical (congrArg (fun c => [c]) h))
      · exact .broken f
    rw [show s.withReturns.text = DewyFront.withReturns s.text from rfl, hout']
    exact (htrees.mapError hcause).bind fun trees trees' h => .ok ⟨h, hreturns, rfl⟩

/-! What is told of two refusals of the parser, whose causes are moved, has the same codes. -/

theorem related_relocate {α β : Type} (f : Nat → Nat) (h : α → β)
    (x : Except (Failure (List Diagnostic)) α) :
    Related (Failure.Both fun ds ds' => ds'.map (·.code) = ds.map (·.code)) (fun a b => b = h a) x
      (relocate f h x) := by
  rcases x with (ds | b) | a
  · refine .error (.refused ?_)
    rw [List.map_map]
    rfl
  · exact .error (.broken b)
  · exact .ok rfl

theorem told_bind {α β : Type} (name : Option String) (x : Except (Failure Refusal) α)
    (g : α → Except (Failure Refusal) β) :
    told name (x >>= g) = told name x >>= fun a => told name (g a) := by
  cases x <;> rfl

/-- What both sources are parsed to. -/
theorem told_parse_withReturns (config : ParseConfig) (hreturn : '\r' ∉ s.text)
    (htext : Scan.Unbroken config.lexer s.text .stringText)
    (hraw : Scan.Unbroken config.lexer s.text .rawStringText)
    (hescape : Scan.Unbroken config.lexer s.text .stringEscape)
    (hsize : s.withReturns.size ≤ Span.limit) :
    Related (Failure.Both fun ds ds' => ds'.map (·.code) = ds.map (·.code))
      (fun p p' => p'.items = p.items.map (Expr.move (returnsOffset s.text)) ∧ p'.loneReturns = [])
      (told s.name (s.parse config)) (told s.name (s.withReturns.parse config)) := by
  have hlex : Related (Failure.Both fun ds ds' => ds'.map (·.code) = ds.map (·.code)) _
      (told s.name (s.lex config.lexer)) (told s.name (s.withReturns.lex config.lexer)) :=
    (lex_withReturns hreturn htext hraw hescape hsize).mapError fun _ _ h => by
      rcases h with h | f
      · exact .refused (h s.name)
      · exact .broken f
  rw [Lexed.parse_eq_exprs, Lexed.parse_eq_exprs, told_bind, told_bind]
  refine hlex.bind fun l l' ⟨htrees, _, hreturns⟩ => ?_
  obtain ⟨-, -, hexprs, -⟩ :=
    Lexed.layout_only_touches (strictMono_returnsOffset s.text) config s.name htrees
  rw [told_bind, told_bind, hexprs]
  exact (related_relocate _ _ _).bind fun es es' hes => .ok ⟨hes, hreturns⟩

/-- **Line endings do not matter.** If a source has no carriage returns, and no newline in the text of a
string or behind a backslash in a string, then with a carriage return in front of every newline it has the
same expressions, moved, and no warnings, or is refused under the same codes, in the same order, unless the
carriage returns make it oversized. -/
theorem parse_withReturns (config : ParseConfig) (s : Source) (hreturn : '\r' ∉ s.text)
    (htext : Scan.Unbroken config.lexer s.text .stringText)
    (hraw : Scan.Unbroken config.lexer s.text .rawStringText)
    (hescape : Scan.Unbroken config.lexer s.text .stringEscape)
    (hsize : s.withReturns.size ≤ Span.limit) :
    (∀ p', s.withReturns.parse config = .ok p' ↔
      ∃ p, s.parse config = .ok p ∧ p' = ⟨p.items.map (Expr.move (returnsOffset s.text)), []⟩) ∧
    ∀ ds, told s.name (s.parse config) = refuse ds →
      ∃ ds', told s.name (s.withReturns.parse config) = refuse ds' ∧
        ds'.map (·.code) = ds.map (·.code) := by
  have hboth := told_parse_withReturns config hreturn htext hraw hescape hsize
  have htold : ∀ {x : Except (Failure Refusal) Parsed} {p : Parsed}, told s.name x = .ok p ↔ x = .ok p :=
    mapError_ok_iff
  have hparsed : ∀ p, s.parse config = .ok p →
      s.withReturns.parse config = .ok ⟨p.items.map (Expr.move (returnsOffset s.text)), []⟩ := by
    intro p hp
    obtain ⟨p', hp', hitems, hreturns⟩ := hboth.exists_ok (htold.mpr hp)
    rw [htold.mp hp', ← hitems, ← hreturns]
  refine ⟨fun p' => ⟨fun hp' => ?_, ?_⟩, fun ds hds => ?_⟩
  · cases hx : told s.name (s.parse config) with
    | ok p =>
      have hp := htold.mp hx
      exact ⟨p, hp, Except.ok.inj (hp'.symm.trans (hparsed p hp))⟩
    | error failure =>
      obtain ⟨failure', hfailed, -⟩ := hboth.exists_error hx
      rw [htold.mpr hp'] at hfailed
      cases hfailed
  · rintro ⟨p, hp, rfl⟩
    exact hparsed p hp
  · obtain ⟨failure', hfailed, hfailures⟩ := hboth.exists_error hds
    cases hfailures with
    | refused hcodes => exact ⟨_, hfailed, hcodes⟩

/-- An assignment of a string, a comment to the end of the line, and a comment over two lines. -/
theorem parse_withReturns_of_comments :
    let s : Source :=
      ⟨['x', '=', '"', 'a', '"', '%', 'c', '\n', '%', '\x7b', '\n', '\x7d', '%', 'y'], none⟩
    ∃ p, s.parse default = .ok p ∧ p.items.length = 2 ∧ s.withReturns.parse default =
      .ok ⟨p.items.map (Expr.move (returnsOffset s.text)), []⟩ := by
  intro s
  have hparse : (s.parse default).toOption.map (·.items.length) = some 2 := by decide +kernel
  have hlex : ((tokenize default s.text).toOption.filter fun out => ∀ t ∈ out.tokens.toList,
      t.kind.isTrivia = false → '\n' ∉ t.text s.text).isSome = true := by decide +kernel
  obtain ⟨p, hp, hlength⟩ := Option.map_eq_some_iff.mp hparse
  obtain ⟨out, hout⟩ := Option.isSome_iff_exists.mp hlex
  obtain ⟨hout, hlines⟩ := Option.filter_eq_some_iff.mp hout
  have hp := toOption_eq_some_iff.mp hp
  have hunbroken : ∀ kind : TokenKind, kind.isTrivia = false → Scan.Unbroken default s.text kind := by
    intro kind htrivia
    exact Scan.Unbroken.of_tokenize (toOption_eq_some_iff.mp hout) fun t ht hkind =>
      of_decide_eq_true hlines t ht (hkind ▸ htrivia)
  have hmoved := (parse_withReturns default s (by decide) (hunbroken _ rfl) (hunbroken _ rfl)
    (hunbroken _ rfl) (by decide)).1
  exact ⟨p, hp, hlength, (hmoved _).mpr ⟨p, hp, rfl⟩⟩

/-! ## §4 Newlines behind a backslash -/

/-- **A backslash governs the carriage return alone.** Behind a backslash a newline denotes nothing, but
with a carriage return in front of it both are in the text. -/
theorem exists_newline_misread :
    let s : Source := ⟨['"', 'a', '\\', '\n', 'b', '"'], none⟩
    '\r' ∉ s.text ∧ Scan.Unbroken default s.text .stringText ∧
      Scan.Unbroken default s.text .rawStringText ∧
      ∃ p p', s.parse default = .ok p ∧ s.withReturns.parse default = .ok p' ∧
        p.items = [.atom (.string ['a', 'b']) ⟨0, 6⟩] ∧
        p'.items = [.atom (.string ['a', '\r', '\n', 'b']) ⟨0, 7⟩] ∧
        ∀ f, p'.items ≠ p.items.map (Expr.move f) := by
  intro s
  have hparse : (s.parse default).toOption.map (·.items) =
      some [.atom (.string ['a', 'b']) ⟨0, 6⟩] := by decide +kernel
  have hparse' : (s.withReturns.parse default).toOption.map (·.items) =
      some [.atom (.string ['a', '\r', '\n', 'b']) ⟨0, 7⟩] := by decide +kernel
  have hlex : ((tokenize default s.text).toOption.filter fun out => ∀ t ∈ out.tokens.toList,
      t.kind ≠ .stringEscape → '\n' ∉ t.text s.text).isSome = true := by decide +kernel
  obtain ⟨p, hp, hitems⟩ := Option.map_eq_some_iff.mp hparse
  obtain ⟨p', hp', hitems'⟩ := Option.map_eq_some_iff.mp hparse'
  obtain ⟨out, hout⟩ := Option.isSome_iff_exists.mp hlex
  obtain ⟨hout, hlines⟩ := Option.filter_eq_some_iff.mp hout
  have hunbroken : ∀ kind : TokenKind, kind ≠ .stringEscape → Scan.Unbroken default s.text kind := by
    intro kind hescape
    exact Scan.Unbroken.of_tokenize (toOption_eq_some_iff.mp hout) fun t ht hkind =>
      of_decide_eq_true hlines t ht (hkind ▸ hescape)
  refine ⟨by decide, hunbroken _ (by decide), hunbroken _ (by decide), p, p',
    toOption_eq_some_iff.mp hp, toOption_eq_some_iff.mp hp', hitems, hitems', fun f heq => ?_⟩
  rw [hitems, hitems'] at heq
  cases heq

end Source

end DewyFront
