/-
# DewyFront.Proofs.Pointing — what is said of a source points into it

However a stage ends, it ends in a result or in a refusal, and whatever is said of it has a primary label
and points at bytes of the source, between characters, with spans that reach there. The one exception is an
escape that is too short: the label for the digits that it lacks goes on behind those that it has, over
other characters or over the end of the source, and there also beyond what spans reach.

* §1 causes of all stages;
* §2 expressions;
* §3 sources.
-/
import DewyFront.Proofs.Evidence
import DewyFront.Proofs.PlacedExprs

namespace DewyFront

variable {p : Nat → Prop}

/-! ## §1 Causes -/

/-- An outcome about some places that is no fault. -/
theorem EndsOn.concludes {α : Type} {q : α → Prop} {x : Except (Failure ParseError) α}
    (h : EndsOn p q x) (hfaultless : Faultless x) : Concludes (ParseError.On p) q x :=
  .intro hfaultless (fun _ hx => h.of_eq_ok hx) fun _ hx => h.of_eq_refuse hx

/-- **`PointsInto`** — a diagnostic that points into a source, with labels that are spans. -/
structure Diagnostic.PointsInto (s : Source) (d : Diagnostic) : Prop where
  points : d.Points (IsBoundary s.text)
  fits : d.Fits

/-- **`Refusal.Accuses`** — a refusal with something said of it, all of which points into the source. -/
def Refusal.Accuses (s : Source) (refusal : Refusal) : Prop :=
  refusal.diagnostics s.name ≠ [] ∧ ∀ d ∈ refusal.diagnostics s.name, d.PointsInto s

/-- **`Accounts`** — how a stage ends on a source: in a result, of which it warns where carriage returns
stand alone, or in a refusal. Whatever is said of the source points into it. -/
def Source.Accounts {α : Type} (s : Source) (loneReturns : α → List Nat)
    (x : Except (Failure Refusal) α) : Prop :=
  Concludes (Refusal.Accuses s)
    (fun a => ∀ d ∈ loneReturnWarnings s.name (loneReturns a), d.PointsInto s) x

section Causes

variable {s : Source} (hsize : s.size ≤ Span.limit)
include hsize

/-- As long as spans reach to the end of a source, what points into it has labels that are spans. -/
theorem Diagnostic.Points.into {d : Diagnostic} (h : d.Points (IsBoundary s.text)) : d.PointsInto s :=
  ⟨h, h.fits fun _ hn => hn.le_width.trans hsize⟩

theorem Refusal.accuses_lexical {causes : List LexError} (hne : causes ≠ [])
    (h : ∀ cause ∈ causes, cause.About s.text) : (lexical causes).Accuses s := by
  refine ⟨mt List.map_eq_nil_iff.mp hne, List.forall_mem_map.mpr fun cause hcause => ?_⟩
  exact ((h cause hcause).points.attach s.name).into hsize

theorem Refusal.accuses_grammatical {causes : List ParseError} (hne : causes ≠ [])
    (h : ∀ cause ∈ causes, cause.On (IsBoundary s.text)) : (grammatical causes).Accuses s := by
  refine ⟨mt List.map_eq_nil_iff.mp hne, List.forall_mem_map.mpr fun cause hcause => ?_⟩
  exact ((h cause hcause).points.attach s.name).into hsize

theorem loneReturnWarnings_point {offsets : List Nat} (h : Scan.ReturnsIn s.text offsets) :
    ∀ d ∈ loneReturnWarnings s.name offsets, d.PointsInto s := by
  refine List.forall_mem_map.mpr fun offset hoffset => Diagnostic.Points.into hsize ?_
  refine Diagnostic.Points.attach (Diagnostic.Holds.points ?_ rfl) s.name
  exact List.forall_mem_singleton.mpr (h offset hoffset)

end Causes

/-! ## §2 Expressions -/

section Expressions

variable {config : ParseConfig} {chains : List Chain}

theorem combine_faultless {ε α : Type} {x : Except (Failure ε) α}
    {xs : Except (Failure (List ε)) (List α)} (hx : Faultless x) (hxs : Faultless xs) :
    Faultless (combine x xs) := by
  rcases ok_or_refuse_of_faultless hx with ⟨a, rfl⟩ | ⟨cause, rfl⟩ <;>
    rcases ok_or_refuse_of_faultless hxs with ⟨as, rfl⟩ | ⟨causes, rfl⟩ <;>
    exact fun _ h => nomatch h

/-- Sound chains have their expressions or are refused. -/
theorem Expr.ofAll_faultless (config : ParseConfig) (h : ∀ chain ∈ chains, chain.Sound) :
    Faultless (ofAll config chains) := by
  induction chains with
  | nil => exact .ok _
  | cons chain chains ih =>
    obtain ⟨hchain, hrest⟩ := List.forall_mem_cons.mp h
    exact combine_faultless (ofChain_faultless config hchain) (ih hrest)

end Expressions

/-! ## §3 Sources -/

/-- What was lexed is grouped to chains in order, or refused for one of its places. -/
theorem Lexed.chains_conclude {s : Source} {lexer : LexerConfig} {l : Lexed}
    (hl : s.lex lexer = .ok l) : Concludes (Refusal.Accuses s)
      (Chain.PlacedAll (IsBoundary s.text) 0 s.size) l.chains := by
  obtain ⟨hsettle, hready⟩ := Lexed.ready_and_wellShaped hl
  have hsize := Source.size_le_of_lex hl
  have hsettled := (Tree.level_settle (Lexed.level hl)).concludes hsettle
  have hgrouped := hsettled.bind fun items hitems hlevel =>
    (Chain.placed_ofTrees hlevel).concludes (hready items hitems).2.1
  rw [Lexed.chains_eq]
  exact hgrouped.mapError fun cause h =>
    Refusal.accuses_grammatical hsize (List.cons_ne_nil _ _) (List.forall_mem_singleton.mpr h)

namespace Source

variable {s : Source}

/-- Scanning a source accounts for it. -/
theorem tokenize_accounts (lexer : LexerConfig) (hsize : s.size ≤ Span.limit) :
    s.Accounts (·.loneReturns) ((tokenize lexer s.text).mapError (.map .lexical)) :=
  ((Scan.tokenize_concludes lexer s.text).mono fun _ _ h => loneReturnWarnings_point hsize h).mapError
    fun _ h => Refusal.accuses_lexical hsize h.1 h.2

/-- What rules a source out points to its start, whatever its size. -/
theorem pointsInto_of_issue {cause : LexError} (h : cause ∈ s.encodingIssues) :
    cause.diagnostic.PointsInto s := by
  rcases mem_encodingIssues h with ⟨rfl, hmark⟩ | ⟨rfl, -⟩
  · obtain ⟨rest, hrest⟩ := List.head?_eq_some_iff.mp (eq_of_beq hmark)
    have hstands : StandsAt s.text 0 (['\ufeff'] ++ rest) := ⟨[], [], by simpa using hrest, rfl⟩
    have habout : (LexError.byteOrderMark byteOrderMarkSize).About s.text := hstands.on_of_width rfl
    exact ⟨habout.points, List.forall_mem_singleton.mpr (.inl rfl)⟩
  · have habout : LexError.oversized.About s.text := trivial
    exact ⟨habout.points, List.forall_mem_singleton.mpr (.inl rfl)⟩

theorem lex_accounts (lexer : LexerConfig) (s : Source) : s.Accounts (·.loneReturns) (s.lex lexer) := by
  by_cases hissues : s.encodingIssues = []
  · have hsize := (encodingIssues_eq_nil_iff.mp hissues).2
    rw [lex_of_admitted hissues]
    refine (tokenize_accounts lexer hsize).bind fun out hout hwarned => ?_
    have htrees := TokenList.trees_concludes (mapError_ok_iff.mp hout)
    have hrefused : ∀ cause, LexError.About s.text cause → (Refusal.lexical [cause]).Accuses s :=
      fun cause h =>
        Refusal.accuses_lexical hsize (List.cons_ne_nil _ _) (List.forall_mem_singleton.mpr h)
    exact (htrees.mapError hrefused).bind fun _ _ _ => hwarned
  · rw [lex_of_issues hissues]
    refine ⟨mt List.map_eq_nil_iff.mp hissues, List.forall_mem_map.mpr fun cause hcause => ?_⟩
    obtain ⟨hpoints, hfits⟩ := pointsInto_of_issue hcause
    exact ⟨hpoints.attach s.name, hfits.attach s.name⟩

theorem parse_accounts (config : ParseConfig) (s : Source) :
    s.Accounts (·.loneReturns) (s.parse config) := by
  unfold parse
  refine (lex_accounts config.lexer s).bind fun l hl hwarned => ?_
  have hsize := size_le_of_lex hl
  refine (Lexed.chains_conclude hl).bind fun chains hchains hplaced => ?_
  have hsound := Lexed.chains_sound hl hchains
  have hall := @Expr.allEndOn_ofAll _ _ _ config _ (isBoundary_zero s.text) hsound hplaced
  have hitems : Concludes (fun causes => causes ≠ [] ∧ ∀ cause ∈ causes, cause.On (IsBoundary s.text))
      (fun _ => True) (Expr.ofAll config chains) :=
    .intro (Expr.ofAll_faultless config hsound) (fun _ _ => trivial) hall.refused
  exact (hitems.mapError fun _ h => Refusal.accuses_grammatical hsize h.1 h.2).bind fun _ _ _ => hwarned

/-- **Whatever is said of a source points into it.** For every source and all limits, lexing and parsing end
in a result or a refusal, and so does scanning if the source is not oversized. A refusal says something, and
all that is said, of refusals and of lone carriage returns, has a primary label and points at bytes of the
source between characters, with labels none of which is refused as a span; only the digits that an escape
lacks are looked for behind those that it has. -/
theorem diagnostics_point (lexer : LexerConfig) (config : ParseConfig) (s : Source) :
    (s.size ≤ Span.limit →
      s.Accounts (·.loneReturns) ((tokenize lexer s.text).mapError (.map .lexical))) ∧
    s.Accounts (·.loneReturns) (s.lex lexer) ∧ s.Accounts (·.loneReturns) (s.parse config) :=
  ⟨tokenize_accounts lexer, lex_accounts lexer s, parse_accounts config s⟩

/-- A string that is not closed, behind a carriage return that stands alone. -/
theorem diagnostics_point_of_return :
    let s : Source := ⟨['é', '\r', '"', 'a'], none⟩
    s.size ≤ Span.limit ∧
      s.Accounts (·.loneReturns) ((tokenize default s.text).mapError (.map .lexical)) :=
  have hsize : (Source.mk ['é', '\r', '"', 'a'] none).size ≤ Span.limit := by decide
  ⟨hsize, (diagnostics_point default default _).1 hsize⟩

/-- **The digits that an escape lacks are looked for where there are none**: over the end of the source if
it ends with the escape, and inside of a character if others stand behind. -/
theorem exists_label_outside :
    let ended : Source := ⟨['"', '\\', 'u', '1', '2'], none⟩
    let cut : Source := ⟨['"', '\\', 'u', '1', 'é', 'é'], none⟩
    (∃ causes, tokenize default ended.text = refuse causes ∧ ∃ cause ∈ causes,
      ∃ l ∈ cause.diagnostic.labels, l.isPrimary = true ∧ ended.size < l.span.stop) ∧
    ∃ causes, tokenize default cut.text = refuse causes ∧ ∃ cause ∈ causes,
      ∃ l ∈ cause.diagnostic.labels, l.isPrimary = true ∧ ¬ IsBoundary cut.text l.span.stop := by
  refine ⟨⟨[.shortEscape 1 ['\\', 'u', '1', '2'] 4], by decide +kernel, _, List.mem_singleton_self _,
    ⟨⟨5, 7⟩, true, "Expected 2 more hex digits"⟩, by decide +kernel, rfl, by decide⟩,
    ⟨[.shortEscape 1 ['\\', 'u', '1'] 4], by decide +kernel, _, List.mem_singleton_self _,
    ⟨⟨4, 7⟩, true, "Expected 3 more hex digits"⟩, by decide +kernel, rfl, by decide⟩⟩

end Source

end DewyFront
