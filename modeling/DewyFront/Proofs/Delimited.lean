/-
# DewyFront.Proofs.Delimited — which delimiters close a heredoc

A delimiter may begin with a brace or a backslash. Where it is to close its heredoc, the hole or the escape
that begins there is looked for as well, and the longer of the two wins. So a delimiter closes its heredoc
exactly if it is clear: it begins with neither, or goes on behind the mark that it begins with. With one
that is not clear the source is refused.

* §1 clear delimiters;
* §2 the place of the closer;
* §3 whole heredocs.
-/
import DewyFront.Proofs.Enclosing
import DewyFront.Proofs.Evidence
import DewyFront.Proofs.Verbatim

namespace DewyFront

variable {d t m more : Text} {q c u : Char} {kind : TokenKind} {v : View}

/-! ## §1 Clear delimiters -/

/-- **`Clear`** — a delimiter that begins with neither a brace nor a backslash, or with a mark that it goes
on behind. -/
inductive Clear : Text → Prop
  | plain {d : Text} (hbackslash : d.head? ≠ some '\\') (hbrace : d.head? ≠ some '\x7b') : Clear d
  | marked {kind : TokenKind} {m more : Text} (hm : Marks kind m) (hmore : more ≠ []) : Clear (m ++ more)

/-- Whatever begins with a mark here is shorter than a text. -/
def View.Outgrown (v : View) (d : Text) : Prop := ∀ kind, Marks.isMarked kind = true →
  ∃ found, v.matchKind kind = .ok found ∧ ∀ n, found = some n → n < d.length

theorem Clear.outgrown (h : Clear d) (hrest : v.rest = d) : v.Outgrown d := by
  intro kind hkind
  cases h with
  | plain hbackslash hbrace =>
    rw [← hrest] at hbackslash hbrace
    exact ⟨none, Marks.matchKind_eq_none hkind hbackslash hbrace, fun n hn => by cases hn⟩
  | marked hm hmore =>
    refine ⟨_, hm.matchKind_eq hrest hkind, fun n hn => ?_⟩
    have hpos := List.length_pos_of_ne_nil hmore
    split at hn
    · cases hn
      rw [List.length_append]
      omega
    · cases hn

/-- A delimiter that outgrows the mark at its front goes on behind it. -/
theorem Marks.clear (h : Marks kind m) (hv : v.Outgrown (m ++ more)) (hrest : v.rest = m ++ more) :
    Clear (m ++ more) := by
  refine .marked h fun hmore => ?_
  subst hmore
  have hkind : Marks.isMarked kind = true := by cases h <;> rfl
  obtain ⟨found, hfound, hshort⟩ := hv kind hkind
  rw [h.matchKind_eq hrest hkind, if_pos rfl] at hfound
  have hlt := hshort m.length (Except.ok.inj hfound).symm
  rw [List.append_nil] at hlt
  exact absurd hlt (Nat.lt_irrefl _)

/-- **A delimiter is clear if it outgrows all that its front begins.** -/
theorem clear_of_outgrown (hv : v.Outgrown d) (hrest : v.rest = d) : Clear d := by
  by_cases hbrace : d.head? = some '\x7b'
  · obtain ⟨more, rfl⟩ := List.head?_eq_some_iff.mp hbrace
    exact Marks.brace.clear hv hrest
  by_cases hbackslash : d.head? = some '\\'
  · obtain ⟨more, rfl⟩ := List.head?_eq_some_iff.mp hbackslash
    obtain ⟨found, hescape, -⟩ := hv .stringEscape rfl
    have hescape : v.escape = .ok found := hescape
    cases more with
    | nil =>
      -- A lone backslash is refused.
      rw [View.escape, hrest] at hescape
      cases hescape
    | cons u more =>
      by_cases hu : u = 'u' ∨ u = 'U'
      · by_cases hhole : more.head? = some '\x7b'
        · obtain ⟨more, rfl⟩ := List.head?_eq_some_iff.mp hhole
          exact (Marks.hole hu).clear hv hrest
        · rw [View.escape_of_rest hrest, if_pos hu, if_neg hhole] at hescape
          split at hescape
          · cases hescape
          · next hdigits =>
            -- Here are four digits, if not more.
            have hrun : View.escapeDigits ≤ runLength View.isHexDigit more := by
              rw [Nat.not_lt] at hdigits
              exact Nat.le_trans hdigits (Nat.min_le_left _ _)
            have hlength : (more.take View.escapeDigits).length = View.escapeDigits := by
              rw [List.length_take]
              exact Nat.min_eq_left (Nat.le_trans hrun (runLength_le _ _))
            have hmark : Marks .stringEscape ('\\' :: u :: more.take View.escapeDigits) :=
              .codePoint hu hlength (forall_mem_take_of_le_runLength hrun)
            have hsplit : '\\' :: u :: more =
                '\\' :: u :: more.take View.escapeDigits ++ more.drop View.escapeDigits := by
              rw [List.cons_append, List.cons_append, List.take_append_drop]
            rw [hsplit] at hv hrest ⊢
            exact hmark.clear hv hrest
      · exact (Marks.simple hu).clear hv hrest
  · exact .plain hbackslash hbrace

/-! ## §2 The place of the closer -/

/-- **Something stands where a delimiter is to close its heredoc exactly if the delimiter is clear**, and
then it is the closer. -/
theorem exists_stands_iff {place : Nat} (hcontext : v.context = .stringBody place (.delimiter d))
    (hd : d ≠ []) (hrest : v.rest = d) : (∃ m, Scan.Stands v m) ↔ Clear d := by
  have hinterior := Interior.delimited place d
  have hbegins : d <+: v.rest := hrest ▸ List.prefix_refl _
  constructor
  · rintro ⟨m, hstands⟩
    have hends : v.context.Ends := by
      rw [hcontext]
      intro t ht
      cases ht
      exact hd
    have hle : m.length ≤ d.length := hrest ▸ (hstands.bounds hends).2
    have hmatch : v.matchKind .heredocCloser = .ok (some d.length) := by
      rw [hinterior.matchKind_closer hcontext (.inr rfl), if_pos ⟨rfl, hbegins⟩]
    have hlegal : TokenKind.heredocCloser.isLegalIn v.context.kind = true := by
      rw [hcontext]
      rfl
    obtain ⟨hkind, hlength⟩ := View.eq_of_stands hstands hlegal hmatch hle (by decide)
    have hcloser : Scan.Stands v ⟨.heredocCloser, d.length⟩ := by
      rw [← hkind, ← hlength]
      exact hstands
    exact clear_of_outgrown ((hinterior.stands_closer_iff hcontext hbegins).mp hcloser rfl) hrest
  · intro hclear
    exact ⟨_, (hinterior.stands_closer_iff hcontext hbegins).mpr fun _ => hclear.outgrown hrest⟩

theorem fits_of_clear (hclear : Clear d) (place : Nat) :
    Context.Fits (.stringBody place (.delimiter d)) .heredocCloser d [] := by
  intro v hv hrest
  rw [List.append_nil] at hrest
  exact ((Interior.delimited place d).stands_closer_iff hv (hrest ▸ List.prefix_refl _)).mpr fun _ =>
    hclear.outgrown hrest

/-! ## §3 Whole heredocs -/

namespace Source

/-- A heredoc is opened, and its text is read up to the delimiter. -/
theorem exists_reaches_of_heredoc (config : LexerConfig) (hq : View.isQuote q = true)
    (hd : View.IsDelimiter d) (ht : ∀ a ∈ t, a ≠ '\\' ∧ a ≠ '\x7b') (hfirst : FirstAtEnd d t) :
    ∃ s, Scan.Reaches config ('#' :: q :: (d ++ q :: (t ++ d))) s d ∧
      s.stack = [.stringBody 0 (.delimiter d), .root] := by
  obtain ⟨fs, hfs, hspelled, -⟩ :=
    (Interior.delimited 0 d).exists_reads_of_firstAtEnd hfirst fun _ => ht
  have htext : '#' :: q :: (d ++ q :: (t ++ d)) =
      '#' :: q :: (d ++ [q]) ++ (Fragment.spelled fs ++ d) := by
    rw [hspelled]
    simp
  have hopens := Scan.opens_delimiter config hq hd (Fragment.spelled fs ++ d)
  obtain ⟨s, -, hs, hstack, -⟩ :=
    hopens.exists_reaches htext (Scan.records_denotes fun _ => True) trivial hfs
  exact ⟨s, hs, hstack⟩

/-- A delimiter that is clear closes its heredoc. -/
theorem denotes_of_clear (config : LexerConfig) (name : Option String) (hq : View.isQuote q = true)
    (hd : View.IsDelimiter d) (ht : ∀ a ∈ t, a ≠ '\\' ∧ a ≠ '\x7b') (hfirst : FirstAtEnd d t)
    (hclear : Clear d) (hsize : size ⟨'#' :: q :: (d ++ q :: (t ++ d)), name⟩ ≤ Span.limit) :
    Denotes config ⟨'#' :: q :: (d ++ q :: (t ++ d)), name⟩ t := by
  have hopens := Scan.opens_delimiter config hq hd (t ++ d)
  have htext : '#' :: q :: (d ++ q :: (t ++ d)) = '#' :: q :: (d ++ [q]) ++ (t ++ d) := by simp
  exact denotes_of_text rfl hopens (.delimited 0 d) hfirst (fun _ => ht) (fits_of_clear hclear 0) htext
    (encodingIssues_eq_nil_iff.mpr ⟨rfl, hsize⟩)

/-- With a delimiter that is not clear a scan gives no result: it reaches the place where the delimiter is
to close the heredoc, and nothing stands there. -/
theorem tokenize_ne_ok_of_not_clear (config : LexerConfig) (hq : View.isQuote q = true)
    (hd : View.IsDelimiter d) (ht : ∀ a ∈ t, a ≠ '\\' ∧ a ≠ '\x7b') (hfirst : FirstAtEnd d t)
    (hclear : ¬ Clear d) (out : Tokenized) :
    tokenize config ('#' :: q :: (d ++ q :: (t ++ d))) ≠ .ok out := by
  intro hout
  obtain ⟨s, hs, hstack⟩ := exists_reaches_of_heredoc config hq hd ht hfirst
  have hfinishes : Scan.Finishes config _ out s d := ⟨hs, hs.tokenize_eq.symm.trans hout⟩
  obtain ⟨next, m, hstands, -⟩ := hfinishes.exists_take hd.nonempty
  have htop : (s.view config d).context = .stringBody 0 (.delimiter d) := by
    show s.stack.headD .root = _
    rw [hstack]
    rfl
  exact hclear ((exists_stands_iff htop hd.nonempty rfl).mp ⟨m, hstands⟩)

/-- **Every delimiter that is clear closes its heredoc, and no other does.** Let a delimiter be one that
opens a heredoc, and let it occur behind a text without braces and backslashes for the first time. If the
delimiter is clear and the source is not oversized, it is lexed to one item, the atom of the text; if the
delimiter is not clear, it is refused. -/
theorem heredoc_denotes (config : LexerConfig) (name : Option String) (hq : View.isQuote q = true)
    (hopener : (Scan.start.view config ('#' :: q :: (d ++ [q]))).heredoc ['#'] =
      .ok (some (d.length + 3)))
    (ht : ∀ a ∈ t, a ≠ '\\' ∧ a ≠ '\x7b') (hfirst : FirstAtEnd d t) :
    let s : Source := ⟨'#' :: q :: (d ++ q :: (t ++ d)), name⟩
    (Clear d → s.size ≤ Span.limit → s.Denotes config t) ∧
    (¬ Clear d → ∃ causes, s.lex config = refuse (.lexical causes)) := by
  intro s
  have hd : View.IsDelimiter d := by
    have hrest : (Scan.start.view config ('#' :: q :: (d ++ [q]))).rest = ['#'] ++ q :: (d ++ q :: []) :=
      rfl
    apply View.isDelimiter_of_heredoc hrest
    rw [hopener, List.length_singleton]
    congr 2
    omega
  constructor
  · exact denotes_of_clear config name hq hd ht hfirst
  · intro hclear
    by_cases hissues : s.encodingIssues = []
    · have hnone := tokenize_ne_ok_of_not_clear config hq hd ht hfirst hclear
      -- A scan without a result is refused: it never breaks down.
      have hconcludes := Scan.tokenize_concludes config s.text
      cases hscan : tokenize config s.text with
      | ok out => exact absurd hscan (hnone out)
      | error failure =>
        cases failure with
        | refused causes =>
          refine ⟨causes, ?_⟩
          rw [lex_of_admitted hissues, hscan]
          rfl
        | broken fault =>
          rw [hscan] at hconcludes
          exact hconcludes.elim
    · exact ⟨_, lex_of_issues hissues⟩

/-- A pair of braces closes its heredoc, whose text is a letter. -/
theorem heredoc_denotes_of_braces :
    let d : Text := ['\x7b', '\x7d']
    View.isQuote '"' = true ∧
    (Scan.start.view default ['#', '"', '\x7b', '\x7d', '"']).heredoc ['#'] = .ok (some 5) ∧
    (∀ a ∈ ['a'], a ≠ '\\' ∧ a ≠ '\x7b') ∧ FirstAtEnd d ['a'] ∧ Clear d ∧
    Denotes default ⟨['#', '"', '\x7b', '\x7d', '"', 'a', '\x7b', '\x7d'], none⟩ ['a'] := by
  intro d
  have hopener : (Scan.start.view default ['#', '"', '\x7b', '\x7d', '"']).heredoc ['#'] =
      .ok (some 5) := by decide +kernel
  have htext : ∀ a ∈ ['a'], a ≠ '\\' ∧ a ≠ '\x7b' :=
    List.forall_mem_singleton.mpr ⟨by decide, by decide⟩
  have hfirst : FirstAtEnd d ['a'] := by decide
  have hclear : Clear d := .marked .brace (List.cons_ne_nil '\x7d' [])
  exact ⟨rfl, hopener, htext, hfirst, hclear,
    (heredoc_denotes (d := d) default none rfl hopener htext hfirst).1 hclear (by decide)⟩

/-- **An opening brace opens a heredoc that it does not close**: behind the text `a` it may as well open a
hole. -/
theorem exists_lex_refused_of_delimiter :
    let s : Source := ⟨['#', '"', '\x7b', '"', 'a', '\x7b'], none⟩
    (Scan.start.view default ['#', '"', '\x7b', '"']).heredoc ['#'] = .ok (some 4) ∧
    (∀ a ∈ ['a'], a ≠ '\\' ∧ a ≠ '\x7b') ∧ FirstAtEnd ['\x7b'] ['a'] ∧
    s.lex default =
      refuse (.lexical [.severalTokens 5 1 .stringBody [.leftBrace, .heredocCloser]]) ∧
    ¬ s.Denotes default ['a'] := by
  intro s
  have hscan : tokenize default s.text =
      refuse [.severalTokens 5 1 .stringBody [.leftBrace, .heredocCloser]] := by decide +kernel
  have hlex : s.lex default =
      refuse (.lexical [.severalTokens 5 1 .stringBody [.leftBrace, .heredocCloser]]) := by
    rw [lex_of_admitted (by decide), hscan]
    rfl
  refine ⟨by decide +kernel, List.forall_mem_singleton.mpr ⟨by decide, by decide⟩, by decide, hlex, ?_⟩
  rintro ⟨tokens, hdenotes⟩
  rw [hlex] at hdenotes
  cases hdenotes

end Source

end DewyFront
