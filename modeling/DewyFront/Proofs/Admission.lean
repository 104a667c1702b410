/-
# DewyFront.Proofs.Admission — which sources are scanned

A source is scanned if it does not begin with a byte order mark and spans reach all of its bytes. What
was lexed was scanned to its tokens, and the tokens were put together to its items; a source that is not
scanned is refused for all that rules it out, whatever stands in it.

* §1 what rules a source out;
* §2 sources that are lexed.
-/
import DewyFront.Proofs.Outcomes
import DewyFront.Source.Lexed

namespace DewyFront

namespace Source

variable {config : LexerConfig} {s : Source} {l : Lexed}

/-! ## §1 What rules a source out -/

theorem isOversized_eq_false_iff : s.isOversized = false ↔ s.size ≤ Span.limit := by
  rw [isOversized, decide_eq_false_iff_not, Nat.not_lt]

/-- **Nothing rules out a source** without a byte order mark that spans reach to its end. -/
theorem encodingIssues_eq_nil_iff :
    s.encodingIssues = [] ↔ s.hasByteOrderMark = false ∧ s.size ≤ Span.limit := by
  rw [encodingIssues, List.append_eq_nil_iff, ← isOversized_eq_false_iff]
  cases s.hasByteOrderMark <;> cases s.isOversized <;> simp

theorem mem_encodingIssues {cause : LexError} (h : cause ∈ s.encodingIssues) :
    cause = .byteOrderMark byteOrderMarkSize ∧ s.hasByteOrderMark = true ∨
      cause = .oversized ∧ Span.limit < s.size := by
  rcases List.mem_append.mp h with h | h
  · obtain ⟨hmark, h⟩ := List.mem_ite_nil_right.mp h
    exact .inl ⟨List.mem_singleton.mp h, hmark⟩
  · obtain ⟨hsize, h⟩ := List.mem_ite_nil_right.mp h
    exact .inr ⟨List.mem_singleton.mp h, of_decide_eq_true hsize⟩

/-! ## §2 Lexing -/

/-- A source that is ruled out is refused for all that rules it out. -/
theorem lex_of_issues (h : s.encodingIssues ≠ []) :
    s.lex config = refuse (.lexical s.encodingIssues) := by
  unfold lex
  split
  · next hnil => exact absurd hnil h
  · rfl

/-- Any other source is scanned, and its tokens are put together. -/
theorem lex_of_admitted (h : s.encodingIssues = []) :
    s.lex config = (tokenize config s.text).mapError (.map .lexical) >>= fun out =>
      (out.tokens.trees s.text).mapError (.map fun cause => .lexical [cause]) >>= fun trees =>
        .ok ⟨out.tokens, trees, out.loneReturns⟩ := by
  rw [lex, h]
  rfl

/-- **What was lexed** was scanned, and its items are those of the tokens. -/
theorem lex_ok_iff : s.lex config = .ok l ↔ s.encodingIssues = [] ∧ ∃ out trees,
    tokenize config s.text = .ok out ∧ out.tokens.trees s.text = .ok trees ∧
      l = ⟨out.tokens, trees, out.loneReturns⟩ := by
  by_cases hissues : s.encodingIssues = []
  · simp only [lex_of_admitted hissues, bind_ok_iff, mapError_ok_iff, Except.ok.injEq, hissues,
      true_and, eq_comm (a := l), exists_and_left]
  · simp [lex_of_issues hissues, hissues, refuse]

/-- Spans reach to the end of what was lexed. -/
theorem size_le_of_lex (h : s.lex config = .ok l) : s.size ≤ Span.limit :=
  (encodingIssues_eq_nil_iff.mp (lex_ok_iff.mp h).1).2

end Source

end DewyFront
