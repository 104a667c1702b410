/-
# DewyFront.Proofs.Layout — the parser sees of layout only what touches

Settling, grouping and reducing compare spans and cover them, but count nothing. Two sources whose
items differ only in where they stand, in the same order, have the same items, chains and expressions,
each where it belongs, or are refused with the same words about the same places.

* §1 what is said of a cause;
* §2 the expressions of some chains;
* §3 sources.
-/
import DewyFront.Proofs.MovedChains
import DewyFront.Proofs.MovedItems
import DewyFront.Proofs.MovedReadings
import DewyFront.Source.Parsed

namespace DewyFront

variable {f : Nat → Nat}

/-! ## §1 Wording -/

namespace Diagnostic

theorem move_label (f : Nat → Nat) (d : Diagnostic) (span : Span) (message : String) :
    (d.label span message).move f = (d.move f).label (span.move f) message := by
  simp [label, move, Label.move]

theorem move_context (f : Nat → Nat) (d : Diagnostic) (span : Span) (message : String) :
    (d.context span message).move f = (d.move f).context (span.move f) message := by
  simp [context, move, Label.move]

end Diagnostic

namespace ParseError

theorem countMark_move (f : Nat → Nat) (d : Diagnostic) (mark : RangeMark) (i : Nat) :
    countMark (d.move f) (moveMark f mark) i = (countMark d mark i).move f := by
  unfold countMark
  dsimp only [moveMark]
  split
  · exact (d.move_label f mark.span _).symm
  · exact (d.move_context f mark.span _).symm

theorem markJoints_move (f : Nat → Nat) (d : Diagnostic) (mark : RangeMark) :
    markJoints (d.move f) (moveMark f mark) = (markJoints d mark).move f := by
  obtain ⟨span, joinedLeft, joinedRight⟩ := mark
  have hleft := d.move_context f (.point span.start) Bond.range.label
  have hright := fun d : Diagnostic => d.move_context f span.endPoint Bond.range.label
  cases joinedLeft <;> cases joinedRight <;> simp [markJoints, moveMark, hleft, hright]

theorem severalRangeMarksDiagnostic_move (f : Nat → Nat) (marks : List RangeMark) :
    severalRangeMarksDiagnostic (marks.map (moveMark f)) =
      (severalRangeMarksDiagnostic marks).move f := by
  have hcount (d : Diagnostic) :
      (marks.map (moveMark f)).zipIdx.foldl (fun d m => countMark d m.1 m.2) (d.move f) =
        (marks.zipIdx.foldl (fun d m => countMark d m.1 m.2) d).move f := by
    rw [List.zipIdx_map, List.foldl_map]
    exact List.foldl_hom _ fun d m => countMark_move f d m.1 m.2
  have hjoints (d : Diagnostic) :
      (marks.map (moveMark f)).foldl markJoints (d.move f) = (marks.foldl markJoints d).move f := by
    rw [List.foldl_map]
    exact List.foldl_hom _ fun d mark => markJoints_move f d mark
  have htitle : Diagnostic.error .severalRangeMarks
      "multiple `..` tokens encountered in single range expression" =
        (Diagnostic.error .severalRangeMarks
          "multiple `..` tokens encountered in single range expression").move f := rfl
  unfold severalRangeMarksDiagnostic
  dsimp only
  rw [htitle, hcount, hjoints]
  rfl

/-- **A cause is told the same way wherever it is**: the code and all words stay, the labels move. -/
theorem diagnostic_move (f : Nat → Nat) (cause : ParseError) :
    (cause.move f).diagnostic = cause.diagnostic.move f := by
  cases cause with
  | severalRangeMarks marks => exact severalRangeMarksDiagnostic_move f marks
  | _ => rfl

end ParseError

/-! ## §2 Expressions -/

/-- How the outcome of one chain is put in front of the others does not depend on where they are. -/
theorem combine_carry (x : Except (Failure ParseError) Expr)
    (xs : Except (Failure (List ParseError)) (List Expr)) :
    combine (carry f (Expr.move f) x)
        ((xs.map (List.map (Expr.move f))).mapError (.map (List.map (ParseError.move f)))) =
      ((combine x xs).map (List.map (Expr.move f))).mapError
        (.map (List.map (ParseError.move f))) := by
  rcases x with (cause | b) | e <;> rcases xs with (causes | b') | es <;> rfl

/-- Chains with links have the expressions of the chains, moved, or are refused for the same causes. -/
theorem Expr.ofAll_move (hf : StrictMono f) (config : ParseConfig) {chains : List Chain}
    (h : Chain.EveryChain (· ≠ []) chains) :
    Expr.ofAll config (chains.map (Chain.move f)) =
      ((Expr.ofAll config chains).map (List.map (Expr.move f))).mapError
        (.map (List.map (ParseError.move f))) := by
  induction chains with
  | nil => rfl
  | cons chain chains ih =>
    obtain ⟨⟨hne, hinside⟩, hrest⟩ := List.forall_mem_cons.mp h
    rw [List.map_cons, ofAll, ofAll, Expr.ofChain_move hf config hne hinside, ih hrest, combine_carry]

/-! ## §3 Sources -/

namespace Lexed

/-- **`exprs`** — the expressions of a lexed source. -/
def exprs (config : ParseConfig) (l : Lexed) : Except (Failure Refusal) (List Expr) := do
  (Expr.ofAll config (← l.chains)).mapError (.map .grammatical)

/-- What a source is parsed to is what it is lexed to, read. -/
theorem parse_eq_exprs (config : ParseConfig) (s : Source) :
    s.parse config = (do
      let l ← s.lex config.lexer
      return ⟨← l.exprs config, l.loneReturns⟩) := by
  unfold Source.parse exprs
  cases s.lex config.lexer with
  | error failure => rfl
  | ok l =>
    dsimp only [bind, Except.bind]
    cases l.chains <;> rfl

end Lexed

variable {α β : Type}

/-- An outcome, with what is said of a refusal. -/
def told (name : Option String) (x : Except (Failure Refusal) α) :
    Except (Failure (List Diagnostic)) α :=
  x.mapError (.map (·.diagnostics name))

/-- **`relocate`** — an outcome with its result carried over by `h`, and what is said of a refusal
said about somewhere else. -/
def relocate (f : Nat → Nat) (h : α → β) (x : Except (Failure (List Diagnostic)) α) :
    Except (Failure (List Diagnostic)) β :=
  (x.map h).mapError (.map (List.map (Diagnostic.move f)))

theorem Refusal.diagnostics_move (f : Nat → Nat) (name : Option String) (causes : List ParseError) :
    (Refusal.grammatical (causes.map (ParseError.move f))).diagnostics name =
      ((Refusal.grammatical causes).diagnostics name).map (Diagnostic.move f) := by
  simp [Refusal.diagnostics, ParseError.diagnostic_move, Diagnostic.move_attach]

/-- A stage that carries over is told the same way wherever it is. -/
theorem told_carry (name : Option String) (h : α → β) (x : Except (Failure ParseError) α) :
    told name (onlyGrammatical (carry f h x)) = relocate f h (told name (onlyGrammatical x)) := by
  rcases x with (cause | b) | a
  · exact congrArg refuse (Refusal.diagnostics_move f name [cause])
  · rfl
  · rfl

theorem told_ofAll (hf : StrictMono f) (config : ParseConfig) (name : Option String)
    {chains : List Chain} (h : Chain.EveryChain (· ≠ []) chains) :
    told name ((Expr.ofAll config (chains.map (Chain.move f))).mapError (.map .grammatical)) =
      relocate f (List.map (Expr.move f))
        (told name ((Expr.ofAll config chains).mapError (.map .grammatical))) := by
  rw [Expr.ofAll_move hf config h]
  rcases Expr.ofAll config chains with (causes | b) | es
  · exact congrArg refuse (Refusal.diagnostics_move f name causes)
  · rfl
  · rfl

namespace Lexed

variable {l l' : Lexed}

theorem chains_eq (l : Lexed) : l.chains = onlyGrammatical (Tree.settle l.trees >>= Chain.ofTrees) := by
  rw [chains, settled]
  cases Tree.settle l.trees <;> rfl

theorem ne_nil_of_chains {chains : List Chain} (h : Tree.settle l.trees >>= Chain.ofTrees = .ok chains) :
    Chain.EveryChain (· ≠ []) chains := by
  obtain ⟨settled, -, hchains⟩ := bind_ok_iff.mp h
  exact (Chain.ofTrees_isWellShaped hchains).mono fun _ h => h.1

/-- **The parser sees of layout only what touches.** Where the items of one source are those of another,
moved by a map that keeps the order of offsets, so are the settled items, the chains and the expressions,
candidates in the same order; or the diagnostics say the same, with every label moved. -/
theorem layout_only_touches (hf : StrictMono f) (config : ParseConfig) (name : Option String)
    (h : l'.trees = l.trees.map (Tree.move f)) :
    told name l'.settled = relocate f (List.map (Tree.move f)) (told name l.settled) ∧
    told name l'.chains = relocate f (List.map (Chain.move f)) (told name l.chains) ∧
    told name (l'.exprs config) = relocate f (List.map (Expr.move f)) (told name (l.exprs config)) ∧
    ∀ chains, l.chains = .ok chains → ∀ chain ∈ chains,
      told name (onlyGrammatical (Expr.ofChain config (Chain.move f chain))) =
        relocate f (Expr.move f) (told name (onlyGrammatical (Expr.ofChain config chain))) := by
  -- Chains and expressions both go on from here, so settling and grouping are moved once for both.
  have hgrouped : Tree.settle l'.trees >>= Chain.ofTrees =
      carry f (List.map (Chain.move f)) (Tree.settle l.trees >>= Chain.ofTrees) := by
    rw [h, Tree.settle_move hf, carry_bind (Chain.ofTrees_move hf)]
  refine ⟨?settled, ?chains, ?exprs, ?each⟩
  case settled => rw [settled, settled, h, Tree.settle_move hf, told_carry]
  case chains => rw [chains_eq, chains_eq, hgrouped, told_carry]
  case exprs =>
    rw [exprs, exprs, chains_eq, chains_eq, hgrouped]
    rcases hchains : Tree.settle l.trees >>= Chain.ofTrees with (cause | b) | chains
    · exact congrArg refuse (Refusal.diagnostics_move f name [cause])
    · rfl
    · exact told_ofAll hf config name (ne_nil_of_chains hchains)
  case each =>
    intro chains hchains chain hmem
    rw [chains_eq] at hchains
    have hne := ne_nil_of_chains (mapError_ok_iff.mp hchains) _ hmem
    rw [Expr.ofChain_move hf config hne.1 hne.2, told_carry]

/-- An assignment of a call that is raised to a power or multiplied by one, with every item twice as far
from the beginning. -/
theorem layout_only_touches_of_doubled :
    let s : Source := ⟨['q', ' ', '=', ' ', 'f', '(', 'y', ')', '^', '2'], none⟩
    let f : Nat → Nat := (2 * ·)
    StrictMono f ∧ ∃ l es, s.lex default = .ok l ∧ l.exprs default = .ok es ∧ es.length = 1 ∧
      told none (Lexed.exprs default ⟨l.tokens, l.trees.map (Tree.move f), l.loneReturns⟩) =
        .ok (es.map (Expr.move f)) := by
  intro s f
  have hf : StrictMono f := fun a b hab => Nat.mul_lt_mul_of_pos_left hab Nat.two_pos
  have hone : ((s.lex default).toOption.bind fun l => (l.exprs default).toOption).map List.length =
      some 1 := by decide +kernel
  obtain ⟨es, hes, hlength⟩ := Option.map_eq_some_iff.mp hone
  obtain ⟨l, hl, hes⟩ := Option.bind_eq_some_iff.mp hes
  have hes := toOption_eq_some_iff.mp hes
  let l' : Lexed := ⟨l.tokens, l.trees.map (Tree.move f), l.loneReturns⟩
  have htrees : l'.trees = l.trees.map (Tree.move f) := rfl
  have hmoved := (layout_only_touches hf default none htrees).2.2.1
  rw [hes] at hmoved
  exact ⟨hf, l, es, toOption_eq_some_iff.mp hl, hes, hlength, hmoved⟩

end Lexed

end DewyFront
