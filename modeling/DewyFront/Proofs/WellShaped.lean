/-
# DewyFront.Proofs.WellShaped — grouping makes chains that pass the check of their shape

Grouping and the check of a chain's shape tell the same grammar, one by calling itself and the other
by going through the links. Every chain that has a derivation is a row of chunks with binary operators
between them, and so are the chains inside of its operands. Settled items are what grouping asks for,
so from a source to its chains nothing that a step assumes is ever broken.

* §1 the check along a derivation;
* §2 items;
* §3 sources.
-/
import DewyFront.Expr.OfChain
import DewyFront.Proofs.Admission
import DewyFront.Proofs.Depth
import DewyFront.Proofs.GroupedInsides

namespace DewyFront

namespace Chain

variable {c c' : Cursor} {chain : Chain} {chains : List Chain}

/-! ## §1 The check of the shape -/

/-- **`IsWellShaped`** — a chain has links, and they pass the check of their shape. -/
def IsWellShaped (chain : Chain) : Prop := chain ≠ [] ∧ ∃ span, checkShape chain = .ok span

/-- **`Checks`** — links take the check of a shape from waiting, or not waiting, for an operand to
waiting, or not waiting, for the next one, whatever follows them. -/
def Checks (waiting waiting' : Bool) (links : Chain) : Prop :=
  ∀ last rest, ∃ last', checkFrom waiting last (links ++ rest) = checkFrom waiting' last' rest

theorem checks_nil (waiting : Bool) : Checks waiting waiting [] := fun last _ => ⟨last, rfl⟩

theorem Checks.append {waiting middle waiting' : Bool} {first next : Chain}
    (hfirst : Checks waiting middle first) (hnext : Checks middle waiting' next) :
    Checks waiting waiting' (first ++ next) := by
  intro last rest
  obtain ⟨behind, heq⟩ := hfirst last (next ++ rest)
  obtain ⟨last', heq'⟩ := hnext behind rest
  exact ⟨last', by rw [List.append_assoc, heq, heq']⟩

/-- An operand is what the check waits for. -/
theorem checks_operand (content : Operand) (span : Span) : Checks true false [.operand content span] :=
  fun last _ => ⟨last, by rw [List.singleton_append, checkFrom, if_pos rfl]⟩

/-- Behind a binary operator the check waits for an operand. -/
theorem checks_binary {op : Op} (hop : op.isBinary = true) (span : Span) :
    Checks false true [.operator ⟨op, span⟩] :=
  fun _ _ => ⟨some ⟨op, span⟩, by
    rw [List.singleton_append, checkFrom, if_neg Bool.false_ne_true, if_pos hop]⟩

/-- Operators in front of an operand leave the check waiting for it. -/
theorem checks_before {os : List Operator} (h : ∀ o ∈ os, o.op.isBefore = true) :
    Checks true true (os.map .operator) := by
  induction os with
  | nil => exact checks_nil true
  | cons o os ih =>
    obtain ⟨ho, hos⟩ := List.forall_mem_cons.mp h
    have hone : Checks true true [.operator o] := fun _ _ =>
      ⟨some o, by rw [List.singleton_append, checkFrom, if_pos rfl, if_pos ho]⟩
    exact hone.append (ih hos)

/-- Operators behind an operand leave the check where it was. -/
theorem checks_after {os : List Operator} (h : ∀ o ∈ os, isOnlyAfter o.op = true) :
    Checks false false (os.map .operator) := by
  induction os with
  | nil => exact checks_nil false
  | cons o os ih =>
    obtain ⟨ho, hos⟩ := List.forall_mem_cons.mp h
    obtain ⟨hafter, hbinary⟩ : o.op.isAfter = true ∧ o.op.isBinary = false := by
      simpa [isOnlyAfter] using ho
    have hone : Checks false false [.operator o] := fun _ _ =>
      ⟨some o, by
        rw [List.singleton_append, checkFrom, if_neg Bool.false_ne_true, hbinary,
          if_neg Bool.false_ne_true, if_pos hafter]⟩
    exact hone.append (ih hos)

/-- **A chunk is an operand to the check.** -/
theorem GroupsChunk.checks (h : GroupsChunk c chain c') : Checks true false chain := by
  cases h with
  | around _ _ =>
    exact (checks_before fun _ => of_mem_takeOperators).append
      ((checks_operand _ _).append (checks_after fun _ => of_mem_takeOperators))

/-- What follows a chunk leaves the check behind an operand. -/
theorem GroupsMore.checks (h : GroupsMore c chain c') : Checks false false chain := by
  induction h using GroupsMore.induct with
  | stop => exact checks_nil false
  | more _ hop _ hnext _ ih => exact (checks_binary hop _).append (hnext.checks.append ih)

theorem checkFrom_takeSemicolon (last : Option Operator) (c : Cursor) :
    checkFrom false last (takeSemicolon c).1 = .ok () := by
  unfold takeSemicolon
  split <;> rfl

theorem checkShape_of_checkFrom (hne : chain ≠ []) (h : checkFrom true none chain = .ok ()) :
    IsWellShaped chain := by
  refine ⟨hne, ?_⟩
  obtain ⟨first, rest, rfl⟩ := List.exists_cons_of_ne_nil hne
  obtain ⟨span, hspan⟩ : ∃ span, span? (first :: rest) = some span := by
    rw [span?, List.getLast?_cons]
    exact ⟨_, rfl⟩
  refine ⟨span, ?_⟩
  unfold checkShape
  rw [hspan]
  exact bind_ok_iff.mpr ⟨_, h, rfl⟩

/-- **A chain that has a derivation passes the check.** -/
theorem Groups.isWellShaped (h : Groups c chain c') : IsWellShaped chain := by
  cases h with
  | alone => exact checkShape_of_checkFrom (List.cons_ne_nil _ _) rfl
  | @chunks _ c₁ c₂ first more hlone hfirst hmore =>
    apply checkShape_of_checkFrom
    · -- a chunk has an operand
      cases hfirst with
      | around => simp
    · obtain ⟨last, hlast⟩ := (hfirst.checks.append hmore.checks) none (takeSemicolon c₂).1
      rw [hlast]
      exact checkFrom_takeSemicolon last c₂

/-! ## §2 Items -/

/-- **Every chain that is made of items passes the check**, at any depth. -/
theorem ofTrees_isWellShaped {items : List Tree} (h : ofTrees items = .ok chains) :
    EveryChain IsWellShaped chains :=
  have hall : Provides (fun _ => True) IsWellShaped := ⟨fun _ _ => trivial, fun h _ => h.isWellShaped⟩
  filled_of_ofTrees hall.grants (Tree.everyLevel_of_forall (fun _ => trivial) items) h

mutual
/-- The word of a ready item is one that grouping handles. -/
theorem isHandled_wordOf : ∀ {item : Tree}, item.isTrivia = false ∧ item.isBacktick = false ∧
    item.marker? = none → Tree.Inside Tree.Ready item → (wordOf item).IsHandled
  | .leaf l span, hbare, _ => by
    rw [wordOf]
    cases l with
    | trivia => cases hbare.1
    | backtick => cases hbare.2.1
    | marker m => cases hbare.2.2
    | atom a =>
      cases a with
      | semicolon => trivial
      | _ => exact .ok _
    | _ => trivial
  | .block kind base inner span, _, h => by
    rw [wordOf]
    rw [Tree.Inside] at h
    exact .map (ofWords_faultless (isHandled_wordsOf h.1.bare h.2)) _
  | .istring pieces span, _, h => by
    rw [wordOf]
    rw [Tree.Inside] at h
    exact .map (piecesOf_faultless span h) _
theorem isHandled_wordsOf : ∀ {items : List Tree}, (∀ item ∈ items, item.isTrivia = false ∧
    item.isBacktick = false ∧ item.marker? = none) → Tree.InsideAll Tree.Ready items →
    ∀ word ∈ wordsOf items, word.IsHandled
  | [], _, _ => by
    rw [wordsOf]
    exact fun _ h => by cases h
  | item :: rest, hbare, h => by
    rw [Tree.InsideAll] at h
    obtain ⟨hitem, hrest⟩ := List.forall_mem_cons.mp hbare
    rw [wordsOf]
    exact List.forall_mem_cons.mpr ⟨isHandled_wordOf hitem h.1, isHandled_wordsOf hrest h.2⟩
theorem piecesOf_faultless (span : Span) : ∀ {pieces : List Tree.Piece},
    Tree.InsidePieces Tree.Ready pieces → Faultless (piecesOf span pieces)
  | [], _ => by
    rw [piecesOf]
    exact .ok _
  | .text t :: rest, h => by
    rw [Tree.InsidePieces] at h
    rw [piecesOf]
    exact .bind (piecesOf_faultless span h) fun _ _ => .ok _
  | .block kind base inner :: rest, h | .escape kind base inner :: rest, h => by
    rw [Tree.InsidePieces] at h
    rw [piecesOf]
    refine .bind (ofWords_faultless (isHandled_wordsOf h.1.1.bare h.1.2)) fun _ _ => ?_
    exact .bind (piecesOf_faultless span h.2) fun _ _ => .ok _
end

/-- **Items that are ready at every level are grouped or refused.** -/
theorem ofTrees_faultless {items : List Tree} (h : Tree.EveryLevel Tree.Ready items) :
    Faultless (ofTrees items) :=
  ofWords_faultless (isHandled_wordsOf h.1.bare h.2)

end Chain

/-! ## §3 Sources -/

theorem Lexed.allLexed {lexer : LexerConfig} {s : Source} {l : Lexed} (h : s.lex lexer = .ok l) :
    Tree.AllLexed l.trees := by
  obtain ⟨-, out, trees, -, htrees, rfl⟩ := Source.lex_ok_iff.mp h
  exact Tree.allLexed_of_ofLexemes htrees

/-- **Settling hands grouping what it needs.** From what was lexed, settling and grouping end in a result
or a refusal. Settled items are ready at every level, and all chains pass the check of their shape. -/
theorem Lexed.ready_and_wellShaped {lexer : LexerConfig} {s : Source} {l : Lexed}
    (hl : s.lex lexer = .ok l) :
    Faultless (Tree.settle l.trees) ∧
      ∀ items, Tree.settle l.trees = .ok items →
        Tree.EveryLevel Tree.Ready items ∧ Faultless (Chain.ofTrees items) ∧
          ∀ chains, Chain.ofTrees items = .ok chains →
            Chain.EveryChain Chain.IsWellShaped chains := by
  have hlexed := Lexed.allLexed hl
  refine ⟨Tree.settle_faultless hlexed, fun items hitems => ?_⟩
  have hready := Tree.everyLevel_of_settle hlexed hitems
  exact ⟨hready, Chain.ofTrees_faultless hready, fun chains => Chain.ofTrees_isWellShaped⟩

/-- A range without bounds, in the block of a call: both bounds are put in. -/
theorem Lexed.ready_and_wellShaped_of_range :
    let s : Source := ⟨['f', '(', '.', '.', ')'], none⟩
    ∃ l items chains, s.lex default = .ok l ∧ Tree.settle l.trees = .ok items ∧
      Chain.ofTrees items = .ok chains ∧ Tree.EveryLevel Tree.Ready items ∧
        Chain.EveryChain Chain.IsWellShaped chains := by
  intro s
  have hsome : ((s.lex default).toOption.bind fun l => (Tree.settle l.trees).toOption.bind fun items =>
      (Chain.ofTrees items).toOption).isSome = true := by
    decide +kernel
  obtain ⟨chains, hchains⟩ := Option.isSome_iff_exists.mp hsome
  obtain ⟨l, hl, hchains⟩ := Option.bind_eq_some_iff.mp hchains
  obtain ⟨items, hitems, hchains⟩ := Option.bind_eq_some_iff.mp hchains
  have hitems := toOption_eq_some_iff.mp hitems
  have hchains := toOption_eq_some_iff.mp hchains
  obtain ⟨-, hrest⟩ := Lexed.ready_and_wellShaped (toOption_eq_some_iff.mp hl)
  obtain ⟨hready, -, hshaped⟩ := hrest items hitems
  exact ⟨l, items, chains, toOption_eq_some_iff.mp hl, hitems, hchains, hready,
    hshaped chains hchains⟩

end DewyFront
