/-
# DewyFront.Proofs.MovedChains — grouping does not look at where items stand

Grouping asks of a word what it is, and of its span only where a chain or an operand ends that is made
with it. So words that are moved are grouped to what the words are grouped to, moved, and are refused
for the same cause, moved.

* §1 words and places;
* §2 chains;
* §3 lists of words;
* §4 items.
-/
import DewyFront.Chain.Grouping
import DewyFront.Proofs.Moves

namespace DewyFront

namespace Chain

variable {f : Nat → Nat}

/-! ## §1 Words -/

/-- **`Word.move`** — a word somewhere else, with all that is inside. -/
def Word.move (f : Nat → Nat) : Word → Word
  | operator op s => operator op (s.move f)
  | operand content s => operand (carry f (moveOperand f) content) (s.move f)
  | semicolon s => semicolon (s.move f)
  | keyword k s => keyword k (s.move f)
  | closingElse s => closingElse (s.move f)
  | unsettled s => unsettled (s.move f)

@[simp] theorem Word.span_move (f : Nat → Nat) (word : Word) :
    (word.move f).span = word.span.move f := by
  cases word <;> rfl

/-- A place somewhere else, with the words that are left. -/
def Cursor.move (f : Nat → Nat) (c : Cursor) : Cursor := ⟨c.words.map (Word.move f), c.stop.move f⟩

@[simp] theorem Cursor.words_move (f : Nat → Nat) (c : Cursor) :
    (c.move f).words = c.words.map (Word.move f) := rfl

@[simp] theorem Cursor.stop_move (f : Nat → Nat) (c : Cursor) : (c.move f).stop = c.stop.move f := rfl

theorem Cursor.behind_move (f : Nat → Nat) (word : Word) (rest : List Word) :
    Cursor.behind (word.move f) (rest.map (Word.move f)) = (Cursor.behind word rest).move f := by
  rw [behind, behind, Word.span_move]
  rfl

@[simp] theorem Cursor.atEnd_move (f : Nat → Nat) (c : Cursor) : (c.move f).atEnd = c.atEnd := by
  obtain ⟨words, stop⟩ := c
  cases words with
  | nil => rfl
  | cons word rest =>
    cases word with
    | keyword k s => cases k <;> rfl
    | _ => rfl

theorem takeOperators_move (f : Nat → Nat) (p : Op → Bool) (stop : Span) (words : List Word) :
    takeOperators p (stop.move f) (words.map (Word.move f)) =
      ((takeOperators p stop words).1.map (Operator.move f), (takeOperators p stop words).2.move f) := by
  induction words generalizing stop with
  | nil => rfl
  | cons word rest ih =>
    cases word with
    | operator op span =>
      have hrest := ih span.endPoint
      rw [Span.move_endPoint] at hrest
      rw [List.map_cons, Word.move, takeOperators, takeOperators, hrest]
      split <;> rfl
    | _ => rfl

theorem missingChunk_move (f : Nat → Nat) (last : Option Operator) (c : Cursor) :
    (missingChunk last c).move f = missingChunk (last.map (Operator.move f)) (c.move f) := by
  cases last <;> rfl

theorem takeSemicolon_move (f : Nat → Nat) (c : Cursor) :
    takeSemicolon (c.move f) = (Chain.move f (takeSemicolon c).1, (takeSemicolon c).2.move f) := by
  obtain ⟨words, stop⟩ := c
  cases words with
  | nil => simp [takeSemicolon, Cursor.move, Chain.move]
  | cons word rest =>
    cases word <;>
      simp [takeSemicolon, Cursor.move, Chain.move, Word.move, semicolonLinks, Operator.move,
        moveOperand]

/-! ## §2 Chains -/

/-- A chain and the place behind it, somewhere else. -/
def moveChain (f : Nat → Nat) (x : Chain × Cursor) : Chain × Cursor := (Chain.move f x.1, x.2.move f)

/-- An operand, where it stands and the place behind it, somewhere else. -/
def moveFound (f : Nat → Nat) (x : Operand × Span × Cursor) : Operand × Span × Cursor :=
  (moveOperand f x.1, x.2.1.move f, x.2.2.move f)

/-- An arm and the place behind it, somewhere else. -/
def moveArm (f : Nat → Nat) (x : Arm × Cursor) : Arm × Cursor := (x.1.move f, x.2.move f)

/-- Arms, what is taken when none is, and the place behind them, somewhere else. -/
def moveFlow (f : Nat → Nat) (x : List Arm × Option Chain × Cursor) : List Arm × Option Chain × Cursor :=
  (moveArms f x.1, x.2.1.map (Chain.move f), x.2.2.move f)

/-- **`Carries`** — with `n` for the depth of calls, grouping carries over to words that are moved. -/
structure Carries (f : Nat → Nat) (n : Nat) : Prop where
  group : ∀ c, group n (c.move f) = carry f (moveChain f) (group n c)
  chunks : ∀ c, chunks n (c.move f) = carry f (moveChain f) (chunks n c)
  chunk : ∀ last c, chunk n (last.map (Operator.move f)) (c.move f) =
    carry f (moveChain f) (chunk n last c)
  operand : ∀ word c, operand n (word.move f) (c.move f) = carry f (moveFound f) (operand n word c)
  arm : ∀ k span c, arm n k (span.move f) (c.move f) = carry f (moveArm f) (arm n k span c)
  arms : ∀ c, arms n (c.move f) = carry f (moveFlow f) (arms n c)
  closing : ∀ c, closing n (c.move f) = carry f (moveFlow f) (closing n c)

namespace Carries

variable {n : Nat}

theorem zero (f : Nat → Nat) : Carries f 0 where
  group _ := rfl
  chunks _ := rfl
  chunk _ _ := rfl
  operand _ _ := rfl
  arm _ _ _ := rfl
  arms _ := rfl
  closing _ := rfl

/-- More than an operator on its own are chunks. -/
theorem group_chunks (c : Cursor) (h : ∀ op span, c.words ≠ [.operator op span]) :
    Chain.group (n + 1) c = do
      let (first, c) ← Chain.chunk n none c
      let (more, c) ← Chain.chunks n c
      let (last, c) := takeSemicolon c
      return (first ++ more ++ last, c) := by
  rw [Chain.group]
  split
  · next op span hwords => exact absurd hwords (h op span)
  · rfl

theorem group_succ (ih : Carries f n) (c : Cursor) :
    Chain.group (n + 1) (c.move f) = carry f (moveChain f) (Chain.group (n + 1) c) := by
  by_cases hlone : ∃ op span, c.words = [.operator op span]
  · obtain ⟨op, span, hwords⟩ := hlone
    rw [Chain.group, Chain.group, Cursor.words_move, hwords]
    simp [Word.move, moveChain, Chain.move, moveOperand, Cursor.move]
  · have hne : ∀ op span, c.words ≠ [.operator op span] := fun op span h => hlone ⟨op, span, h⟩
    -- Moving makes no operator of another word.
    have hmoved : ∀ op span, (c.move f).words ≠ [.operator op span] := by
      intro op span h
      obtain ⟨word, hword, hop⟩ := List.map_eq_singleton_iff.mp h
      cases word <;> cases hop
      exact hne _ _ hword
    rw [group_chunks _ hmoved, group_chunks _ hne]
    have hchunk := ih.chunk none c
    rw [Option.map_none] at hchunk
    rw [hchunk]
    refine carry_bind ?_
    rintro ⟨first, c₁⟩
    dsimp only [moveChain]
    rw [ih.chunks c₁]
    refine carry_bind ?_
    rintro ⟨more, c₂⟩
    dsimp only [moveChain]
    rw [takeSemicolon_move, carry_pure]
    simp [moveChain, move_append]

theorem chunks_succ (ih : Carries f n) (c : Cursor) :
    Chain.chunks (n + 1) (c.move f) = carry f (moveChain f) (Chain.chunks (n + 1) c) := by
  obtain ⟨words, stop⟩ := c
  have hnone : ∀ c : Cursor, (([] : Chain), c.move f) = moveChain f ([], c) := fun c => by
    rw [moveChain, Chain.move]
  cases words with
  | nil => exact congrArg Except.ok (hnone _)
  | cons word rest =>
    cases word with
    | operator op span =>
      have hbehind : (⟨rest.map (Word.move f), (span.move f).endPoint⟩ : Cursor) =
          (Cursor.mk rest span.endPoint).move f := rfl
      rw [Cursor.move, List.map_cons, Word.move, Chain.chunks, Chain.chunks]
      dsimp only
      rw [hbehind, Cursor.atEnd_move]
      split
      · split
        · rw [refuse, refuse, carry, ParseError.move_missingOperand]
          rfl
        · have hchunk := ih.chunk (some ⟨op, span⟩) ⟨rest, span.endPoint⟩
          rw [Option.map_some, Operator.move] at hchunk
          rw [hchunk]
          refine carry_bind ?_
          rintro ⟨next, c₁⟩
          dsimp only [moveChain]
          rw [ih.chunks c₁]
          refine carry_bind ?_
          rintro ⟨more, c₂⟩
          rw [carry_pure]
          simp [moveChain, Chain.move, move_append, Operator.move]
      · exact congrArg Except.ok (hnone ⟨.operator op span :: rest, stop⟩)
    | _ => exact congrArg Except.ok (hnone _)

theorem chunk_succ (ih : Carries f n) (last : Option Operator) (c : Cursor) :
    Chain.chunk (n + 1) (last.map (Operator.move f)) (c.move f) =
      carry f (moveChain f) (Chain.chunk (n + 1) last c) := by
  rw [Chain.chunk, Chain.chunk, Cursor.words_move, Cursor.stop_move, takeOperators_move]
  obtain ⟨before, words, stop⟩ := takeOperators Op.isBefore c.stop c.words
  cases words with
  | nil =>
    have hlast : ((before.map (Operator.move f)).getLast? <|> last.map (Operator.move f)) =
        (before.getLast? <|> last).map (Operator.move f) := by
      rw [List.getLast?_map]
      cases before.getLast? <;> rfl
    dsimp only [Cursor.move, List.map_nil]
    rw [hlast, refuse, refuse, carry, missingChunk_move]
    rfl
  | cons word rest =>
    rw [Cursor.move, List.map_cons]
    dsimp only
    rw [Cursor.behind_move, ih.operand]
    refine carry_bind ?_
    rintro ⟨content, span, c₂⟩
    dsimp only [moveFound]
    rw [Cursor.words_move, Cursor.stop_move, takeOperators_move, carry_pure]
    simp [moveChain, move_append, move_operators, Chain.move]

theorem operand_succ (hf : StrictMono f) (ih : Carries f n) (word : Word) (c : Cursor) :
    Chain.operand (n + 1) (word.move f) (c.move f) =
      carry f (moveFound f) (Chain.operand (n + 1) word c) := by
  cases word with
  | operand content span =>
    rw [Word.move, Chain.operand, Chain.operand]
    exact carry_bind fun _ => rfl
  | keyword k span =>
    rw [Word.move, Chain.operand, Chain.operand, Cursor.atEnd_move]
    split
    · rfl
    · split
      · rw [ih.arm]
        refine carry_bind ?_
        rintro ⟨first, c₁⟩
        dsimp only [moveArm]
        rw [ih.arms]
        refine carry_bind ?_
        rintro ⟨more, otherwise, c₂⟩
        rw [carry_pure]
        simp [moveFound, moveFlow, moveOperand_flow, moveArms_cons, Span.move_merge hf]
      · split
        · split
          · rfl
          · rw [ih.group]
            refine carry_bind ?_
            rintro ⟨target, c₁⟩
            rw [carry_pure]
            simp [moveFound, moveChain, moveOperand, Span.move_merge hf]
        · split
          · simp [moveFound, moveOperand, Span.move_merge hf]
          · rw [ih.group]
            refine carry_bind ?_
            rintro ⟨target, c₁⟩
            rw [carry_pure]
            simp [moveFound, moveChain, moveOperand, Span.move_merge hf]
  | _ => rfl

theorem arm_succ (ih : Carries f n) (k : Keyword) (span : Span) (c : Cursor) :
    Chain.arm (n + 1) k (span.move f) (c.move f) =
      carry f (moveArm f) (Chain.arm (n + 1) k span c) := by
  rw [Chain.arm, Chain.arm, Cursor.atEnd_move]
  split
  · rfl
  · rw [ih.group]
    refine carry_bind ?_
    rintro ⟨condition, c₁⟩
    dsimp only [moveChain]
    rw [Cursor.atEnd_move]
    split
    · rfl
    · rw [ih.group]
      refine carry_bind ?_
      rintro ⟨clause, c₂⟩
      rfl

theorem closing_succ (ih : Carries f n) (c : Cursor) :
    Chain.closing (n + 1) (c.move f) = carry f (moveFlow f) (Chain.closing (n + 1) c) := by
  rw [Chain.closing, Chain.closing, Cursor.atEnd_move]
  split
  · rfl
  · rw [ih.group]
    refine carry_bind ?_
    rintro ⟨otherwise, c₁⟩
    rw [carry_pure]
    simp [moveFlow, moveChain, moveArms]

theorem arms_succ (ih : Carries f n) (c : Cursor) :
    Chain.arms (n + 1) (c.move f) = carry f (moveFlow f) (Chain.arms (n + 1) c) := by
  obtain ⟨words, stop⟩ := c
  have hnone : ∀ c : Cursor, (([] : List Arm), (none : Option Chain), c.move f) =
      moveFlow f ([], none, c) := fun c => by
    rw [moveFlow, moveArms]
    rfl
  cases words with
  | nil => exact congrArg Except.ok (hnone _)
  | cons word rest =>
    have hclosing : Chain.closing n (Cursor.behind (word.move f) (rest.map (Word.move f))) =
        carry f (moveFlow f) (Chain.closing n (.behind word rest)) := by
      rw [Cursor.behind_move]
      exact ih.closing _
    cases word with
    | closingElse span => exact hclosing
    | keyword k span =>
      cases k with
      | elseWord =>
        cases rest with
        | nil => exact hclosing
        | cons next more =>
          cases next with
          | keyword k' span' =>
            -- Another arm if the keyword is one of flow, and the last clause otherwise.
            have harm := ih.arm k' span' ⟨more, span'.endPoint⟩
            rw [Cursor.move, Span.move_endPoint] at harm
            rw [Cursor.move, List.map_cons, List.map_cons, Word.move, Word.move, Chain.arms, Chain.arms]
            dsimp only at harm ⊢
            split
            · rw [harm]
              refine carry_bind ?_
              rintro ⟨found, c₁⟩
              dsimp only [moveArm]
              rw [ih.arms]
              refine carry_bind ?_
              rintro ⟨arms, otherwise, c₂⟩
              rw [carry_pure]
              simp [moveFlow, moveArms_cons]
            · exact hclosing
          | _ => exact hclosing
      | _ => exact congrArg Except.ok (hnone _)
    | _ => exact congrArg Except.ok (hnone _)

end Carries

/-- **Grouping carries over to words that are moved**, at any depth of calls. -/
theorem carries (hf : StrictMono f) (n : Nat) : Carries f n := by
  induction n with
  | zero => exact .zero f
  | succ n ih =>
    exact ⟨ih.group_succ, ih.chunks_succ, ih.chunk_succ, ih.operand_succ hf, ih.arm_succ, ih.arms_succ,
      ih.closing_succ⟩

/-! ## §3 Lists of words -/

theorem groupFrom_move (hf : StrictMono f) (depth n : Nat) (c : Cursor) :
    groupFrom depth n (c.move f) = carry f (List.map (Chain.move f)) (groupFrom depth n c) := by
  induction n generalizing c with
  | zero =>
    rw [groupFrom, groupFrom, Cursor.words_move, List.isEmpty_map]
    split <;> rfl
  | succ n ih =>
    rw [groupFrom, groupFrom, Cursor.words_move, List.isEmpty_map]
    split
    · rfl
    · rw [(carries hf depth).group]
      refine carry_bind ?_
      rintro ⟨chain, c₁⟩
      dsimp only [moveChain]
      rw [ih]
      exact carry_bind fun _ => rfl

theorem ofWords_move (hf : StrictMono f) (words : List Word) :
    ofWords (words.map (Word.move f)) = carry f (List.map (Chain.move f)) (ofWords words) := by
  cases words with
  | nil => rfl
  | cons word rest =>
    -- The place in front of the first word moves with the word.
    have hstart : (Cursor.mk (word :: rest) (.point word.span.start)).move f =
        ⟨(word :: rest).map (Word.move f), .point (word.move f).span.start⟩ := by
      rw [Cursor.move, Word.span_move]
      rfl
    rw [ofWords, ofWords, List.length_map]
    exact (congrArg _ hstart.symm).trans (groupFrom_move hf _ _ _)

/-! ## §4 Items -/

theorem innerSpan_move (hf : StrictMono f) (items : List Tree) (fallback : Span) :
    innerSpan (items.map (Tree.move f)) (fallback.move f) = (innerSpan items fallback).move f := by
  rw [innerSpan, innerSpan, List.head?_map, List.getLast?_map]
  cases items.head? with
  | none => rfl
  | some first =>
    cases items.getLast? with
    | none => rfl
    | some last => simp [Span.move_merge hf]

theorem leafWord_move (f : Nat → Nat) (l : Leaf) (span : Span) :
    leafWord l (span.move f) = (leafWord l span).move f := by
  cases l with
  | atom a => cases a <;> simp [leafWord, Word.move, moveOperand]
  | _ => rfl

mutual
theorem wordOf_move (hf : StrictMono f) : ∀ item : Tree, wordOf (item.move f) = (wordOf item).move f
  | .leaf l span => by rw [Tree.move, wordOf, wordOf, leafWord_move]
  | .block kind base inner span => by
    rw [Tree.move, wordOf, wordOf, wordsOf_move hf inner, ofWords_move hf, Word.move]
    congr 1
    exact carry_map fun chains => by rw [moveOperand, moveAll_eq_map]
  | .istring pieces span => by
    rw [Tree.move, wordOf, wordOf, piecesOf_move hf span pieces, Word.move]
    congr 1
    exact carry_map fun pieces => by rw [moveOperand]
theorem wordsOf_move (hf : StrictMono f) : ∀ items : List Tree,
    wordsOf (Tree.moveAll f items) = (wordsOf items).map (Word.move f)
  | [] => by rw [Tree.moveAll, wordsOf, List.map_nil]
  | item :: rest => by
    rw [Tree.moveAll, wordsOf, wordsOf, wordOf_move hf item, wordsOf_move hf rest, List.map_cons]
theorem piecesOf_move (hf : StrictMono f) (span : Span) : ∀ pieces : List Tree.Piece,
    piecesOf (span.move f) (Tree.movePieces f pieces) = carry f (movePieces f) (piecesOf span pieces)
  | [] => by rw [Tree.movePieces, piecesOf, piecesOf, carry_ok, movePieces]
  | .text t :: rest => by
    rw [Tree.movePieces, piecesOf, piecesOf, piecesOf_move hf span rest]
    exact carry_bind fun more => by rw [carry_pure, movePieces]
  | .block kind base inner :: rest => by
    rw [Tree.movePieces, piecesOf, piecesOf, wordsOf_move hf inner, ofWords_move hf]
    refine carry_bind fun chains => ?_
    rw [piecesOf_move hf span rest, Tree.moveAll_eq_map, innerSpan_move hf]
    exact carry_bind fun more => by rw [carry_pure, movePieces, moveOperand, moveAll_eq_map]
  | .escape kind base inner :: rest => by
    rw [Tree.movePieces, piecesOf, piecesOf, wordsOf_move hf inner, ofWords_move hf]
    refine carry_bind fun chains => ?_
    rw [piecesOf_move hf span rest, Tree.moveAll_eq_map, innerSpan_move hf]
    exact carry_bind fun more => by rw [carry_pure, movePieces, moveOperand, moveAll_eq_map]
end

/-- **Items that are moved are grouped to what the items are grouped to, moved.** -/
theorem ofTrees_move (hf : StrictMono f) (items : List Tree) :
    ofTrees (items.map (Tree.move f)) = carry f (List.map (Chain.move f)) (ofTrees items) := by
  rw [ofTrees, ofTrees, ← Tree.moveAll_eq_map, wordsOf_move hf, ofWords_move hf]

end Chain

end DewyFront
