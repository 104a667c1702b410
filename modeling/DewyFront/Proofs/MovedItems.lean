/-
# DewyFront.Proofs.MovedItems — settling does not look at where items stand

A step of settling asks what an item is, whether it touches the next one, and which span covers two of
them. None of that changes when the offsets of all items are moved in order. So items that are moved
settle to what the items settle to, moved, and are refused for the same cause, moved.

* §1 juxtapositions;
* §2 compound operators;
* §3 levels;
* §4 all levels.
-/
import DewyFront.Proofs.Moves
import DewyFront.Tree.Settled
import Mathlib.Data.List.Induction

namespace DewyFront

namespace Tree

variable {f : Nat → Nat}

/-! ## §1 Juxtapositions -/

@[simp] theorem move_leaf (f : Nat → Nat) (l : Leaf) (span : Span) :
    move f (.leaf l span) = .leaf l (span.move f) := by
  rw [move]

@[simp] theorem move_markerAt (f : Nat → Nat) (m : Marker) (place : Span) :
    (markerAt m place).move f = markerAt m (place.move f) := by
  rw [markerAt, move_leaf, markerAt]

theorem insertFrom_move (f : Nat → Nat) (joinable : Bool) (items : List Tree) :
    insertFrom joinable (items.map (move f)) = (insertFrom joinable items).map (move f) := by
  induction items generalizing joinable with
  | nil => rfl
  | cons item rest ih =>
    rw [List.map_cons, insertFrom, insertFrom, isTrivia_move, isJuxtaposable_move, ih, ih, ih]
    split
    · rfl
    · split
      · simp
      · rfl

theorem classify_move (f : Nat → Nat) (before : Option Tree) (left right : Tree) :
    classify (before.map (move f)) (left.move f) (right.move f) = classify before left right := by
  have hbefore : (before.map (move f)).bind marker? = before.bind marker? := by
    cases before <;> simp
  simp only [classify, hbefore, atom?_move, isBacktick_move, isAngle_move]

theorem classifyFrom_move (f : Nat → Nat) (before left : Option Tree) (items : List Tree) :
    classifyFrom (before.map (move f)) (left.map (move f)) (items.map (move f)) =
      carry f (List.map (move f)) (classifyFrom before left items) := by
  induction items generalizing before left with
  | nil => rfl
  | cons item rest ih =>
    rw [List.map_cons]
    unfold classifyFrom
    rw [marker?_move, List.head?_map]
    split
    · cases left with
      | none => rfl
      | some l =>
        cases rest.head? with
        | none => rfl
        | some r =>
          have hrest := ih (some l) (some (markerAt (classify before l r) item.span))
          simp only [Option.map_some, move_markerAt] at hrest
          simp only [Option.map_some, classify_move, span_move, hrest]
          exact carry_bind fun _ => by simp
    · have hrest := ih left (some item)
      rw [Option.map_some] at hrest
      rw [hrest]
      exact carry_bind fun _ => rfl

theorem isMarker_move (f : Nat → Nat) (m : Marker) (neighbour : Option Tree) :
    isMarker m (neighbour.map (move f)) = isMarker m neighbour := by
  cases neighbour <;> simp [isMarker]

theorem resolveFrom_move (f : Nat → Nat) (left : Option Tree) (items : List Tree) :
    resolveFrom (left.map (move f)) (items.map (move f)) =
      carry f (List.map (move f)) (resolveFrom left items) := by
  induction items generalizing left with
  | nil => rfl
  | cons item rest ih =>
    have hrest := ih (some item)
    rw [Option.map_some] at hrest
    rw [List.map_cons, resolveFrom, resolveFrom]
    simp only [atom?_move, isBacktick_move, marker?_move, span_move, List.head?_map, isMarker_move, hrest]
    split
    · rfl
    · split
      · cases isMarker .backtick left <;> cases isMarker .backtick rest.head? <;>
          first | rfl | exact carry_bind fun _ => by simp
      · split
        · rfl
        · exact carry_bind fun _ => rfl

theorem boundFrom_move (f : Nat → Nat) (left : Option Tree) (items : List Tree) :
    boundFrom (left.map (move f)) (items.map (move f)) = (boundFrom left items).map (move f) := by
  induction items generalizing left with
  | nil => rfl
  | cons item rest ih =>
    have hrest := ih (some item)
    rw [Option.map_some] at hrest
    rw [List.map_cons, boundFrom, boundFrom]
    simp only [atom?_move, span_move, List.head?_map, isMarker_move, hrest]
    split
    · -- Either bound may be there already.
      split <;> split <;> simp [undefinedAt]
    · rfl

theorem meanings_move (f : Nat → Nat) (left right : Tree) :
    meanings (left.move f) (right.move f) = meanings left right := by
  unfold meanings
  rw [atom?_move]
  cases left <;> cases right <;> simp [move]

theorem markerOp_move (f : Nat → Nat) (m : Marker) (left right : Option Tree) :
    markerOp m (left.map (move f)) (right.map (move f)) = carry f id (markerOp m left right) := by
  cases m with
  | plain =>
    cases left with
    | none => rfl
    | some l =>
      cases right with
      | none => rfl
      | some r => simp [markerOp, meanings_move, carry]
  | _ => rfl

theorem operatorsFrom_move (f : Nat → Nat) (left : Option Tree) (items : List Tree) :
    operatorsFrom (left.map (move f)) (items.map (move f)) =
      carry f (List.map (move f)) (operatorsFrom left items) := by
  induction items generalizing left with
  | nil => rfl
  | cons item rest ih =>
    have hrest := ih (some item)
    rw [Option.map_some] at hrest
    rw [List.map_cons, operatorsFrom, operatorsFrom, marker?_move]
    cases item.marker? with
    | none =>
      simp only [hrest]
      exact carry_bind fun _ => rfl
    | some m =>
      simp only [List.head?_map, markerOp_move, hrest]
      exact carry_bind fun op => carry_bind fun more => by simp

/-! ## §2 Compound operators -/

theorem fuse_move (hf : StrictMono f) (op : Op) (first last : Tree) :
    fuse op (first.move f) (last.move f) = (fuse op first last).move f := by
  rw [fuse, fuse, span_move, span_move, move_leaf, Span.move_merge hf]

/-- Pairs are put together wherever they stand, if what joins them does not look at that. -/
theorem fusePairs_move (hf : StrictMono f) {join : Tree → Tree → Option Op}
    (hjoin : ∀ a b, join (a.move f) (b.move f) = join a b) (items : List Tree) :
    fusePairs join (items.map (move f)) = (fusePairs join items).map (move f) := by
  induction items using List.twoStepInduction with
  | nil => rfl
  | singleton a => rfl
  | cons_cons a b rest ih ihb =>
    have hnext := ihb b
    rw [List.map_cons] at hnext
    rw [List.map_cons, List.map_cons, fusePairs, fusePairs, hjoin]
    split
    · rw [ih, fuse_move hf, List.map_cons]
    · rw [hnext, List.map_cons]

theorem joinInverted_move (f : Nat → Nat) (a b : Tree) :
    joinInverted (a.move f) (b.move f) = joinInverted a b := by
  simp only [joinInverted, symbol?_move]

theorem joinBroadcast_move (hf : StrictMono f) (a b : Tree) :
    joinBroadcast (a.move f) (b.move f) = joinBroadcast a b := by
  simp only [joinBroadcast, symbol?_move, operator?_move, span_move, Span.touches_move hf]

theorem joinAssignment_move (hf : StrictMono f) (a b : Tree) :
    joinAssignment (a.move f) (b.move f) = joinAssignment a b := by
  simp only [joinAssignment, symbol?_move, operator?_move, span_move, Span.touches_move hf]

theorem endsOperand_move (f : Nat → Nat) (item : Tree) : endsOperand (item.move f) = endsOperand item := by
  cases item with
  | leaf l span =>
    rw [move_leaf]
    cases l with
    | atom a => cases a <;> rfl
    | _ => rfl
  | _ => simp [move, endsOperand]

theorem leadingOps_move (f : Nat → Nat) (items : List Tree) :
    leadingOps (items.map (move f)) = leadingOps items := by
  induction items with
  | nil => rfl
  | cons item rest ih => rw [List.map_cons, leadingOps, leadingOps, beforeOp?, operator?_move, ih]; rfl

theorem chainHead?_move (f : Nat → Nat) (previous : Option Tree) (item : Tree) :
    chainHead? (previous.map (move f)) (item.move f) = chainHead? previous item := by
  have hprevious : (previous.map (move f)).any endsOperand = previous.any endsOperand := by
    cases previous <;> simp [endsOperand_move]
  rw [chainHead?, chainHead?, hprevious, symbol?_move]

theorem chainFrom_move (hf : StrictMono f) (previous : Option Tree) (skip : Nat) (items : List Tree) :
    chainFrom (previous.map (move f)) skip (items.map (move f)) =
      (chainFrom previous skip items).map (move f) := by
  induction items generalizing previous skip with
  | nil => rfl
  | cons item rest ih =>
    cases skip with
    | succ n =>
      rw [List.map_cons, chainFrom, chainFrom]
      exact ih previous n
    | zero =>
      have hitem := ih (some item) 0
      rw [Option.map_some] at hitem
      rw [List.map_cons, chainFrom, chainFrom, chainHead?_move, leadingOps_move]
      cases chainHead? previous item with
      | none => simp only [hitem, List.map_cons]
      | some head =>
        cases leadingOps rest with
        | nil => simp only [hitem, List.map_cons]
        | cons first others =>
          -- The chain covers its parts up to the last, which is looked up by its place.
          have hlast : ((rest.map (move f))[others.length]?).getD (item.move f) =
              ((rest[others.length]?).getD item).move f := by
            rw [List.getElem?_map]
            cases rest[others.length]? <;> rfl
          have hfused := ih (some (fuse (.chain head (first :: others)) item
            ((rest[others.length]?).getD item))) (first :: others).length
          rw [Option.map_some] at hfused
          simp only [hlast, fuse_move hf, hfused, List.map_cons]

theorem compoundOperators_move (hf : StrictMono f) (items : List Tree) :
    compoundOperators (items.map (move f)) = (compoundOperators items).map (move f) := by
  have hchain := fun items => chainFrom_move hf none 0 items
  simp only [Option.map_none] at hchain
  simp only [compoundOperators, combineAssignments, broadcastOperators, chainOperators,
    invertComparisons, hchain, fusePairs_move hf (joinInverted_move f),
    fusePairs_move hf (joinBroadcast_move hf), fusePairs_move hf (joinAssignment_move hf)]

/-! ## §3 Levels -/

theorem closeElses_move (f : Nat → Nat) (items : List Tree) :
    closeElses (items.map (move f)) = (closeElses items).map (move f) := by
  induction items with
  | nil => rfl
  | cons item rest ih =>
    have hhead : (rest.map (move f)).head?.bind keyword? = rest.head?.bind keyword? := by
      cases rest <;> simp
    rw [List.map_cons, closeElses, closeElses, ih, hhead, keyword?_move, span_move]
    split
    · rw [List.map_cons, move_leaf]
    · rfl

theorem settleLevel_move (hf : StrictMono f) (items : List Tree) :
    settleLevel (items.map (move f)) = carry f (List.map (move f)) (settleLevel items) := by
  have hinsert : classifyMarkers (insertMarkers (items.map (move f))) =
      carry f (List.map (move f)) (classifyMarkers (insertMarkers items)) := by
    rw [insertMarkers, insertFrom_move]
    exact classifyFrom_move f none none _
  unfold settleLevel
  rw [hinsert]
  refine carry_bind fun classified => ?_
  have hresolve := resolveFrom_move f none classified
  rw [Option.map_none] at hresolve
  rw [resolveBackticks, hresolve]
  refine carry_bind fun resolved => ?_
  have hbound := boundFrom_move f none resolved
  rw [Option.map_none] at hbound
  have hoperators := operatorsFrom_move f none (boundRanges resolved)
  rw [Option.map_none] at hoperators
  rw [boundRanges, hbound, markersToOperators, ← boundRanges, hoperators]
  refine carry_bind fun operators => ?_
  rw [closeElses_move, compoundOperators_move hf]
  rfl

/-! ## §4 All levels -/

mutual
/-- What is inside an item settles wherever the item stands. -/
theorem settleInside_move (hf : StrictMono f) : ∀ item : Tree,
    settleInside (item.move f) = carry f (move f) (settleInside item)
  | .leaf l span => by rw [move, settleInside, settleInside, carry, move]
  | .block kind base inner span => by
    rw [move, settleInside, settleInside, settleInsideAll_move hf inner]
    refine carry_bind fun settled => ?_
    rw [moveAll_eq_map, settleLevel_move hf]
    refine carry_bind fun level => ?_
    rw [← moveAll_eq_map]
    rw [carry_pure, move]
  | .istring pieces span => by
    rw [move, settleInside, settleInside, settlePieces_move hf pieces]
    refine carry_bind fun settled => ?_
    rw [carry_pure, move]
theorem settleInsideAll_move (hf : StrictMono f) : ∀ items : List Tree,
    settleInsideAll (moveAll f items) = carry f (moveAll f) (settleInsideAll items)
  | [] => by rw [moveAll, settleInsideAll, carry, moveAll]
  | item :: rest => by
    rw [moveAll, settleInsideAll, settleInsideAll, settleInside_move hf item]
    refine carry_bind fun settled => ?_
    rw [settleInsideAll_move hf rest]
    refine carry_bind fun more => ?_
    rw [carry_pure, moveAll]
theorem settlePieces_move (hf : StrictMono f) : ∀ pieces : List Piece,
    settlePieces (movePieces f pieces) = carry f (movePieces f) (settlePieces pieces)
  | [] => by rw [movePieces, settlePieces, carry, movePieces]
  | .text t :: rest => by
    rw [movePieces, settlePieces, settlePieces, settlePieces_move hf rest]
    refine carry_bind fun more => ?_
    rw [carry_pure, movePieces]
  | .block kind base inner :: rest | .escape kind base inner :: rest => by
    rw [movePieces, settlePieces, settlePieces, settleInsideAll_move hf inner]
    refine carry_bind fun settled => ?_
    rw [moveAll_eq_map, settleLevel_move hf]
    refine carry_bind fun level => ?_
    rw [settlePieces_move hf rest]
    refine carry_bind fun more => ?_
    rw [← moveAll_eq_map]
    rw [carry_pure, movePieces]
end

/-- **Items that are moved settle to what the items settle to, moved.** -/
theorem settle_move (hf : StrictMono f) (items : List Tree) :
    settle (items.map (move f)) = carry f (List.map (move f)) (settle items) := by
  rw [settle, settle, ← moveAll_eq_map, settleInsideAll_move hf items]
  refine carry_bind fun settled => ?_
  rw [moveAll_eq_map, settleLevel_move hf]

end Tree

end DewyFront
