/-
# DewyFront.Proofs.MovedReadings — reducing does not look at where chains stand

Passes come to an end at the same list, forks copy the same lists, and candidates are left out for
being there already in the same order, since what was different stays different. So a chain that is
moved has the expression of the chain, moved, or is refused for the same cause, moved. A chain without
links would be refused for a place of its own, but grouping makes none.

* §1 runs and forks;
* §2 merging;
* §3 readings;
* §4 shapes;
* §5 chains.
-/
import DewyFront.Expr.OfChain
import DewyFront.Proofs.MovedPasses
import DewyFront.Proofs.WellShaped

namespace DewyFront

variable {f : Nat → Nat}

namespace Reading

open Reduction

/-! ## §1 Runs and forks -/

/-- Where passes come to an end, somewhere else. -/
def Run.move (f : Nat → Nat) (r : Run) : Run := { r with slots := r.slots.map (Slot.move f) }

/-- Copies somewhere else. -/
def Fork.move (f : Nat → Nat) (k : Fork) : Fork :=
  ⟨k.site.move f, k.copies.map (List.map (Slot.move f))⟩

theorem runFor_move (hf : StrictMono f) (n : Nat) (slots : List Slot) :
    runFor n (slots.map (Slot.move f)) = carry f (Run.move f) (runFor n slots) := by
  induction n generalizing slots with
  | zero => rfl
  | succ n ih =>
    rw [runFor, runFor, survey_move]
    refine carry_bind fun found => ?_
    cases found with
    | contested place => rfl
    | decided pulls =>
      dsimp only [id]
      rw [pass_move hf]
      refine carry_bind fun next => ?_
      simp only [List.length_map]
      split
      · rfl
      · exact ih next

theorem run_move (hf : StrictMono f) (slots : List Slot) :
    run (slots.map (Slot.move f)) = carry f (Run.move f) (run slots) := by
  rw [run, run, List.length_map, runFor_move hf]

theorem fork_move (f : Nat → Nat) (slots : List Slot) (place : Nat) :
    fork (slots.map (Slot.move f)) place = carry f (Fork.move f) (fork slots place) := by
  unfold fork
  rw [List.getElem?_map]
  cases slots[place]? with
  | none => rfl
  | some s =>
    cases s with
    | node e => rfl
    | operator o =>
      obtain ⟨op, span⟩ := o
      cases op with
      | juxtapose m =>
        simp [Slot.move, Operator.move, carry, Fork.move, List.map_set, Function.comp_def]
      | _ => rfl

theorem runAll_move (hf : StrictMono f) (copies : List (List Slot)) :
    runAll (copies.map (List.map (Slot.move f))) =
      carry f (List.map (List.map (Slot.move f))) (runAll copies) := by
  induction copies with
  | nil => rfl
  | cons copy copies ih =>
    rw [List.map_cons, runAll, runAll, run_move hf, ih]
    exact carry_bind fun _ => carry_bind fun _ => rfl

/-! ## §2 Merging -/

theorem addNew_move (hf : StrictMono f) (found : List Expr) (e : Expr) :
    addNew (found.map (Expr.move f)) (e.move f) = (addNew found e).map (Expr.move f) := by
  have hmem : e.move f ∈ found.map (Expr.move f) ↔ e ∈ found :=
    List.mem_map_of_injective (Expr.move_injective hf)
  unfold addNew
  by_cases he : e ∈ found
  · rw [if_pos (hmem.mpr he), if_pos he]
  · rw [if_neg (mt hmem.mp he), if_neg he, List.map_append]
    rfl

theorem foldl_addNew_move (hf : StrictMono f) (found es : List Expr) :
    (es.map (Expr.move f)).foldl addNew (found.map (Expr.move f)) =
      (es.foldl addNew found).map (Expr.move f) := by
  induction es generalizing found with
  | nil => rfl
  | cons e es ih => rw [List.map_cons, List.foldl_cons, List.foldl_cons, addNew_move hf, ih]

theorem differences_move (hf : StrictMono f) (first : List Slot) (others : List (List Slot)) :
    differences (first.map (Slot.move f)) (others.map (List.map (Slot.move f))) =
      (differences first others).map (Prod.map (Slot.move f) id) := by
  have hne : ∀ (copy : List Slot) (i : Nat) (s : Slot),
      (copy[i]?.map (Slot.move f) != some (s.move f)) = (copy[i]? != some s) := by
    intro copy i s
    rw [← Option.map_some, Bool.eq_iff_iff, bne_iff_ne, bne_iff_ne]
    exact (Option.map_injective (Slot.move_injective hf)).ne_iff
  simp [differences, List.zipIdx_map, List.filter_map, Function.comp_def, hne, Prod.map]

theorem nodesAt_move (f : Nat → Nat) (place : Nat) (copies : List (List Slot)) :
    nodesAt place (copies.map (List.map (Slot.move f))) =
      (nodesAt place copies).map (List.map (Expr.move f)) := by
  induction copies with
  | nil => rfl
  | cons copy copies ih =>
    have hnode : (copy.map (Slot.move f))[place]?.bind Slot.node? =
        (copy[place]?.bind Slot.node?).map (Expr.move f) := by
      rw [List.getElem?_map]
      cases copy[place]? <;> simp
    rw [List.map_cons, nodesAt, nodesAt, hnode, ih]
    cases copy[place]?.bind Slot.node? with
    | none => rfl
    | some e => cases nodesAt place copies <;> rfl

theorem ambiguousOf_move (hf : StrictMono f) (site : Span) (candidates : List Expr) :
    ambiguousOf (site.move f) (candidates.map (Expr.move f)) = (ambiguousOf site candidates).move f := by
  rcases candidates with _ | ⟨e, _ | ⟨e', es⟩⟩
  · simp [ambiguousOf, Expr.move, Expr.moveAll]
  · rfl
  · have hspan := Expr.spanOfAll_move hf e (e' :: es)
    rw [List.map_cons] at hspan
    rw [List.map_cons, List.map_cons, ambiguousOf, ambiguousOf, hspan, Expr.move,
      Expr.moveAll_eq_map, List.map_cons, List.map_cons]
    all_goals exact fun h => by cases h

theorem merge_move (hf : StrictMono f) (limit : Nat) (site : Span) (copies : List (List Slot)) :
    merge limit (site.move f) (copies.map (List.map (Slot.move f))) =
      carry f (Option.map (List.map (Slot.move f))) (merge limit site copies) := by
  cases copies with
  | nil => rfl
  | cons first others =>
    have hlength : (others.map (List.map (Slot.move f))).any
        (·.length != (first.map (Slot.move f)).length) = others.any (·.length != first.length) := by
      simp [List.any_map, Function.comp_def]
    rw [List.map_cons]
    unfold merge
    dsimp only
    rw [hlength, differences_move hf, ← List.map_cons]
    split
    · rfl
    · -- Copies are merged where they differ in one place, and nowhere else.
      rcases differences first others with _ | ⟨⟨s, place⟩, _ | ⟨d, more⟩⟩
      · rfl
      · rw [List.map_cons, List.map_nil]
        dsimp only [Prod.map, id]
        rw [nodesAt_move]
        cases nodesAt place (first :: others) with
        | none => rfl
        | some nodes =>
          have hcandidates := foldl_addNew_move hf [] nodes
          rw [List.map_nil] at hcandidates
          simp only [Option.map_some, hcandidates, List.length_map, ambiguousOf_move hf]
          split
          · rfl
          · simp [carry, List.map_set, Slot.move]
      · rfl

/-! ## §3 Readings -/

theorem onlyNode_move (f : Nat → Nat) (slots : List Slot) :
    onlyNode (slots.map (Slot.move f)) = carry f (Expr.move f) (onlyNode slots) := by
  rcases slots with _ | ⟨s, _ | ⟨s', rest⟩⟩
  · rfl
  · cases s <;> rfl
  · cases s <;> cases s' <;> rfl

theorem contestable_move (f : Nat → Nat) (slots : List Slot) :
    contestable (slots.map (Slot.move f)) = contestable slots := by
  have hop : ∀ s : Slot, (s.move f).operator?.any (·.op.isContested) =
      s.operator?.any (·.op.isContested) := by
    intro s
    cases s <;> rfl
  simp only [contestable, List.countP_map, Function.comp_def, hop]

theorem readingsFor_move (hf : StrictMono f) (limit n : Nat) (slots : List Slot) :
    readingsFor limit n (slots.map (Slot.move f)) =
      carry f (List.map (Expr.move f)) (readingsFor limit n slots) := by
  induction n generalizing slots with
  | zero => rfl
  | succ n ih =>
    rw [readingsFor, readingsFor, run_move hf]
    refine carry_bind fun ended => ?_
    obtain ⟨slots, contested⟩ := ended
    cases contested with
    | none =>
      dsimp only [Run.move]
      rw [onlyNode_move]
      exact carry_bind fun _ => rfl
    | some place =>
      dsimp only [Run.move]
      rw [fork_move]
      refine carry_bind fun forked => ?_
      dsimp only [Fork.move]
      rw [runAll_move hf]
      refine carry_bind fun copies => ?_
      rw [merge_move hf]
      refine carry_bind fun merged => ?_
      cases merged with
      | some merged => exact ih merged
      | none =>
        -- Each copy is read by itself.
        dsimp only [Option.map_none]
        refine carry_foldlM (h := List.map (Expr.move f)) (k := List.map (Slot.move f))
          (fun found copy => ?_) copies []
        rw [ih copy]
        refine carry_bind fun more => ?_
        simp only [foldl_addNew_move hf, List.length_map]
        split <;> rfl

theorem readings_move (hf : StrictMono f) (limit : Nat) (slots : List Slot) :
    readings limit (slots.map (Slot.move f)) =
      carry f (List.map (Expr.move f)) (readings limit slots) := by
  rw [readings, readings, contestable_move, readingsFor_move hf]

theorem reduce_move (hf : StrictMono f) (limit : Nat) (span : Span) (slots : List Slot) :
    reduce limit (span.move f) (slots.map (Slot.move f)) =
      carry f (Expr.move f) (reduce limit span slots) := by
  rw [reduce, reduce, readings_move hf]
  refine carry_bind fun candidates => ?_
  rcases candidates with _ | ⟨e, _ | ⟨e', es⟩⟩
  · simp [Expr.move, Expr.moveAll]
  · rfl
  · simp [Expr.move, Expr.moveAll_eq_map]

end Reading

/-! ## §4 Shapes -/

namespace Chain

theorem checkFrom_move (f : Nat → Nat) (wanting : Bool) (last : Option Operator) (chain : Chain) :
    checkFrom wanting (last.map (Operator.move f)) (move f chain) =
      carry f id (checkFrom wanting last chain) := by
  induction chain generalizing wanting last with
  | nil =>
    rw [move]
    cases wanting <;> cases last <;> first | rfl | skip
    rw [Option.map_some, checkFrom, checkFrom, refuse, refuse, carry, ParseError.move_missingOperand]
    rfl
  | cons link rest ih =>
    cases link with
    | operand content span =>
      rw [move, checkFrom, checkFrom]
      split
      · exact ih false last
      · rfl
    | operator o =>
      have hrest := fun wanting => ih wanting (some o)
      simp only [Option.map_some] at hrest
      rw [move, checkFrom, checkFrom, Operator.op_move, hrest, hrest]
      split
      · split <;> rfl
      · split
        · rfl
        · split <;> rfl

theorem span?_move (hf : StrictMono f) (chain : Chain) :
    span? (move f chain) = (span? chain).map (Span.move f) := by
  rw [span?, span?, move_eq_map, List.head?_map, List.getLast?_map]
  cases chain.head? with
  | none => rfl
  | some first =>
    cases chain.getLast? with
    | none => rfl
    | some last => simp [Span.move_merge hf]

/-- A chain with links is checked wherever it stands. -/
theorem checkShape_move (hf : StrictMono f) {chain : Chain} (hne : chain ≠ []) :
    checkShape (move f chain) = carry f (Span.move f) (checkShape chain) := by
  obtain ⟨first, rest, rfl⟩ := List.exists_cons_of_ne_nil hne
  -- Only a chain without links has no span of its own.
  obtain ⟨span, hspan⟩ : ∃ span, span? (first :: rest) = some span := by
    rw [span?, List.getLast?_cons]
    exact ⟨_, rfl⟩
  have hcheck := checkFrom_move f true none (first :: rest)
  rw [Option.map_none] at hcheck
  unfold checkShape
  rw [span?_move hf, hspan]
  dsimp only [Option.map_some]
  rw [hcheck]
  exact carry_bind fun _ => rfl

end Chain

/-! ## §5 Chains -/

namespace Expr

/-- A chain with links is reduced wherever it stands. -/
theorem assemble_move (hf : StrictMono f) (limit : Nat) {chain : Chain} (hne : chain ≠ [])
    (slots : Except (Failure ParseError) (List Slot)) :
    assemble limit (Chain.move f chain) (carry f (List.map (Slot.move f)) slots) =
      carry f (move f) (assemble limit chain slots) := by
  rw [assemble, assemble, Chain.checkShape_move hf hne]
  exact carry_bind fun span => carry_bind fun slots => Reading.reduce_move hf limit span slots

open Chain in
mutual
theorem slotsOf_move (hf : StrictMono f) (limit : Nat) : ∀ {chain : List Link}, Inside (· ≠ []) chain →
    slotsOf limit (Chain.move f chain) = carry f (List.map (Slot.move f)) (slotsOf limit chain)
  | [], _ => by rw [Chain.move, slotsOf, carry_ok, List.map_nil]
  | .operator o :: rest, h => by
    rw [Chain.move, slotsOf, slotsOf, slotsOf_move hf limit (inside_operator_iff.mp h)]
    exact carry_bind fun _ => rfl
  | .operand content span :: rest, h => by
    obtain ⟨hcontent, hrest⟩ := inside_operand_iff.mp h
    rw [Chain.move, slotsOf, slotsOf, ofOperand_move hf limit span hcontent, slotsOf_move hf limit hrest]
    exact carry_bind fun _ => carry_bind fun _ => rfl
theorem ofOperand_move (hf : StrictMono f) (limit : Nat) (span : Span) :
    ∀ {content : Operand}, InsideOperand (· ≠ []) content →
      ofOperand limit (span.move f) (moveOperand f content) = carry f (move f) (ofOperand limit span content)
  | .atom a, _ => by rw [moveOperand, ofOperand, ofOperand, carry_ok, move]
  | .block kind base inner, h => by
    have hinner : EveryChain (· ≠ []) inner := h.chains
    rw [moveOperand, ofOperand, ofOperand, ofChains_move hf limit hinner]
    exact carry_bind fun _ => by rw [carry_pure, move]
  | .escape inner, h => by
    have hinner : EveryChain (· ≠ []) inner := h.chains
    rw [moveOperand, ofOperand, ofOperand, ofChains_move hf limit hinner]
    exact carry_bind fun _ => by rw [carry_pure, move]
  | .istring pieces, h => by
    rw [moveOperand, ofOperand, ofOperand, piecesOf_move hf limit (insideOperand_istring_iff.mp h)]
    exact carry_bind fun _ => by rw [carry_pure, move]
  | .flow arms none, h => by
    obtain ⟨harms, -⟩ := List.forall_mem_append.mp h.chains
    rw [moveOperand, ofOperand, ofOperand, armsOf_move hf limit harms]
    exact carry_bind fun _ => by rw [carry_pure, move]
  | .flow arms (some otherwise), h => by
    obtain ⟨harms, hlast⟩ := List.forall_mem_append.mp h.chains
    obtain ⟨hne, hinside⟩ := List.forall_mem_singleton.mp hlast
    rw [moveOperand, ofOperand, ofOperand, armsOf_move hf limit harms, slotsOf_move hf limit hinside,
      assemble_move hf limit hne]
    exact carry_bind fun _ => carry_bind fun _ => by rw [carry_pure, move]
  | .declare k target, h => by
    obtain ⟨hne, hinside⟩ := List.forall_mem_singleton.mp h.chains
    rw [moveOperand, ofOperand, ofOperand, slotsOf_move hf limit hinside, assemble_move hf limit hne]
    exact carry_bind fun _ => by rw [carry_pure, move]
  | .keyword k none, _ => by rw [moveOperand, ofOperand, ofOperand, carry_ok, move]
  | .keyword k (some operand), h => by
    obtain ⟨hne, hinside⟩ := List.forall_mem_singleton.mp h.chains
    rw [moveOperand, ofOperand, ofOperand, slotsOf_move hf limit hinside, assemble_move hf limit hne]
    exact carry_bind fun _ => by rw [carry_pure, move]
theorem ofChains_move (hf : StrictMono f) (limit : Nat) :
    ∀ {chains : List (List Link)}, EveryChain (· ≠ []) chains →
      ofChains limit (Chain.moveAll f chains) = carry f (moveAll f) (ofChains limit chains)
  | [], _ => by rw [Chain.moveAll, ofChains, carry_ok, moveAll]
  | chain :: chains, h => by
    obtain ⟨⟨hne, hinside⟩, hrest⟩ := List.forall_mem_cons.mp h
    rw [Chain.moveAll, ofChains, ofChains, slotsOf_move hf limit hinside, assemble_move hf limit hne,
      ofChains_move hf limit hrest]
    exact carry_bind fun _ => carry_bind fun _ => by rw [carry_pure, moveAll]
theorem piecesOf_move (hf : StrictMono f) (limit : Nat) :
    ∀ {pieces : List Chain.Piece}, InsidePieces (· ≠ []) pieces →
      piecesOf limit (Chain.movePieces f pieces) = carry f (movePieces f) (piecesOf limit pieces)
  | [], _ => by rw [Chain.movePieces, piecesOf, carry_ok, movePieces]
  | .text t :: rest, h => by
    rw [Chain.movePieces, piecesOf, piecesOf, piecesOf_move hf limit (insidePieces_text_iff.mp h)]
    exact carry_bind fun _ => by rw [carry_pure, movePieces]
  | .hole content span :: rest, h => by
    obtain ⟨hcontent, hrest⟩ := insidePieces_hole_iff.mp h
    rw [Chain.movePieces, piecesOf, piecesOf, ofOperand_move hf limit span hcontent,
      piecesOf_move hf limit hrest]
    exact carry_bind fun _ => carry_bind fun _ => by rw [carry_pure, movePieces]
theorem armsOf_move (hf : StrictMono f) (limit : Nat) :
    ∀ {arms : List Chain.Arm}, EveryChain (· ≠ []) (arms.flatMap Chain.Arm.chains) →
      armsOf limit (Chain.moveArms f arms) = carry f (moveArms f) (armsOf limit arms)
  | [], _ => by rw [Chain.moveArms, armsOf, carry_ok, moveArms]
  | .mk k condition clause :: rest, h => by
    obtain ⟨⟨hcne, hcondition⟩, h⟩ := List.forall_mem_cons.mp h
    obtain ⟨⟨hane, hclause⟩, hrest⟩ := List.forall_mem_cons.mp h
    rw [Chain.moveArms, armsOf, armsOf, slotsOf_move hf limit hcondition, assemble_move hf limit hcne,
      slotsOf_move hf limit hclause, assemble_move hf limit hane, armsOf_move hf limit hrest]
    exact carry_bind fun _ => carry_bind fun _ => carry_bind fun _ => by rw [carry_pure, moveArms]
end

/-- **A chain that is moved has the expression of the chain, moved**, if no chain in it is empty. -/
theorem ofChain_move (hf : StrictMono f) (config : ParseConfig) {chain : Chain} (hne : chain ≠ [])
    (h : Chain.Inside (· ≠ []) chain) :
    ofChain config (Chain.move f chain) = carry f (move f) (ofChain config chain) := by
  rw [ofChain, ofChain, slotsOf_move hf _ h, assemble_move hf _ hne]

end Expr

end DewyFront
