/-
# DewyFront.Proofs.MovedPasses — a pass does not look at where slots stand

What an operand is drawn to, and the form that an operator takes, depend on operators and on the order
of slots. The span of a new node covers those of its parts. Nodes are compared, but nodes that are
moved are the same only if they were. So a pass over slots that are moved makes what the pass over the
slots makes, moved.

* §1 slots;
* §2 surveys;
* §3 the surroundings of an operator;
* §4 forms;
* §5 passes.
-/
import DewyFront.Proofs.Moves
import DewyFront.Proofs.Sites

namespace DewyFront

variable {f : Nat → Nat}

/-! ## §1 Slots -/

/-- **`Slot.move`** — a slot somewhere else. -/
def Slot.move (f : Nat → Nat) : Slot → Slot
  | node e => node (e.move f)
  | operator o => operator (o.move f)

@[simp] theorem Slot.node?_move (f : Nat → Nat) (s : Slot) :
    (s.move f).node? = s.node?.map (Expr.move f) := by
  cases s <;> rfl

@[simp] theorem Slot.operator?_move (f : Nat → Nat) (s : Slot) :
    (s.move f).operator? = s.operator?.map (Operator.move f) := by
  cases s <;> rfl

theorem Operator.move_injective (hf : StrictMono f) : Function.Injective (Operator.move f) := by
  obtain ⟨g, hg⟩ := hf.injective.hasLeftInverse
  exact Function.LeftInverse.injective (Operator.move_of_leftInverse hg)

theorem Slot.move_injective (hf : StrictMono f) : Function.Injective (Slot.move f) := by
  intro a b h
  cases a with
  | node e =>
    cases b with
    | node e' => exact congrArg node (Expr.move_injective hf (Slot.node.inj h))
    | operator o => cases h
  | operator o =>
    cases b with
    | node e => cases h
    | operator o' => exact congrArg operator (Operator.move_injective hf (Slot.operator.inj h))

namespace Expr

@[simp] theorem isSemicolon_move (f : Nat → Nat) (e : Expr) :
    (e.move f).isSemicolon = e.isSemicolon := by
  rw [isSemicolon, isSemicolon, atom?_move]

@[simp] theorem isRangeMark_move (f : Nat → Nat) (e : Expr) :
    (e.move f).isRangeMark = e.isRangeMark := by
  rw [isRangeMark, isRangeMark, atom?_move]

theorem spanOfAll_move (hf : StrictMono f) (first : Expr) (rest : List Expr) :
    spanOfAll (first.move f) (rest.map (move f)) = (spanOfAll first rest).move f := by
  rw [spanOfAll, spanOfAll, span_move, Span.move_mergeAll hf, List.map_map, List.map_map]
  congr 1
  exact List.map_congr_left fun e _ => span_move f e

end Expr

namespace Reduction

/-! ## §2 Surveys -/

/-- A neighbour somewhere else is contested as before. -/
theorem isContested_move (f : Nat → Nat) (neighbour : Option Operator) :
    isContested (neighbour.map (Operator.move f)) = isContested neighbour := by
  cases neighbour <;> rfl

theorem pullOf_move (f : Nat → Nat) (left right : Option Operator) (e : Expr) :
    pullOf (left.map (Operator.move f)) (right.map (Operator.move f)) (e.move f) =
      carry f id (pullOf left right e) := by
  have hsemicolon : (left.map (Operator.move f)).any (·.op == .bond .semicolon) =
      left.any (·.op == .bond .semicolon) := by
    cases left <;> rfl
  have hleft : (left.map (Operator.move f)).elim .none (·.op.rightPower) =
      left.elim .none (·.op.rightPower) := by
    cases left <;> rfl
  have hright : (right.map (Operator.move f)).elim .none (·.op.leftPower) =
      right.elim .none (·.op.leftPower) := by
    cases right <;> rfl
  unfold pullOf
  rw [Expr.isSemicolon_move, hsemicolon, isContested_move, isContested_move, hleft, hright]
  split
  · rfl
  · split
    · rfl
    · dsimp only
      split
      · rfl
      · split <;> rfl

theorem contestedAt_move (f : Nat → Nat) (place : Nat) (left right : Option Operator) :
    contestedAt place (left.map (Operator.move f)) (right.map (Operator.move f)) =
      carry f id (contestedAt place left right) := by
  unfold contestedAt
  rw [isContested_move, isContested_move]
  split
  · rfl
  · split <;> rfl

theorem surveyFrom_move (f : Nat → Nat) (previous : Option Slot) (place : Nat) (slots : List Slot) :
    surveyFrom (previous.map (Slot.move f)) place (slots.map (Slot.move f)) =
      carry f id (surveyFrom previous place slots) := by
  induction slots generalizing previous place with
  | nil => rfl
  | cons s rest ih =>
    have hrest := ih (some s) (place + 1)
    rw [Option.map_some] at hrest
    cases s with
    | operator o =>
      rw [List.map_cons, Slot.move, surveyFrom, surveyFrom]
      rw [Slot.move] at hrest
      rw [hrest]
      exact carry_bind fun _ => rfl
    | node e =>
      have hprevious : (previous.map (Slot.move f)).bind Slot.operator? =
          (previous.bind Slot.operator?).map (Operator.move f) := by
        cases previous <;> simp
      have hnext : (rest.map (Slot.move f)).head?.bind Slot.operator? =
          (rest.head?.bind Slot.operator?).map (Operator.move f) := by
        cases rest <;> simp
      rw [List.map_cons, Slot.move, surveyFrom, surveyFrom]
      rw [Slot.move] at hrest
      rw [hprevious, hnext, pullOf_move]
      refine carry_bind fun pull => ?_
      cases pull with
      | none =>
        dsimp only [id]
        rw [contestedAt_move]
        exact carry_bind fun _ => rfl
      | some pull =>
        dsimp only [id]
        rw [hrest]
        exact carry_bind fun _ => rfl

/-- **Operands are drawn to the same sides.** -/
theorem survey_move (f : Nat → Nat) (slots : List Slot) :
    survey (slots.map (Slot.move f)) = carry f id (survey slots) :=
  surveyFrom_move f none 0 slots

/-! ## §3 Surroundings -/

/-- A slot somewhere else, drawn to the same side. -/
def Drawn.move (f : Nat → Nat) (d : Drawn) : Drawn := ⟨d.slot.move f, d.pull⟩

theorem Drawn.move_eq_map (f : Nat → Nat) : Drawn.move f = Drawn.map (Expr.move f) (Operator.move f) := by
  funext d
  obtain ⟨_ | _, pull⟩ := d <;> rfl

/-- An operator somewhere else, with its surroundings. -/
def Site.move (f : Nat → Nat) (s : Site) : Site :=
  ⟨s.before.map (Drawn.move f), s.operator.move f, s.place, s.after.map (Drawn.move f)⟩

theorem left?_move (f : Nat → Nat) (s : Site) : (s.move f).left? = s.left?.map (Expr.move f) := by
  obtain ⟨before, o, place, after⟩ := s
  cases before with
  | nil => rfl
  | cons d rest =>
    obtain ⟨slot, pull⟩ := d
    cases slot <;> cases pull <;> rfl

theorem right?_move (f : Nat → Nat) (s : Site) : (s.move f).right? = s.right?.map (Expr.move f) := by
  obtain ⟨before, o, place, after⟩ := s
  cases after with
  | nil => rfl
  | cons d rest =>
    obtain ⟨slot, pull⟩ := d
    cases slot <;> cases pull <;> rfl

theorem both?_move (f : Nat → Nat) (s : Site) :
    (s.move f).both? = s.both?.map (Prod.map (Expr.move f) (Expr.move f)) := by
  rw [Site.both?, Site.both?, left?_move, right?_move]
  cases s.left? with
  | none => rfl
  | some l => cases s.right? <;> rfl

theorem attaches_move (f : Nat → Nat) (before : List Drawn) :
    attaches (before.map (Drawn.move f)) = attaches before := by
  induction before with
  | nil => rfl
  | cons d rest ih =>
    obtain ⟨slot, pull⟩ := d
    cases slot with
    | node e => exact congrArg Bool.not (Expr.isSemicolon_move f e)
    | operator o =>
      rw [List.map_cons, Drawn.move, Slot.move, attaches, attaches, ih]
      rfl

/-! ## §4 Forms -/

end Reduction

/-- A reduction to a node somewhere else. -/
def Reduction.move (f : Nat → Nat) (r : Reduction) : Reduction := { r with node := r.node.move f }

namespace Reduction

theorem binaryForm_move (hf : StrictMono f) (s : Site) (level : Level) :
    binaryForm (s.move f) level = (binaryForm s level).map (Reduction.move f) := by
  rw [binaryForm, binaryForm, both?_move]
  cases s.both? with
  | none => rfl
  | some x => simp [binaryNode, Reduction.move, Expr.move, Span.move_merge hf, Site.move]

theorem checkNesting_move (f : Nat → Nat) (o : Operator) (child : Expr) :
    checkNesting (o.move f) (child.move f) = carry f id (checkNesting o child) := by
  have hinner : (child.move f).binaryOperator? = child.binaryOperator?.map (Operator.move f) := by
    cases child with
    | flow arms otherwise span => cases otherwise <;> simp [Expr.move, Expr.binaryOperator?]
    | keyword k operand span => cases operand <;> simp [Expr.move, Expr.binaryOperator?]
    | _ => simp [Expr.move, Expr.binaryOperator?]
  unfold checkNesting
  rw [hinner]
  cases child.binaryOperator? with
  | none => rfl
  | some inner =>
    dsimp only [Option.map_some]
    by_cases hop : inner.op = o.op
    · have hmoved : (inner.move f).op = (o.move f).op := hop
      rw [if_pos hmoved, if_pos hop]
      rfl
    · have hmoved : (inner.move f).op ≠ (o.move f).op := hop
      rw [if_neg hmoved, if_neg hop]
      rfl

theorem aloneForm_move (hf : StrictMono f) (s : Site) (level : Level) :
    aloneForm (s.move f) level = carry f (List.map (Reduction.move f)) (aloneForm s level) := by
  unfold aloneForm
  rw [both?_move]
  cases s.both? with
  | none => rfl
  | some x =>
    obtain ⟨l, r⟩ := x
    dsimp only [Option.map_some, Prod.map]
    rw [show (s.move f).operator = s.operator.move f from rfl, checkNesting_move, checkNesting_move,
      binaryForm_move hf]
    exact carry_bind fun _ => carry_bind fun _ => rfl

theorem beforeForm_move (hf : StrictMono f) (s : Site) (level : Level) :
    beforeForm (s.move f) level = (beforeForm s level).map (Reduction.move f) := by
  rw [beforeForm, beforeForm, right?_move]
  cases s.right? with
  | none => rfl
  | some e =>
    simp only [Option.map_some, Site.move, Operator.op_move, attaches_move]
    split
    · rfl
    · simp [Reduction.move, Expr.move, Span.move_merge hf]

theorem afterForm_move (hf : StrictMono f) (s : Site) (level : Level) :
    afterForm (s.move f) level = (afterForm s level).map (Reduction.move f) := by
  rw [afterForm, afterForm, left?_move]
  cases s.left? with
  | none => rfl
  | some e => simp [Reduction.move, Expr.move, Span.move_merge hf, Site.move]

/-- A run is told from its surroundings by operators, wherever it stands. -/
theorem gatherBefore_move (f : Nat → Nat) (o : Operator) (before : List Drawn) :
    gatherBefore (o.move f) (before.map (Drawn.move f)) =
      carry f (Option.map (List.map (Expr.move f))) (gatherBefore o before) := by
  rw [Drawn.move_eq_map,
    @gatherBefore_map _ (Operator.move f) (ParseError.move f) o (o.move f) (fun _ => Iff.rfl) rfl before]
  rcases gatherBefore o before with (_ | _) | _ <;> rfl

theorem gatherAfter_move (f : Nat → Nat) (o : Operator) (after : List Drawn) :
    gatherAfter (o.move f) (after.map (Drawn.move f)) =
      carry f (Option.map (List.map (Expr.move f))) (gatherAfter o after) := by
  rw [Drawn.move_eq_map,
    @gatherAfter_map _ (Operator.move f) (ParseError.move f) o (o.move f) (fun _ => Iff.rfl) rfl after]
  rcases gatherAfter o after with (_ | _) | _ <;> rfl

theorem rangeMarks_move (f : Nat → Nat) (operands : List Expr) :
    rangeMarks (operands.map (Expr.move f)) = (rangeMarks operands).map (ParseError.moveMark f) := by
  simp [rangeMarks, List.zipIdx_map, List.filter_map, Function.comp_def, ParseError.moveMark]

theorem checkRange_move (f : Nat → Nat) (o : Operator) (operands : List Expr) :
    checkRange (o.move f) (operands.map (Expr.move f)) = carry f id (checkRange o operands) := by
  unfold checkRange
  rw [rangeMarks_move]
  simp only [List.length_map, Operator.op_move]
  split <;> rfl

theorem flatForm_move (hf : StrictMono f) (s : Site) :
    flatForm (s.move f) = carry f (List.map (Reduction.move f)) (flatForm s) := by
  unfold flatForm
  rw [both?_move]
  cases s.both? with
  | none => rfl
  | some x =>
    obtain ⟨l, r⟩ := x
    simp only [Option.map_some, Prod.map, Site.move, ← List.map_tail, gatherBefore_move]
    refine carry_bind fun before => ?_
    cases before with
    | none => rfl
    | some before =>
      simp only [Option.map_some, gatherAfter_move]
      refine carry_bind fun after => ?_
      cases after with
      | none => rfl
      | some after =>
        have hoperands : (before.map (Expr.move f)).reverse ++
            l.move f :: r.move f :: after.map (Expr.move f) =
              (before.reverse ++ l :: r :: after).map (Expr.move f) := by simp
        have hspan := Expr.spanOfAll_move hf l (before ++ r :: after)
        rw [List.map_append, List.map_cons] at hspan
        simp only [Option.map_some, hoperands, checkRange_move, hspan, List.length_map]
        exact carry_bind fun _ => by
          rw [carry_pure, List.map_cons, List.map_nil, Reduction.move, Expr.move, Expr.moveAll_eq_map]

theorem formsAt_move (hf : StrictMono f) (s : Site) (level : Level) :
    formsAt (s.move f) level = carry f (List.map (Reduction.move f)) (formsAt s level) := by
  unfold formsAt
  cases level.assoc with
  | left | right => exact congrArg Except.ok (binaryForm_move hf s level)
  | alone => exact aloneForm_move hf s level
  | flat => exact flatForm_move hf s
  | before => exact congrArg Except.ok (beforeForm_move hf s level)
  | after => exact congrArg Except.ok (afterForm_move hf s level)

theorem formsOf_move (hf : StrictMono f) (s : Site) (levels : List Level) :
    formsOf (s.move f) levels = carry f (List.map (Reduction.move f)) (formsOf s levels) := by
  induction levels with
  | nil => rfl
  | cons level levels ih =>
    rw [formsOf, formsOf, formsAt_move hf, ih]
    exact carry_bind fun found => carry_bind fun more => by rw [carry_pure, List.map_append]

/-- Nodes are compared, and nodes that are moved are the same only if they were. -/
theorem agrees_move (hf : StrictMono f) (a b : Reduction) :
    agrees (a.move f) (b.move f) = agrees a b := by
  have hnode : (a.node.move f == b.node.move f) = (a.node == b.node) := by
    rw [Bool.eq_iff_iff, beq_iff_eq, beq_iff_eq]
    exact (Expr.move_injective hf).eq_iff
  rw [agrees, agrees, Reduction.move, Reduction.move, hnode]

theorem distinct_move (hf : StrictMono f) (rs : List Reduction) :
    distinct (rs.map (Reduction.move f)) = (distinct rs).map (Reduction.move f) := by
  -- For any list of those that are kept so far, as the fold goes on with it.
  have hfold : ∀ kept : List Reduction,
      (rs.map (Reduction.move f)).foldl
          (fun kept r => if kept.any (agrees · r) then kept else kept ++ [r])
          (kept.map (Reduction.move f)) =
        (rs.foldl (fun kept r => if kept.any (agrees · r) then kept else kept ++ [r]) kept).map
          (Reduction.move f) := by
    induction rs with
    | nil => exact fun _ => rfl
    | cons r rs ih =>
      intro kept
      have hany : (kept.map (Reduction.move f)).any (agrees · (r.move f)) = kept.any (agrees · r) := by
        simp only [List.any_map, Function.comp_def, agrees_move hf]
      rw [List.map_cons, List.foldl_cons, List.foldl_cons, hany, ← ih]
      split
      · rfl
      · rw [List.map_append]
        rfl
  exact hfold []

theorem preferBinary_move (f : Nat → Nat) (rs : List Reduction) :
    preferBinary (rs.map (Reduction.move f)) = (preferBinary rs).map (Reduction.move f) := by
  have hform : ∀ r : Reduction, (r.move f).form = r.form := fun _ => rfl
  simp only [preferBinary, List.any_map, Function.comp_def, hform, List.filter_map]
  split <;> rfl

theorem preferTight_move (f : Nat → Nat) (rs : List Reduction) :
    preferTight (rs.map (Reduction.move f)) = (preferTight rs).map (Reduction.move f) := by
  have hform : ∀ r : Reduction, (r.move f).form = r.form := fun _ => rfl
  have hpower : ∀ r : Reduction, (r.move f).power = r.power := fun _ => rfl
  simp only [preferTight, List.all_map, Function.comp_def, hform, List.foldl_map, hpower, List.filter_map]
  split <;> rfl

theorem choose_move (hf : StrictMono f) (rs : List Reduction) :
    choose (rs.map (Reduction.move f)) = carry f (Option.map (Reduction.move f)) (choose rs) := by
  rw [choose, choose, distinct_move hf, preferBinary_move, preferTight_move]
  rcases preferTight (preferBinary (distinct rs)) with _ | ⟨r, _ | ⟨r', rest⟩⟩ <;> rfl

theorem at?_move (hf : StrictMono f) (s : Site) :
    at? (s.move f) = carry f (Option.map (Reduction.move f)) (at? s) := by
  have hlevels : (s.move f).operator.op = s.operator.op := rfl
  rw [at?, at?, hlevels, formsOf_move hf]
  exact carry_bind fun _ => choose_move hf _

/-! ## §5 Passes -/

theorem allFrom_move (hf : StrictMono f) (before : List Drawn) (place : Nat) (rest : List Drawn) :
    allFrom (before.map (Drawn.move f)) place (rest.map (Drawn.move f)) =
      carry f (List.map (Reduction.move f)) (allFrom before place rest) := by
  induction rest generalizing before place with
  | nil => rfl
  | cons d rest ih =>
    have hrest := ih (d :: before) (place + 1)
    obtain ⟨slot, pull⟩ := d
    cases slot with
    | node e => exact hrest
    | operator o =>
      have hsite := at?_move hf ⟨before, o, place, rest⟩
      rw [Site.move] at hsite
      rw [List.map_cons, Drawn.move, Slot.move] at hrest
      rw [List.map_cons, Drawn.move, Slot.move, allFrom, allFrom, hsite, hrest]
      exact carry_bind fun found => carry_bind fun more => by
        rw [carry_pure, List.map_append]
        cases found <;> rfl

theorem splice_move (f : Nat → Nat) (r : Reduction) (slots : List Slot) :
    splice (r.move f) (slots.map (Slot.move f)) = (splice r slots).map (Slot.move f) := by
  simp [splice, Reduction.move, Slot.move, List.map_take, List.map_drop]

/-- **A pass over slots that are moved makes what the pass makes, moved.** -/
theorem pass_move (hf : StrictMono f) (slots : List Slot) (pulls : List Pull) :
    pass (slots.map (Slot.move f)) pulls = carry f (List.map (Slot.move f)) (pass slots pulls) := by
  have hdrawn : (slots.map (Slot.move f)).zipWith Drawn.mk pulls =
      (slots.zipWith Drawn.mk pulls).map (Drawn.move f) := by
    rw [List.zipWith_map_left, List.map_zipWith]
    rfl
  have hall := allFrom_move hf [] 0 (slots.zipWith Drawn.mk pulls)
  rw [List.map_nil] at hall
  rw [pass, pass, hdrawn, hall]
  refine carry_bind fun reductions => ?_
  rw [carry_pure]
  -- Reductions are put in from the back, so that the places in front stay what they were.
  congr 1
  induction reductions with
  | nil => rfl
  | cons r rs ih => rw [List.map_cons, List.foldr_cons, List.foldr_cons, ih, splice_move]

end Reduction

end DewyFront
