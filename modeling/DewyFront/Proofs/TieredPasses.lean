/-
# DewyFront.Proofs.TieredPasses — a pass over juxtapositions on one tier

The form that an operator takes depends on how the operators around it stand, and on what it is compared
with: runs and nesting are about operators that are no juxtapositions. A juxtaposition with meanings on
both tiers has one form, between its operands, as it has on one tier. So a pass over a list makes what
the pass over the list on one tier makes.

* §1 the surroundings of an operator;
* §2 forms;
* §3 the choice among forms;
* §4 passes.
-/
import DewyFront.Proofs.Tiers

namespace DewyFront

namespace Reduction

variable {tier : Tier} {o : Operator} {s : Site}

/-! ## §1 Surroundings -/

/-- A slot with its juxtapositions on one tier, drawn to the same side. -/
def Drawn.narrow (tier : Tier) (d : Drawn) : Drawn := ⟨d.slot.narrow tier, d.pull⟩

theorem Drawn.narrow_eq_map (tier : Tier) :
    Drawn.narrow tier = Drawn.map (Expr.narrow tier) (Operator.narrow tier) := by
  funext d
  obtain ⟨_ | _, pull⟩ := d <;> rfl

/-- An operator among slots with their juxtapositions on one tier. -/
def Site.narrow (tier : Tier) (s : Site) : Site :=
  ⟨s.before.map (Drawn.narrow tier), s.operator.narrow tier, s.place, s.after.map (Drawn.narrow tier)⟩

/-- Every juxtaposition in front of a place has meanings on both tiers, and all other operators are
looser than both. -/
def YieldingDrawn (drawn : List Drawn) : Prop := ∀ d ∈ drawn, ∀ o, d.slot = .operator o → o.op.Yields

theorem left?_narrow (tier : Tier) (s : Site) :
    (s.narrow tier).left? = s.left?.map (Expr.narrow tier) := by
  obtain ⟨before, o, place, after⟩ := s
  cases before with
  | nil => rfl
  | cons d rest =>
    obtain ⟨slot, pull⟩ := d
    cases slot <;> cases pull <;> rfl

theorem right?_narrow (tier : Tier) (s : Site) :
    (s.narrow tier).right? = s.right?.map (Expr.narrow tier) := by
  obtain ⟨before, o, place, after⟩ := s
  cases after with
  | nil => rfl
  | cons d rest =>
    obtain ⟨slot, pull⟩ := d
    cases slot <;> cases pull <;> rfl

theorem both?_narrow (tier : Tier) (s : Site) :
    (s.narrow tier).both? = s.both?.map (Prod.map (Expr.narrow tier) (Expr.narrow tier)) := by
  rw [Site.both?, Site.both?, left?_narrow, right?_narrow]
  cases s.left? with
  | none => rfl
  | some l => cases s.right? <;> rfl

/-- The forms of an operator are its forms on one tier. -/
theorem attaches_narrow (tier : Tier) {before : List Drawn} (h : YieldingDrawn before) :
    attaches (before.map (Drawn.narrow tier)) = attaches before := by
  induction before with
  | nil => rfl
  | cons d rest ih =>
    have hrest := ih fun d hd => h d (List.mem_cons_of_mem _ hd)
    have hyields := h d List.mem_cons_self
    obtain ⟨slot, pull⟩ := d
    cases slot with
    | node e => exact congrArg Bool.not (Expr.isSemicolon_narrow tier e)
    | operator o =>
      obtain ⟨hbinary, hbefore, hafter, -⟩ := Op.forms_of_mem_narrowings ((hyields o rfl).narrow_mem tier)
      rw [List.map_cons, Drawn.narrow, Slot.narrow, attaches, attaches, hrest, Operator.op_narrow, hbinary,
        hbefore, hafter]

end Reduction

/-! ## §2 Forms -/

/-- A reduction to a node with its juxtapositions on one tier. -/
def Reduction.narrow (tier : Tier) (r : Reduction) : Reduction := { r with node := r.node.narrow tier }

namespace Reduction

variable {tier : Tier} {o : Operator} {s : Site}

theorem binaryForm_narrow (tier : Tier) (s : Site) (level : Level) :
    binaryForm (s.narrow tier) level = (binaryForm s level).map (Reduction.narrow tier) := by
  rw [binaryForm, binaryForm, both?_narrow]
  cases s.both? with
  | none => rfl
  | some x => simp [binaryNode, Reduction.narrow, Expr.narrow, Site.narrow]

/-- What may not stand in itself is no juxtaposition. -/
theorem checkNesting_narrow (tier : Tier) (ho : o.op.isJuxtaposition = false) (child : Expr) :
    checkNesting o (child.narrow tier) = checkNesting o child := by
  unfold checkNesting
  rw [Expr.binaryOperator?_narrow]
  cases child.binaryOperator? with
  | none => rfl
  | some inner =>
    dsimp only [Option.map_some]
    by_cases hop : inner.op = o.op
    · have hinner : inner.narrow tier = inner :=
        Operator.narrow_of_op (Op.narrow_of_isJuxtaposition_eq_false (hop ▸ ho))
      rw [hinner]
    · have hne : (inner.narrow tier).op ≠ o.op := mt (Op.narrow_eq_iff ho).mp hop
      rw [if_neg hop, if_neg hne]

theorem aloneForm_narrow (tier : Tier) (ho : s.operator.op.isJuxtaposition = false) (level : Level) :
    aloneForm (s.narrow tier) level = (aloneForm s level).map (List.map (Reduction.narrow tier)) := by
  have hself : (s.narrow tier).operator = s.operator :=
    Operator.narrow_of_op (Op.narrow_of_isJuxtaposition_eq_false ho)
  unfold aloneForm
  rw [both?_narrow]
  cases s.both? with
  | none => rfl
  | some x =>
    obtain ⟨l, r⟩ := x
    dsimp only [Option.map_some, Prod.map]
    rw [hself, checkNesting_narrow tier ho, checkNesting_narrow tier ho, binaryForm_narrow]
    cases checkNesting s.operator l with
    | error failure => rfl
    | ok _ => cases checkNesting s.operator r <;> rfl

theorem beforeForm_narrow (tier : Tier) (ho : s.operator.op.isJuxtaposition = false)
    (hbefore : YieldingDrawn s.before) (level : Level) :
    beforeForm (s.narrow tier) level = (beforeForm s level).map (Reduction.narrow tier) := by
  have hself : s.operator.narrow tier = s.operator :=
    Operator.narrow_of_op (Op.narrow_of_isJuxtaposition_eq_false ho)
  rw [beforeForm, beforeForm, right?_narrow]
  cases s.right? with
  | none => rfl
  | some e =>
    simp only [Option.map_some, Site.narrow, hself, attaches_narrow tier hbefore]
    split
    · rfl
    · simp [Reduction.narrow, Expr.narrow]

theorem afterForm_narrow (tier : Tier) (ho : s.operator.op.isJuxtaposition = false) (level : Level) :
    afterForm (s.narrow tier) level = (afterForm s level).map (Reduction.narrow tier) := by
  have hself : s.operator.narrow tier = s.operator :=
    Operator.narrow_of_op (Op.narrow_of_isJuxtaposition_eq_false ho)
  rw [afterForm, afterForm, left?_narrow]
  cases s.left? with
  | none => rfl
  | some e => simp [Reduction.narrow, Expr.narrow, Site.narrow, hself]

/-- A run is told from its surroundings on one tier, since its operator is no juxtaposition. -/
theorem gatherBefore_narrow (tier : Tier) (ho : o.op.isJuxtaposition = false) (before : List Drawn) :
    gatherBefore o (before.map (Drawn.narrow tier)) =
      (gatherBefore o before).map (Option.map (List.map (Expr.narrow tier))) := by
  rw [Drawn.narrow_eq_map,
    @gatherBefore_map _ _ id _ _ (fun p => Op.narrow_eq_iff ho) rfl before]
  rcases gatherBefore o before with (_ | _) | _ <;> rfl

theorem gatherAfter_narrow (tier : Tier) (ho : o.op.isJuxtaposition = false) (after : List Drawn) :
    gatherAfter o (after.map (Drawn.narrow tier)) =
      (gatherAfter o after).map (Option.map (List.map (Expr.narrow tier))) := by
  rw [Drawn.narrow_eq_map,
    @gatherAfter_map _ _ id _ _ (fun p => Op.narrow_eq_iff ho) rfl after]
  rcases gatherAfter o after with (_ | _) | _ <;> rfl

theorem checkRange_narrow (tier : Tier) (o : Operator) (operands : List Expr) :
    checkRange o (operands.map (Expr.narrow tier)) = checkRange o operands := by
  have hmarks : rangeMarks (operands.map (Expr.narrow tier)) = rangeMarks operands := by
    simp [rangeMarks, List.zipIdx_map, List.filter_map, Function.comp_def]
  rw [checkRange, checkRange, hmarks]

theorem flatForm_narrow (tier : Tier) (ho : s.operator.op.isJuxtaposition = false) :
    flatForm (s.narrow tier) = (flatForm s).map (List.map (Reduction.narrow tier)) := by
  have hself : s.operator.narrow tier = s.operator :=
    Operator.narrow_of_op (Op.narrow_of_isJuxtaposition_eq_false ho)
  unfold flatForm
  rw [both?_narrow]
  cases s.both? with
  | none => rfl
  | some x =>
    obtain ⟨l, r⟩ := x
    simp only [Option.map_some, Prod.map, Site.narrow, ← List.map_tail, hself, gatherBefore_narrow tier ho,
      gatherAfter_narrow tier ho]
    cases gatherBefore s.operator s.before.tail with
    | error failure => rfl
    | ok before =>
      cases before with
      | none => rfl
      | some before =>
        cases gatherAfter s.operator s.after.tail with
        | error failure => rfl
        | ok after =>
          cases after with
          | none => rfl
          | some after =>
            have hoperands : (before.map (Expr.narrow tier)).reverse ++
                l.narrow tier :: r.narrow tier :: after.map (Expr.narrow tier) =
                  (before.reverse ++ l :: r :: after).map (Expr.narrow tier) := by simp
            have hspan := Expr.spanOfAll_narrow tier l (before ++ r :: after)
            rw [List.map_append, List.map_cons] at hspan
            show (checkRange s.operator _ >>= fun _ => _) = (checkRange s.operator _ >>= fun _ => _).map _
            simp only [hoperands, checkRange_narrow, hspan, List.length_map]
            cases checkRange s.operator (before.reverse ++ l :: r :: after) with
            | error failure => rfl
            | ok _ =>
              show Except.ok _ = Except.ok _
              rw [List.map_cons, List.map_nil, Reduction.narrow, Expr.narrow, Expr.narrowAll_eq_map]

/-- **An operator that is no juxtaposition has its forms on one tier.** -/
theorem formsAt_narrow (tier : Tier) (ho : s.operator.op.isJuxtaposition = false)
    (hbefore : YieldingDrawn s.before) (level : Level) :
    formsAt (s.narrow tier) level = (formsAt s level).map (List.map (Reduction.narrow tier)) := by
  unfold formsAt
  cases level.assoc with
  | left | right => exact congrArg Except.ok (binaryForm_narrow tier s level)
  | alone => exact aloneForm_narrow tier ho level
  | flat => exact flatForm_narrow tier ho
  | before => exact congrArg Except.ok (beforeForm_narrow tier ho hbefore level)
  | after => exact congrArg Except.ok (afterForm_narrow tier ho level)

/-! ## §3 The choice -/

/-- **`IsEdit`** — a reduction puts a node on one tier in the place where another puts the node. -/
structure IsEdit (tier : Tier) (r r' : Reduction) : Prop where
  node : r'.node = r.node.narrow tier
  start : r'.start = r.start
  stop : r'.stop = r.stop

theorem isEdit_narrow (tier : Tier) (r : Reduction) : IsEdit tier r (r.narrow tier) := ⟨rfl, rfl, rfl⟩

/-- The reduction on one tier, if there is one, for what is reduced. -/
theorem isEdit_map (tier : Tier) (found : Option Reduction) :
    Option.Rel (IsEdit tier) found (found.map (Reduction.narrow tier)) := by
  cases found with
  | none => exact .none
  | some r => exact .some (isEdit_narrow tier r)

/-- A form between operands is the same at every level, but for its power. -/
theorem isEdit_binaryForm (tier : Tier) (s : Site) (level level' : Level) :
    Option.Rel (IsEdit tier) (binaryForm s level).head? (binaryForm (s.narrow tier) level').head? := by
  rw [binaryForm_narrow]
  unfold binaryForm
  cases s.both? with
  | none => exact .none
  | some x => exact .some ⟨rfl, rfl, rfl⟩

/-- **An operator reduces what it reduces on one tier.** -/
theorem at?_narrow (tier : Tier) (ho : s.operator.op.Yields) (hbefore : YieldingDrawn s.before) :
    Related Eq (Option.Rel (IsEdit tier)) (at? s) (at? (s.narrow tier)) := by
  cases hc : s.operator.op.isContested with
  | true =>
    rw [at?_of_holdsContested (Op.holdsContested_of_isContested hc),
      at?_of_levels_one (Op.levels_narrow tier hc)]
    exact .ok (isEdit_binaryForm tier s _ _)
  | false =>
    have hself : (s.narrow tier).operator.op = s.operator.op := ho.narrow_eq hc
    have hplain := ho.isJuxtaposition_eq_false hc
    have harranged := Op.arranged_levels s.operator.op
    generalize hls : s.operator.op.levels = ls at harranged
    have hls' : (s.narrow tier).operator.op.levels = ls := by rw [hself, hls]
    cases harranged with
    | none =>
      rw [at?_of_levels_nil hls, at?_of_levels_nil hls']
      exact .ok .none
    | one l =>
      rw [at?_of_levels_one hls, at?_of_levels_one hls',
        formsAt_narrow tier hplain hbefore]
      cases formsAt s l with
      | error failure => exact .error rfl
      | ok found =>
        refine .ok ?_
        rw [List.head?_map]
        exact isEdit_map tier found.head?
    | dual row =>
      rw [at?_of_levels_dual hls, at?_of_levels_dual hls', binaryForm_narrow,
        beforeForm_narrow tier hplain hbefore, List.head?_map, List.head?_map]
      cases (binaryForm s ⟨row, .left⟩).head? with
      | none => exact .ok (isEdit_map tier (beforeForm s ⟨row + 1, .before⟩).head?)
      | some r => exact .ok (.some (isEdit_narrow tier r))
    | split =>
      have hholds := ho.holdsContested_eq_false hc
      rw [Op.holdsContested_iff.mpr hls] at hholds
      cases hholds

/-! ## §4 Passes -/

theorem allFrom_narrow (tier : Tier) {before rest : List Drawn} (place : Nat)
    (hbefore : YieldingDrawn before) (hrest : YieldingDrawn rest) :
    Related Eq (List.Forall₂ (IsEdit tier)) (allFrom before place rest)
      (allFrom (before.map (Drawn.narrow tier)) place (rest.map (Drawn.narrow tier))) := by
  induction rest generalizing before place with
  | nil => exact .ok .nil
  | cons d rest ih =>
    obtain ⟨hd, hrest⟩ := List.forall_mem_cons.mp hrest
    have hmore := ih (place + 1) (List.forall_mem_cons.mpr ⟨hd, hbefore⟩) hrest
    obtain ⟨slot, pull⟩ := d
    cases slot with
    | node e => exact hmore
    | operator o =>
      refine Related.bind (at?_narrow tier (hd o rfl) hbefore) fun found found' hfound => ?_
      refine Related.bind hmore fun others others' hothers => .ok ?_
      cases hfound with
      | none => exact hothers
      | some hedit => exact .cons hedit hothers

theorem splice_narrow {r r' : Reduction} (h : IsEdit tier r r') (slots : List Slot) :
    splice r' (slots.map (Slot.narrow tier)) = (splice r slots).map (Slot.narrow tier) := by
  simp [splice, h.node, h.start, h.stop, Slot.narrow, List.map_take, List.map_drop]

theorem yieldingDrawn_zipWith {slots : List Slot} (h : Yielding slots) (pulls : List Pull) :
    YieldingDrawn (slots.zipWith Drawn.mk pulls) := by
  induction slots generalizing pulls with
  | nil => exact List.forall_mem_nil _
  | cons s slots ih =>
    have hrest : Yielding slots := fun o ho => h o (List.mem_cons_of_mem _ ho)
    cases pulls with
    | nil => exact List.forall_mem_nil _
    | cons pull pulls =>
      refine List.forall_mem_cons.mpr ⟨fun o ho => h o ?_, ih hrest pulls⟩
      rw [← ho]
      exact List.mem_cons_self

/-- **A pass over a list on one tier makes what the pass over the list makes**, on that tier. -/
theorem pass_narrow (tier : Tier) {slots : List Slot} (h : Yielding slots) (pulls : List Pull) :
    pass (slots.map (Slot.narrow tier)) pulls = (pass slots pulls).map (List.map (Slot.narrow tier)) := by
  have hdrawn : (slots.map (Slot.narrow tier)).zipWith Drawn.mk pulls =
      (slots.zipWith Drawn.mk pulls).map (Drawn.narrow tier) := by
    rw [List.zipWith_map_left, List.map_zipWith]
    rfl
  have hall := allFrom_narrow tier 0 (List.forall_mem_nil _) (yieldingDrawn_zipWith h pulls)
  rw [List.map_nil, ← hdrawn] at hall
  refine Related.eq_map (Related.bind hall fun rs rs' hrs => .ok ?_)
  -- Reductions are put in from the back, so that the places in front stay what they were.
  induction hrs with
  | nil => rfl
  | cons hedit _ ih => rw [List.foldr_cons, List.foldr_cons, ih, splice_narrow hedit]

end Reduction

end DewyFront
