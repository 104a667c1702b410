/-
# DewyFront.Proofs.Alternating — a pass over operands with an operator between any two

Where every operator stands between two operands, what a pass does is told operand by operand: an
operator joins the operands beside it when both are drawn to it, and is kept otherwise. The outcome is a
run of operands and operators again.

* §1 what an operand is drawn to;
* §2 what an operator makes of two operands;
* §3 the outcome of a pass;
* §4 the pass.
-/
import DewyFront.Proofs.Narrowing
import DewyFront.Proofs.Runs

namespace DewyFront

namespace Reduction

open Reading

variable {left right : Option Operator} {o : Operator} {a b e g : Expr} {s : Site} {p q : Pull}
  {links links' : List (Operator × Expr)}

/-! ## §1 Operands -/

theorem reachFrom_low_le (left : Option Operator) : (reachFrom left).low ≤ (reachFrom left).high := by
  cases left with
  | none => exact Nat.le_refl _
  | some o => exact Op.rightPower_low_le o.op

theorem reachTo_low_le (right : Option Operator) : (reachTo right).low ≤ (reachTo right).high := by
  cases right with
  | none => exact Nat.le_refl _
  | some o => exact Op.leftPower_low_le o.op

/-- Between contested juxtapositions an operand is not bound harder on its right. -/
theorem not_contested_of_drawnRight (h : DrawnRight left right) :
    (isContested left && isContested right) = false := by
  have hlt : (reachFrom left).high < (reachTo right).low := h
  rw [Bool.eq_false_iff]
  intro hboth
  rw [Bool.and_eq_true] at hboth
  obtain ⟨hl, hr⟩ := hboth
  cases left with
  | none => cases hl
  | some l =>
    cases right with
    | none => cases hr
    | some r =>
      simp only [reachFrom, reachTo, Option.elim,
        (Op.powers_of_holdsContested (Op.holdsContested_of_isContested hl)).2,
        (Op.powers_of_holdsContested (Op.holdsContested_of_isContested hr)).1] at hlt
      omega

/-- An operand that is bound harder on its right is drawn there. -/
theorem pullOf_of_drawnRight (he : e.isSemicolon = false) (h : DrawnRight left right) :
    pullOf left right e = .ok (some .right) := by
  have hlt : (reachFrom left).high < (reachTo right).low := h
  have hto : (reachTo right).isNone = false := Power.isNone_eq_false fun hnone => by
    rw [hnone] at hlt
    exact Nat.not_lt_zero _ hlt
  have hcompare : (reachFrom left).compare (reachTo right) = some .lt := by
    have hfrom : (reachFrom left).low ≤ (reachFrom left).high := reachFrom_low_le left
    have hto : (reachTo right).low ≤ (reachTo right).high := reachTo_low_le right
    rw [Power.compare, if_neg (by omega), if_pos hlt]
  rw [pullOf_eq, he, not_contested_of_drawnRight h, hto, hcompare]
  simp

/-- An operand that is bound harder on its left, or stands between contested juxtapositions, is drawn to
the left. -/
theorem pullOf_of_drawnLeft (he : e.isSemicolon = false) (h : DrawnLeft left right) :
    pullOf left right e = .ok (some .left) := by
  rw [pullOf_eq, he]
  rcases h with ⟨hl, hr⟩ | hlt
  · simp [hl, hr]
  · have hfrom : (reachFrom left).isNone = false := Power.isNone_eq_false fun hnone => by
      rw [hnone] at hlt
      exact Nat.not_lt_zero _ hlt
    have hcompare : (reachFrom left).compare (reachTo right) = some .gt := if_pos hlt
    rw [hfrom, hcompare]
    simp

/-! ## §2 Operators -/

/-- **`Admits`** — an operator in a single row makes a node of two operands: it may stand in itself, or
neither of them is made with it. -/
def Admits (o : Operator) (a b : Expr) : Prop :=
  ∃ row, o.op.levels = [⟨row, .left⟩] ∨
    o.op.levels = [⟨row, .alone⟩] ∧ checkNesting o a = .ok () ∧ checkNesting o b = .ok ()

/-- A level between two operands has no form unless both are drawn to it. -/
theorem formsAt_of_both?_eq_none {l : Level} (hl : l.isBinary = true) (h : s.both? = none) :
    formsAt s l = .ok [] := by
  obtain ⟨row, assoc⟩ := l
  cases assoc with
  | left | right => simp only [formsAt, binaryForm, h]
  | alone => simp only [formsAt, aloneForm, h]
  | flat => simp only [formsAt, flatForm, h]
  | before | after => cases hl

/-- An operator that only stands between operands makes nothing unless both are drawn to it. -/
theorem at?_of_both?_eq_none (hbinary : ∀ l ∈ s.operator.op.levels, l.isBinary = true)
    (h : s.both? = none) : at? s = .ok none := by
  have hforms : ∀ levels : List Level, (∀ l ∈ levels, l.isBinary = true) →
      formsOf s levels = .ok [] := by
    intro levels hlevels
    induction levels with
    | nil => rfl
    | cons l levels ih =>
      obtain ⟨hl, hrest⟩ := List.forall_mem_cons.mp hlevels
      rw [formsOf, formsAt_of_both?_eq_none hl h, ih hrest]
      rfl
  rw [at?, hforms _ hbinary]
  rfl

/-- An operator between two operands that are drawn to it joins them. -/
theorem at?_of_admits (h : Admits s.operator a b) (hboth : s.both? = some (a, b)) :
    ∃ power, at? s =
      .ok (some ⟨binaryNode s.operator a b, s.place - 1, s.place + 2, .binary, power⟩) := by
  obtain ⟨row, hlevels | ⟨hlevels, ha, hb⟩⟩ := h
  · rw [at?_of_levels_one hlevels, formsAt, binaryForm, hboth]
    exact ⟨_, rfl⟩
  · rw [at?_of_levels_one hlevels, formsAt, aloneForm, binaryForm, hboth]
    dsimp only
    rw [ha, hb]
    exact ⟨_, rfl⟩

/-! ## §3 Outcomes -/

/-- **`Condenses left pulls a links b links'`** — behind `left`, a pass makes of `a` and the operators and
operands after it a run of `b` and `links'`, while the slots are drawn to `pulls`. -/
inductive Condenses : Option Operator → List Pull → Expr → List (Operator × Expr) → Expr →
    List (Operator × Expr) → Prop
  | last {left : Option Operator} {p : Pull} {a : Expr} (hpull : pullOf left none a = .ok (some p)) :
      Condenses left [p] a [] a []
  | keep {left : Option Operator} {p q : Pull} {pulls : List Pull} {a g g' : Expr} {o : Operator}
      {links links' : List (Operator × Expr)} (hpull : pullOf left (some o) a = .ok (some p))
      (hbinary : ∀ l ∈ o.op.levels, l.isBinary = true) (hapart : p = .left ∨ q = .right)
      (h : Condenses (some o) (q :: pulls) g links g' links') :
      Condenses left (p :: .stay :: q :: pulls) a ((o, g) :: links) a ((o, g') :: links')
  | join {left : Option Operator} {pulls : List Pull} {a g : Expr} {o : Operator}
      {links links' : List (Operator × Expr)} (hpull : pullOf left (some o) a = .ok (some .right))
      (hadmits : Admits o a g) (h : Condenses (some o) (.left :: pulls) g links g links') :
      Condenses left (.right :: .stay :: .left :: pulls) a ((o, g) :: links) (binaryNode o a g) links'

theorem runSlots_cons (a : Expr) (o : Operator) (g : Expr) (links : List (Operator × Expr)) :
    runSlots a ((o, g) :: links) = .node a :: .operator o :: runSlots g links := rfl

/-! ## §4 Passes -/

/-- The first operand of a run is surveyed by the operators beside it, the others behind its operator. -/
theorem surveyFrom_runSlots {previous : Option Slot} (hprevious : previous.bind Slot.operator? = left)
    (hpull : pullOf left (some o) a = .ok (some p)) (place : Nat) :
    surveyFrom previous place (runSlots a ((o, g) :: links)) =
      (surveyFrom (some (.operator o)) (place + 2) (runSlots g links)).map fun survey =>
        (survey.cons .stay).cons p := by
  rw [runSlots_cons, surveyFrom, List.head?_cons, Option.bind_some, hprevious]
  simp only [Slot.operator?, hpull, bind, Except.bind]
  rw [surveyFrom]
  cases surveyFrom (some (.operator o)) (place + 1 + 1) (runSlots g links) <;> rfl

theorem splice_append {r : Reduction} {front : List Slot} (seg back : List Slot)
    (hstart : r.start = front.length) (hstop : r.stop = front.length + seg.length) :
    splice r (front ++ seg ++ back) = front ++ .node r.node :: back := by
  rw [splice, hstart, hstop, ← List.length_append, List.drop_left, List.append_assoc, List.take_left]

namespace Condenses

variable {pulls : List Pull}

/-- What the slots of a run are drawn to. -/
theorem surveyFrom_eq (h : Condenses left pulls a links b links') {previous : Option Slot} (place : Nat)
    (hprevious : previous.bind Slot.operator? = left) :
    surveyFrom previous place (runSlots a links) = .ok (.decided pulls) := by
  induction h generalizing previous place with
  | last hpull =>
    subst hprevious
    simp [runSlots, surveyFrom, hpull, bind, Except.bind, pure, Except.pure, Survey.cons]
  | keep hpull _ _ _ ih =>
    rw [surveyFrom_runSlots hprevious hpull, ih (place + 2) rfl]
    rfl
  | join hpull _ _ ih =>
    rw [surveyFrom_runSlots hprevious hpull, ih (place + 2) rfl]
    rfl

/-- The reductions of a run, and what they leave of it behind any front. -/
theorem exists_allFrom (h : Condenses left pulls a links b links') (before : List Drawn) :
    ∃ rs, allFrom before before.length (drawnOf (runSlots a links) pulls) = .ok rs ∧
      ∀ front : List Slot, front.length = before.length →
        rs.foldr splice (front ++ runSlots a links) = front ++ runSlots b links' := by
  induction h generalizing before with
  | last hpull => exact ⟨[], rfl, fun front _ => rfl⟩
  | @keep left p q pulls a g g' o links links' hpull hbinary hapart _ ih =>
    obtain ⟨rs, hrs, hsplice⟩ := ih (⟨.operator o, .stay⟩ :: ⟨.node a, p⟩ :: before)
    refine ⟨rs, ?_, fun front hfront => ?_⟩
    · have hnone : at? ⟨⟨.node a, p⟩ :: before, o, before.length + 1,
          drawnOf (runSlots g links) (q :: pulls)⟩ = .ok none := by
        refine at?_of_both?_eq_none hbinary ?_
        rcases hapart with rfl | rfl
        · rfl
        · cases p <;> rfl
      exact bind_ok_iff.mpr ⟨none, hnone, bind_ok_iff.mpr ⟨rs, hrs, rfl⟩⟩
    · have hrest := hsplice (front ++ [.node a, .operator o]) (by simp [hfront])
      simpa [runSlots_cons] using hrest
  | @join left pulls a g o links links' hpull hadmits _ ih =>
    obtain ⟨rs, hrs, hsplice⟩ := ih (⟨.operator o, .stay⟩ :: ⟨.node a, .right⟩ :: before)
    obtain ⟨power, hsome⟩ := at?_of_admits (s := ⟨⟨.node a, .right⟩ :: before, o, before.length + 1,
      drawnOf (runSlots g links) (.left :: pulls)⟩) hadmits rfl
    refine ⟨_, bind_ok_iff.mpr ⟨_, hsome, bind_ok_iff.mpr ⟨rs, hrs, rfl⟩⟩, fun front hfront => ?_⟩
    have hrest := hsplice (front ++ [.node a, .operator o]) (by simp [hfront])
    have hjoined := splice_append (r := ⟨binaryNode o a g, before.length, before.length + 3, .binary, power⟩)
      [.node a, .operator o, .node g] (links'.flatMap fun q => [.operator q.1, .node q.2]) hfront.symm
      (by rw [hfront]; rfl)
    rw [Option.toList_some, List.singleton_append, List.foldr_cons, runSlots_cons]
    simp only [runSlots, List.append_assoc, List.cons_append, List.nil_append] at hrest hjoined ⊢
    rw [hrest]
    exact hjoined

/-- **A pass makes of a run what the run condenses to.** -/
theorem pass (h : Condenses none pulls a links b links') :
    survey (runSlots a links) = .ok (.decided pulls) ∧
      Reduction.pass (runSlots a links) pulls = .ok (runSlots b links') := by
  obtain ⟨rs, hrs, hsplice⟩ := h.exists_allFrom []
  exact ⟨h.surveyFrom_eq 0 rfl, bind_ok_iff.mpr ⟨rs, hrs, congrArg Except.ok (hsplice [] rfl)⟩⟩

theorem shortens (h : Condenses none pulls a links b links') (hlt : links'.length < links.length) :
    Shortens (runSlots a links) (runSlots b links') := by
  obtain ⟨hsurvey, hpass⟩ := h.pass
  refine ⟨pulls, hsurvey, hpass, ?_⟩
  rw [length_runSlots, length_runSlots]
  omega

end Condenses

end Reduction

end DewyFront
