/-
# DewyFront.Proofs.Pulls — what a survey says of the slots

A survey that decides draws every operand to the side whose operator binds it harder, and what it
says of an operand depends on the two operators beside it only. A survey that does not decide ends at
a contested juxtaposition.

* §1 the operators beside a place;
* §2 what an operand is drawn to;
* §3 surveys that decide;
* §4 surveys that do not.
-/
import DewyFront.Expr.Reduction
import DewyFront.Proofs.Levels
import DewyFront.Proofs.Outcomes
import Mathlib.Tactic.ByContra

namespace DewyFront

namespace Reduction

/-! ## §1 Neighbours -/

/-- The operator that a list of slots ends with. -/
def lastOperator (slots : List Slot) : Option Operator := slots.getLast?.bind Slot.operator?

/-- The operator that a list of slots begins with. -/
def headOperator (slots : List Slot) : Option Operator := slots.head?.bind Slot.operator?

@[simp] theorem lastOperator_concat (slots : List Slot) (s : Slot) :
    lastOperator (slots ++ [s]) = s.operator? := by
  simp [lastOperator]

@[simp] theorem headOperator_cons (s : Slot) (slots : List Slot) :
    headOperator (s :: slots) = s.operator? := rfl

/-- How hard an operand is bound by the operator on its left, if there is one. -/
def reachFrom (left : Option Operator) : Power := left.elim .none (·.op.rightPower)

/-- How hard an operand is bound by the operator on its right, if there is one. -/
def reachTo (right : Option Operator) : Power := right.elim .none (·.op.leftPower)

/-! ## §2 Operands -/

variable {left right : Option Operator} {e : Expr}

theorem pullOf_eq (left right : Option Operator) (e : Expr) :
    pullOf left right e =
      if e.isSemicolon && !left.any (·.op == .bond .semicolon) then .ok (some .stay)
      else if isContested left && isContested right then .ok (some .left)
      else if (reachFrom left).isNone && (reachTo right).isNone then .ok (some .stay)
      else match (reachFrom left).compare (reachTo right) with
        | some .gt => .ok (some .left)
        | some .lt => .ok (some .right)
        | some .eq => fault .equalPowers
        | none => .ok none := rfl

/-- **An operand that is drawn to the right is bound harder there.** -/
theorem pullOf_right (h : pullOf left right e = .ok (some .right)) :
    (reachFrom left).high < (reachTo right).low := by
  rw [pullOf_eq] at h
  split at h
  · cases h
  · split at h
    · cases h
    · split at h
      · cases h
      · split at h <;> first | exact Power.compare_eq_lt (by assumption) | cases h

/-- **An operand that is drawn to the left is bound harder there**, or it stands between two
contested juxtapositions. -/
theorem pullOf_left (h : pullOf left right e = .ok (some .left)) :
    (isContested left = true ∧ isContested right = true) ∨
      (reachTo right).high < (reachFrom left).low := by
  rw [pullOf_eq] at h
  split at h
  · cases h
  · split at h
    · exact .inl (by simpa using ‹(isContested left && isContested right) = true›)
    · split at h
      · cases h
      · split at h <;> first | exact .inr (Power.compare_eq_gt (by assumption)) | cases h

/-- **An operand that is not drawn** is a stray semicolon, or nothing binds it. -/
theorem pullOf_stay (h : pullOf left right e = .ok (some .stay)) :
    (e.isSemicolon = true ∧ left.any (·.op == .bond .semicolon) = false) ∨
      ((reachFrom left).isNone = true ∧ (reachTo right).isNone = true) := by
  rw [pullOf_eq] at h
  split at h
  · rename_i hs
    exact .inl (by simpa using hs)
  · split at h
    · cases h
    · split at h
      · rename_i hn
        exact .inr (by simpa using hn)
      · split at h <;> cases h

theorem reach_compare_ne_eq (h : ¬ ((reachFrom left).isNone && (reachTo right).isNone) = true) :
    (reachFrom left).compare (reachTo right) ≠ some .eq := by
  intro heq
  have hsame := (Power.compare_eq_eq heq).2
  have hto : reachTo right ≠ .none := by
    intro hn
    exact h (by simp [hsame, hn, Power.isNone])
  cases left with
  | none => exact hto hsame.symm
  | some p =>
    cases right with
    | none => exact hto rfl
    | some q => exact Op.compare_ne_eq hto heq

/-- **What an operand is drawn to is never found by comparing equal powers.** -/
theorem pullOf_faultless (left right : Option Operator) (e : Expr) :
    Faultless (pullOf left right e) := by
  rw [pullOf_eq]
  split
  · exact Faultless.ok _
  · split
    · exact Faultless.ok _
    · split
      · exact Faultless.ok _
      · split
        · exact Faultless.ok _
        · exact Faultless.ok _
        · exact absurd (by assumption) (reach_compare_ne_eq (by assumption))
        · exact Faultless.ok _

/-- Powers that do not bind are comparable with all others. -/
theorem reach_compare_ne_none (hl : ∀ o, left = some o → o.op.holdsContested = false)
    (hr : ∀ o, right = some o → o.op.holdsContested = false) :
    (reachFrom left).compare (reachTo right) ≠ none := by
  intro h
  cases left with
  | none =>
    obtain ⟨-, hlow, hne⟩ := Power.compare_eq_none h
    cases right with
    | none => exact hne ⟨rfl, rfl⟩
    | some q =>
      rcases Op.leftPower_eq (hr q rfl) with hn | ⟨m, -, hv⟩
      · exact hne ⟨rfl, hn.symm⟩
      · simp only [reachFrom, reachTo, Option.elim, hv, Power.none] at hlow hne
        have hz : m.powers.1 = 0 := Nat.eq_zero_of_le_zero hlow
        exact hne ⟨trivial, by rw [hz]⟩
  | some p =>
    cases right with
    | none =>
      obtain ⟨hlow, -, hne⟩ := Power.compare_eq_none h
      have hpn := Op.rightPower_eq_none (hl p rfl) (Nat.eq_zero_of_le_zero hlow)
      exact hne ⟨by simp only [reachFrom, Option.elim, hpn]; rfl,
        by simp only [reachFrom, reachTo, Option.elim, hpn]⟩
    | some q => exact Op.compare_ne_none (hl p rfl) (hr q rfl) h

/-- **An operand that cannot be decided** stands beside an operator that holds a contested
juxtaposition. -/
theorem holdsContested_of_pullOf_none (h : pullOf left right e = .ok none) :
    (∃ o, left = some o ∧ o.op.holdsContested = true) ∨
      ∃ o, right = some o ∧ o.op.holdsContested = true := by
  by_contra hc
  rw [not_or] at hc
  have hl : ∀ o, left = some o → o.op.holdsContested = false := fun o ho =>
    Bool.eq_false_iff.mpr fun ht => hc.1 ⟨o, ho, ht⟩
  have hr : ∀ o, right = some o → o.op.holdsContested = false := fun o ho =>
    Bool.eq_false_iff.mpr fun ht => hc.2 ⟨o, ho, ht⟩
  rw [pullOf_eq] at h
  split at h
  · cases h
  · split at h
    · cases h
    · split at h
      · cases h
      · split at h
        · cases h
        · cases h
        · cases h
        · exact reach_compare_ne_none hl hr (by assumption)

/-! ## §3 Decided surveys -/

/-- **`Surveyed`** — every operand is drawn as the operators beside it say. -/
def Surveyed (drawn : List Drawn) : Prop :=
  ∀ front e pull back, drawn = front ++ ⟨.node e, pull⟩ :: back →
    pullOf (lastOperator (front.map (·.slot))) (headOperator (back.map (·.slot))) e =
      .ok (some pull)

/-- The slots of a list with what each is drawn to. -/
def drawnOf (slots : List Slot) (pulls : List Pull) : List Drawn := slots.zipWith Drawn.mk pulls

theorem map_slot_drawnOf {slots : List Slot} {pulls : List Pull}
    (h : pulls.length = slots.length) : (drawnOf slots pulls).map (·.slot) = slots := by
  induction slots generalizing pulls with
  | nil => simp [drawnOf]
  | cons s slots ih =>
    cases pulls with
    | nil => simp at h
    | cons pull pulls =>
      simp only [List.length_cons, Nat.add_right_cancel_iff] at h
      simp only [drawnOf, List.zipWith_cons_cons, List.map_cons, List.cons.injEq, true_and]
      exact ih h

theorem Survey.cons_eq_decided {pull : Pull} {sv : Survey} {pulls : List Pull}
    (h : sv.cons pull = .decided pulls) : ∃ rest, sv = .decided rest ∧ pulls = pull :: rest := by
  cases sv with
  | decided rest =>
    cases h
    exact ⟨rest, rfl, rfl⟩
  | contested place => cases h

theorem Survey.cons_eq_contested {pull : Pull} {sv : Survey} {place : Nat}
    (h : sv.cons pull = .contested place) : sv = .contested place := by
  cases sv with
  | decided rest => cases h
  | contested place => exact h

/-- The slots behind `front` are surveyed with the last slot of `front` in view. -/
theorem surveyFrom_decided (front : List Slot) {place : Nat} {rest : List Slot}
    {pulls : List Pull} (h : surveyFrom front.getLast? place rest = .ok (.decided pulls)) :
    pulls.length = rest.length ∧
    ∀ middle e pull back, drawnOf rest pulls = middle ++ ⟨.node e, pull⟩ :: back →
      pullOf (lastOperator (front ++ middle.map (·.slot))) (headOperator (back.map (·.slot))) e =
        .ok (some pull) := by
  induction rest generalizing front place pulls with
  | nil =>
    cases h
    refine ⟨rfl, ?_⟩
    intro middle e pull back hd
    simp [drawnOf] at hd
  | cons s rest ih =>
    have hlast : (front ++ [s]).getLast? = some s := by simp
    cases s with
    | operator o =>
      rw [surveyFrom, bind_ok_iff] at h
      obtain ⟨sv, hsv, h⟩ := h
      obtain ⟨ps, rfl, rfl⟩ := Survey.cons_eq_decided (Except.ok.inj h)
      rw [← hlast] at hsv
      obtain ⟨hlen, ih⟩ := ih _ hsv
      refine ⟨by simp [hlen], ?_⟩
      intro middle e pull back hd
      cases middle with
      | nil => simp [drawnOf] at hd
      | cons d middle =>
        simp only [drawnOf, List.zipWith_cons_cons, List.cons_append, List.cons.injEq] at hd
        obtain ⟨rfl, hd⟩ := hd
        simpa using ih middle e pull back hd
    | node n =>
      rw [surveyFrom, bind_ok_iff] at h
      obtain ⟨found, hfound, h⟩ := h
      cases found with
      | none =>
        rw [bind_ok_iff] at h
        obtain ⟨_, -, h⟩ := h
        cases h
      | some p =>
        rw [bind_ok_iff] at h
        obtain ⟨sv, hsv, h⟩ := h
        obtain ⟨ps, rfl, rfl⟩ := Survey.cons_eq_decided (Except.ok.inj h)
        rw [← hlast] at hsv
        obtain ⟨hlen, ih⟩ := ih _ hsv
        refine ⟨by simp [hlen], ?_⟩
        intro middle e pull back hd
        -- The first operand is drawn by what stands around it; any later one is an operand of the rest.
        cases middle with
        | nil =>
          simp only [drawnOf, List.zipWith_cons_cons, List.nil_append, List.cons.injEq,
            Drawn.mk.injEq, Slot.node.injEq] at hd
          obtain ⟨⟨rfl, rfl⟩, rfl⟩ := hd
          have hback : (drawnOf rest ps).map (·.slot) = rest := map_slot_drawnOf hlen
          simp only [drawnOf] at hback
          simpa [lastOperator, headOperator, hback] using hfound
        | cons d middle =>
          simp only [drawnOf, List.zipWith_cons_cons, List.cons_append, List.cons.injEq] at hd
          obtain ⟨rfl, hd⟩ := hd
          simpa using ih middle e pull back hd

/-- **A decided survey draws every operand as the operators beside it say.** -/
theorem survey_decided {slots : List Slot} {pulls : List Pull}
    (h : survey slots = .ok (.decided pulls)) :
    pulls.length = slots.length ∧ Surveyed (drawnOf slots pulls) := by
  obtain ⟨hlen, hd⟩ := surveyFrom_decided [] h
  exact ⟨hlen, fun front e pull back heq => by simpa using hd front e pull back heq⟩

/-! ## §4 Contested surveys -/

theorem exists_contested {neighbour : Option Slot}
    (h : isContested (neighbour.bind Slot.operator?) = true) :
    ∃ o, neighbour = some (.operator o) ∧ o.op.isContested = true := by
  cases neighbour with
  | none => cases h
  | some s =>
    cases s with
    | node e => cases h
    | operator o => exact ⟨o, rfl, by simpa [isContested, Slot.operator?] using h⟩

/-- A contested survey ends at a contested juxtaposition. -/
theorem surveyFrom_contested (front : List Slot) {rest : List Slot} {place : Nat}
    (h : surveyFrom front.getLast? front.length rest = .ok (.contested place)) :
    ∃ o, (front ++ rest)[place]? = some (.operator o) ∧ o.op.isContested = true := by
  induction rest generalizing front with
  | nil => cases h
  | cons s rest ih =>
    have hlast : (front ++ [s]).getLast? = some s := by simp
    have hlength : (front ++ [s]).length = front.length + 1 := by simp
    cases s with
    | operator o =>
      rw [surveyFrom, bind_ok_iff] at h
      obtain ⟨sv, hsv, h⟩ := h
      have hsv' := Survey.cons_eq_contested (Except.ok.inj h)
      rw [hsv', ← hlast, ← hlength] at hsv
      simpa using ih _ hsv
    | node n =>
      rw [surveyFrom, bind_ok_iff] at h
      obtain ⟨found, hfound, h⟩ := h
      cases found with
      | some p =>
        rw [bind_ok_iff] at h
        obtain ⟨sv, hsv, h⟩ := h
        have hsv' := Survey.cons_eq_contested (Except.ok.inj h)
        rw [hsv', ← hlast, ← hlength] at hsv
        simpa using ih _ hsv
      | none =>
        rw [bind_ok_iff] at h
        obtain ⟨k, hk, h⟩ := h
        cases h
        unfold contestedAt at hk
        split at hk
        · -- the juxtaposition is the slot in front of the operand
          rename_i hl
          cases hk
          obtain ⟨o, ho, hc⟩ := exists_contested hl
          refine ⟨o, ?_, hc⟩
          have hne : front ≠ [] := by
            rintro rfl
            simp at ho
          have hpos := List.length_pos_iff.mpr hne
          rw [List.getElem?_append_left (by omega), ← List.getLast?_eq_getElem?, ho]
        · split at hk
          · -- the juxtaposition is the slot behind the operand
            rename_i hr
            cases hk
            obtain ⟨o, ho, hc⟩ := exists_contested hr
            refine ⟨o, ?_, hc⟩
            cases rest with
            | nil => cases ho
            | cons s rest =>
              cases ho
              simp
          · cases hk

theorem survey_contested {slots : List Slot} {place : Nat}
    (h : survey slots = .ok (.contested place)) :
    ∃ o, slots[place]? = some (.operator o) ∧ o.op.isContested = true :=
  surveyFrom_contested [] h

/-- An operand that cannot be decided stands beside a contested juxtaposition. -/
theorem contestedAt_faultless {place : Nat}
    (hl : ∀ o, left = some o → o.op.IsBare) (hr : ∀ o, right = some o → o.op.IsBare)
    (h : pullOf left right e = .ok none) : Faultless (contestedAt place left right) := by
  unfold contestedAt
  rcases holdsContested_of_pullOf_none h with ⟨o, rfl, ho⟩ | ⟨o, rfl, ho⟩
  · rw [if_pos (by simpa [isContested] using hl o rfl ho)]
    exact Faultless.ok _
  · split
    · exact Faultless.ok _
    · rw [if_pos (by simpa [isContested] using hr o rfl ho)]
      exact Faultless.ok _

theorem surveyFrom_faultless {previous : Option Slot} {place : Nat} {rest : List Slot}
    (hp : ∀ o, previous = some (.operator o) → o.op.IsBare)
    (h : ∀ o, .operator o ∈ rest → o.op.IsBare) : Faultless (surveyFrom previous place rest) := by
  induction rest generalizing previous place with
  | nil => exact Faultless.ok _
  | cons s rest ih =>
    have hrest : ∀ o, .operator o ∈ rest → o.op.IsBare := fun o ho => h o (List.mem_cons_of_mem _ ho)
    cases s with
    | operator o =>
      have ho : o.op.IsBare := h o (by simp)
      rw [surveyFrom]
      refine Faultless.bind (ih ?_ hrest) fun _ _ => Faultless.ok _
      intro p hpo
      cases hpo
      exact ho
    | node n =>
      rw [surveyFrom]
      refine Faultless.bind (pullOf_faultless _ _ _) fun found hfound => ?_
      cases found with
      | some pull =>
        refine Faultless.bind (ih ?_ hrest) fun _ _ => Faultless.ok _
        intro p hpo
        cases hpo
      | none =>
        refine Faultless.bind (contestedAt_faultless ?_ ?_ hfound) fun _ _ => Faultless.ok _
        · intro o ho
          cases previous with
          | none => cases ho
          | some s =>
            cases s with
            | node e => cases ho
            | operator p =>
              cases ho
              exact hp _ rfl
        · intro o ho
          cases rest with
          | nil => cases ho
          | cons s rest =>
            cases s with
            | node e => cases ho
            | operator p =>
              cases ho
              exact hrest _ (by simp)

/-- **A survey finds no two operators that cannot be told apart**, where juxtapositions are bare. -/
theorem survey_faultless {slots : List Slot} (h : ∀ o, .operator o ∈ slots → o.op.IsBare) :
    Faultless (survey slots) := surveyFrom_faultless (fun _ ho => by cases ho) h

end Reduction

end DewyFront
