/-
# DewyFront.Proofs.Spacing — what reduction keeps of a list that may be settled

A contested juxtaposition binds harder to its right than any operator binds to its left. So the node
behind it is never taken by another operator, and no two contested juxtapositions come to stand on
both sides of one node if they did not do so from the beginning. With the other invariants of a list
this is what settling it beforehand relies on.

* §1 spaced juxtapositions;
* §2 all that is kept.
-/
import DewyFront.Proofs.Marks
import DewyFront.Proofs.Mirroring

namespace DewyFront

namespace Reduction

/-! ## §1 Spacing -/

variable {front back seg slots slots' : List Slot} {e : Expr} {o : Operator}

theorem Spaced.of_append (h : Spaced (front ++ back)) : Spaced back := by
  induction front with
  | nil => exact h
  | cons s front ih =>
    cases s with
    | node e => exact ih h
    | operator o => exact ih h.2

/-- Nothing binds an operand harder than a contested juxtaposition in front of it. -/
theorem not_drawnRight_of_isContested {left right : Option Operator}
    (h : isContested left = true) : ¬ DrawnRight left right := by
  intro hlt
  cases left with
  | none => cases h
  | some p =>
    have hp : p.op.isContested = true := by simpa [isContested] using h
    cases right with
    | none => exact absurd hlt (Nat.not_lt_zero _)
    | some o =>
      have hlow := Op.leftPower_low_le o.op
      have hhigh := Op.leftPower_high_le o.op
      simp only [DrawnRight, reachFrom, reachTo, Option.elim,
        (Op.powers_of_holdsContested (Op.holdsContested_of_isContested hp)).2] at hlt
      have hlt : 64 < o.op.leftPower.low := hlt
      omega

/-- **What is joined behind a contested juxtaposition begins with an operator.** -/
theorem Joins.eq_operator_of_isContested (h : Joins front back seg e)
    (hc : isContested (lastOperator front) = true) : ∃ o rest, seg = .operator o :: rest := by
  have hnot : ∀ right, ¬ DrawnRight (lastOperator front) right := fun _ =>
    not_drawnRight_of_isContested hc
  cases h with
  | before => exact ⟨_, _, rfl⟩
  | binary _ _ hleft _ | after _ hleft | flat _ _ hleft _ _ _ => exact absurd hleft (hnot _)

/-- **Passes leave contested juxtapositions apart.** -/
theorem Passes.spaced {t : Turn} (h : Passes front slots slots') (ht : turnOf front = some t)
    (hc : Complete t slots) (hs : Spaced slots) : Spaced slots' := by
  induction h generalizing t with
  | nil => exact hs
  | @keep front rest rest' s h ih =>
    obtain ⟨u, hu, hrest⟩ := complete_cons.mp hc
    have hturn : turnOf (front ++ [s]) = some u := by
      rw [turnOf_concat, ht]
      exact hu
    cases s with
    | node e => exact ih hturn hrest hs
    | operator o =>
      refine ⟨fun hcontested => ?_, ih hturn hrest hs.2⟩
      obtain ⟨e, more, heq, hmore⟩ := hs.1 hcontested
      cases h with
      | nil => cases heq
      | @keep _ _ more' _ h =>
        cases heq
        obtain ⟨v, hv, hrest⟩ := complete_cons.mp hrest
        have hwants : v.wants = false := by
          obtain ⟨-, ⟨-, rfl⟩ | ⟨-, -, rfl⟩⟩ := Turn.wants_of_node hv <;> rfl
        refine ⟨e, more', rfl, ?_⟩
        rw [h.headOperator_eq (by rw [turnOf_concat, hturn]; exact hv) hwants hrest]
        exact hmore
      | join hjoins _ =>
        -- the node behind the juxtaposition would be the first of the stretch
        obtain ⟨p, tail, rfl⟩ := hjoins.eq_operator_of_isContested
          (by simpa [isContested, Slot.operator?] using hcontested)
        cases heq
  | @join front seg rest rest' e hjoins h ih =>
    obtain ⟨u, hu, hrest⟩ := complete_append.mp hc
    exact ih (by rw [turnOf_append, ht]; exact hu) hrest hs.of_append

/-- **`Calms`** — a slot in the place of another, with no juxtaposition contested that was not. -/
inductive Calms : Slot → Slot → Prop
  | node (e e' : Expr) : Calms (.node e) (.node e')
  | operator {o o' : Operator} (h : o'.op.isContested = true → o.op.isContested = true) :
      Calms (.operator o) (.operator o')

theorem Calms.refl : ∀ s : Slot, Calms s s
  | .node e => .node e e
  | .operator _ => .operator id

theorem Spaced.calms (h : List.Forall₂ Calms slots slots') (hs : Spaced slots) :
    Spaced slots' := by
  induction h with
  | nil => exact hs
  | cons hslot hrest ih =>
    cases hslot with
    | node => exact ih hs
    | operator hcontested =>
      refine ⟨fun hc => ?_, ih hs.2⟩
      obtain ⟨e, more, rfl, hmore⟩ := hs.1 (hcontested hc)
      cases hrest with
      | @cons _ s' _ more' hs' hmore' =>
        cases hs' with
        | node _ e' =>
          refine ⟨e', more', rfl, ?_⟩
          cases hmore' with
          | nil => rfl
          | cons hhead _ =>
            cases hhead with
            | node => rfl
            | @operator o o' h =>
              have hnot : o.op.isContested = false := by
                simpa [isContested, Slot.operator?] using hmore
              refine Bool.eq_false_iff.mpr fun hc' => ?_
              rw [h (by simpa [isContested, Slot.operator?] using hc')] at hnot
              cases hnot

/-! ## §2 Invariants -/

/-- **`Tidy`** — what reduction keeps of a list that may be settled beforehand. -/
structure Tidy (slots : List Slot) : Prop where
  shaped : Shaped slots
  bare : Reading.Bare slots
  spaced : Spaced slots
  formed : FormedAll slots
  noneAlone : NoneAlone slots

end Reduction

namespace Reading

open Reduction

variable {slots next copy merged : List Slot}

/-- **Runs keep a list tidy.** -/
theorem Runs.tidy (h : Runs slots next) (ht : Tidy slots) : Tidy next := by
  refine h.keep (fun {a b} ha hstep => ?_) ht
  have hpasses := hstep.passes
  exact ⟨hpasses.complete rfl ha.shaped, fun o ho => ha.bare o (hpasses.mem_of_operator ho),
    hpasses.spaced rfl ha.shaped ha.spaced, hpasses.formed ha.formed,
    fun o ho => ha.noneAlone o (hpasses.mem_of_operator ho)⟩

/-- **The copies of a fork are as tidy as the list.** -/
theorem tidy_of_fork {place : Nat} {f : Fork} (hs : survey slots = .ok (.contested place))
    (h : fork slots place = .ok f) (ht : Tidy slots) (hcopy : copy ∈ f.copies) : Tidy copy := by
  obtain ⟨hshaped, hbare, -⟩ := copy_of_contested hs h hcopy
  have hformed := allNodes_of_fork hs h ht.formed hcopy
  obtain ⟨front, back, m, rfl, -, hcopies⟩ := fork_of_contested hs h
  rw [hcopies] at hcopy
  obtain ⟨r, hr, rfl⟩ := List.mem_map.mp hcopy
  have hnot : (Op.juxtapose r.2).isContested = false :=
    Op.isContested_of_holdsContested_eq_false (Op.not_holdsContested_of_mem_readings hr)
  refine ⟨hshaped ht.shaped, hbare ht.bare, ?_, hformed, fun o ho => ?_⟩
  · refine ht.spaced.calms (List.rel_append (List.forall₂_same.mpr fun s _ => .refl s)
      (.cons (.operator fun hc => ?_) (List.forall₂_same.mpr fun s _ => .refl s)))
    rw [hnot] at hc
    cases hc
  · simp only [List.mem_append, List.mem_cons, Slot.operator.injEq] at ho
    rcases ho with ho | rfl | ho
    · exact ht.noneAlone o (List.mem_append_left _ ho)
    · intro l hl
      rw [Op.levels_of_mem_readings hr, List.mem_singleton] at hl
      rw [hl]
      exact Assoc.noConfusion
    · exact ht.noneAlone o (List.mem_append_right _ (List.mem_cons_of_mem _ ho))

/-- **Merged copies are as tidy as each of them**, if they have the same marks. -/
theorem tidy_of_merge {limit : Nat} {site : Span} {copies : List (List Slot)}
    {marks : List Slot} (h : merge limit site copies = .ok (some merged))
    (ht : ∀ copy ∈ copies, Tidy copy) (hmarks : ∀ copy ∈ copies, marksOf copy = marks) :
    Tidy merged := by
  obtain ⟨hshaped, copy, hcopy, hops, -⟩ := merged_keeps h
  have hformed := formed_of_merge h (fun c hc => (ht c hc).formed) hmarks
  refine ⟨hshaped fun c hc => (ht c hc).shaped, fun o ho => (ht copy hcopy).bare o (hops o ho), ?_,
    hformed, fun o ho => (ht copy hcopy).noneAlone o (hops o ho)⟩
  obtain ⟨hne, hall | ⟨front, nodes, back, rfl, rfl⟩⟩ := merge_ok h
  · exact hall copy hcopy ▸ (ht copy hcopy).spaced
  · obtain ⟨n, hn, rfl⟩ := List.mem_map.mp hcopy
    exact (ht _ hcopy).spaced.calms (List.rel_append (List.forall₂_same.mpr fun s _ => .refl s)
      (.cons (.node _ _) (List.forall₂_same.mpr fun s _ => .refl s)))

/-- **Every copy that is run is tidy and has the marks of the list** before it was forked. -/
theorem tidy_of_copies {place : Nat} {f : Fork} {copies : List (List Slot)}
    (hs : survey slots = .ok (.contested place)) (h : fork slots place = .ok f) (ht : Tidy slots)
    (hcopies : List.Forall₂ Runs f.copies copies) (hcopy : copy ∈ copies) :
    Tidy copy ∧ marksOf copy = marksOf slots := by
  obtain ⟨origin, horigin, hrun⟩ := exists_of_mem_right hcopies hcopy
  have horigin' := tidy_of_fork hs h ht horigin
  refine ⟨hrun.tidy horigin', ?_⟩
  rw [Runs.marks hrun horigin'.shaped, marks_of_fork hs h ht.shaped horigin]

end Reading

end DewyFront
