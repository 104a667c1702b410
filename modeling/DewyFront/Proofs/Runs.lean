/-
# DewyFront.Proofs.Runs — passes until nothing changes

A run makes passes as long as they shorten the list, and says why it ended. What every pass keeps, a
run keeps. A shaped list is never left with more than one node, unless an operand is contested.

* §1 passes that shorten, and where a run ends;
* §2 the function and the steps;
* §3 what runs keep;
* §4 runs without faults.
-/
import DewyFront.Expr.Reading
import DewyFront.Proofs.Progress
import Mathlib.Logic.Relation

namespace DewyFront

namespace Reading

open Reduction

/-! ## §1 Steps -/

/-- **`Shortens`** — a pass over a list that is decided makes it shorter. -/
def Shortens (slots next : List Slot) : Prop :=
  ∃ pulls, survey slots = .ok (.decided pulls) ∧ pass slots pulls = .ok next ∧
    next.length < slots.length

/-- **`Runs`** — passes lead from a list to another. -/
abbrev Runs : List Slot → List Slot → Prop := Relation.ReflTransGen Shortens

/-- **`Ends`** — why no further pass is made: an operand is contested, or a pass changes nothing. -/
inductive Ends (slots : List Slot) : Option Nat → Prop
  | contested {place : Nat} (h : survey slots = .ok (.contested place)) : Ends slots (some place)
  | settled {pulls : List Pull} (hd : survey slots = .ok (.decided pulls))
      (h : pass slots pulls = .ok slots) : Ends slots none

variable {slots next last : List Slot} {n : Nat} {r : Run}

theorem Shortens.passes (h : Shortens slots next) : Passes [] slots next := by
  obtain ⟨pulls, hd, hpass, -⟩ := h
  exact passes_of_pass hd hpass

/-! ## §2 The function -/

/-- **What a run returns is where its passes end.** -/
theorem runFor_ok (h : runFor n slots = .ok r) : Runs slots r.slots ∧ Ends r.slots r.contested := by
  induction n generalizing slots with
  | zero => cases h
  | succ n ih =>
    obtain ⟨sv, hsv, h⟩ := bind_ok_iff.mp h
    cases sv with
    | contested place =>
      cases h
      exact ⟨.refl, .contested hsv⟩
    | decided pulls =>
      obtain ⟨next, hnext, h⟩ := bind_ok_iff.mp h
      have hpasses := passes_of_pass hsv hnext
      split at h
      · rename_i hlen
        cases h
        have heq : next = slots := hpasses.eq_of_length_eq hlen
        subst heq
        exact ⟨.refl, .settled hsv hnext⟩
      · rename_i hlen
        obtain ⟨hruns, hends⟩ := ih h
        have hshort := Nat.lt_of_le_of_ne hpasses.length_le hlen
        exact ⟨.head ⟨pulls, hsv, hnext, hshort⟩ hruns, hends⟩

theorem run_ok (h : run slots = .ok r) : Runs slots r.slots ∧ Ends r.slots r.contested :=
  runFor_ok h

/-- A run makes the passes that can be made, given enough of them. -/
theorem runFor_of_runs {place : Option Nat} (h : Runs slots last) (hends : Ends last place)
    (hn : slots.length < n) : runFor n slots = .ok ⟨last, place⟩ := by
  induction h using Relation.ReflTransGen.head_induction_on generalizing n with
  | refl =>
    cases n with
    | zero => cases hn
    | succ n =>
      cases hends with
      | contested hsv => exact bind_ok_iff.mpr ⟨_, hsv, rfl⟩
      | settled hsv hpass =>
        refine bind_ok_iff.mpr ⟨_, hsv, bind_ok_iff.mpr ⟨_, hpass, ?_⟩⟩
        rw [if_pos rfl]
        rfl
  | @head slots next hstep _ ih =>
    obtain ⟨pulls, hsv, hpass, hlen⟩ := hstep
    cases n with
    | zero => cases hn
    | succ n =>
      refine bind_ok_iff.mpr ⟨_, hsv, bind_ok_iff.mpr ⟨_, hpass, ?_⟩⟩
      rw [if_neg (Nat.ne_of_lt hlen)]
      exact ih (by omega)

theorem run_of_runs {place : Option Nat} (h : Runs slots last) (hends : Ends last place) :
    run slots = .ok ⟨last, place⟩ := runFor_of_runs h hends (Nat.lt_succ_self _)

/-- A single node is left as it is. -/
theorem ends_node (e : Expr) : Ends [.node e] none := by
  have hsurvey : survey [.node e] = .ok (.decided [.stay]) := by
    refine bind_ok_iff.mpr ⟨some .stay, ?_, rfl⟩
    unfold pullOf
    split <;> rfl
  exact .settled hsurvey rfl

/-! ## §3 Invariants -/

/-- **`Bare`** — no operator of a list applies a contested juxtaposition element by element. -/
def Bare (slots : List Slot) : Prop := ∀ o, .operator o ∈ slots → o.op.IsBare

/-- What every step keeps, a run keeps. -/
theorem Runs.keep {P : List Slot → Prop} (step : ∀ {a b}, P a → Shortens a b → P b)
    (h : Runs slots next) (hp : P slots) : P next := by
  induction h with
  | refl => exact hp
  | tail _ hstep ih => exact step ih hstep

theorem Runs.shaped (h : Runs slots next) (hs : Shaped slots) : Shaped next :=
  h.keep (fun ha hstep => hstep.passes.complete rfl ha) hs

theorem Runs.mem_of_operator {o : Operator} (h : Runs slots next) (ho : .operator o ∈ next) :
    .operator o ∈ slots := by
  induction h with
  | refl => exact ho
  | tail _ hstep ih => exact ih (hstep.passes.mem_of_operator ho)

theorem Runs.bare (h : Runs slots next) (hb : Bare slots) : Bare next :=
  fun o ho => hb o (h.mem_of_operator ho)

/-- **A shaped list that nothing contests is reduced to one node.** -/
theorem eq_node_of_ends (hs : Shaped slots) (h : Ends slots none) : ∃ e, slots = [.node e] := by
  cases h with
  | settled hd hpass =>
    refine hs.eq_node (Nat.lt_of_not_le fun hlen => ?_)
    exact absurd (pass_shortens hs hd hpass hlen) (Nat.lt_irrefl _)

/-! ## §4 Faults -/

/-- **A run over a shaped list of bare operators ends in no fault.** -/
theorem runFor_faultless (hs : Shaped slots) (hb : Bare slots) (hn : slots.length < n) :
    Faultless (runFor n slots) := by
  induction n generalizing slots with
  | zero => cases hn
  | succ n ih =>
    refine Faultless.bind (survey_faultless hb) fun sv hsv => ?_
    cases sv with
    | contested place => exact Faultless.ok _
    | decided pulls =>
      refine Faultless.bind (pass_faultless hsv hs) fun next hnext => ?_
      have hpasses := passes_of_pass hsv hnext
      split
      · exact Faultless.ok _
      · rename_i hlen
        have hshort := Nat.lt_of_le_of_ne hpasses.length_le hlen
        exact ih (hpasses.complete rfl hs) (fun o ho => hb o (hpasses.mem_of_operator ho))
          (by omega)

theorem run_faultless (hs : Shaped slots) (hb : Bare slots) : Faultless (run slots) :=
  runFor_faultless hs hb (Nat.lt_succ_self _)

end Reading

end DewyFront
