/-
# DewyFront.Proofs.Shape — which lists of slots can become one node

A list is read from the left, and at each place either an operand or an operator has its turn. The
turn says which form an operator takes there, and it is what the look-back of an operator finds
out.

* §1 turns;
* §2 shaped lists;
* §3 turns and the look-back.
-/
import DewyFront.Proofs.Pulls
import Mathlib.Data.List.Basic

namespace DewyFront

namespace Reduction

/-! ## §1 Turns -/

/-- **`Turn`** — what a list of slots goes on with. -/
inductive Turn where
  | operand
  /-- An operand, which may be the semicolon. -/
  | closing
  | operator
  /-- Nothing stands behind a semicolon. -/
  | done
deriving DecidableEq, Repr

namespace Turn

/-- Whether an operand has to come. -/
def wants : Turn → Bool
  | operand | closing => true
  | operator | done => false

/-- **`next`** — the turn behind a slot; nothing if the slot may not stand here. -/
def next : Turn → Slot → Option Turn
  | operand, .node e => if e.isSemicolon then none else some operator
  | closing, .node e => some (if e.isSemicolon then done else operator)
  | operand, .operator o | closing, .operator o => if o.op.isBefore then some operand else none
  | operator, .operator o =>
    if o.op.isBinary then some (if o.op = .bond .semicolon then closing else operand)
    else if o.op.isAfter then some operator
    else none
  | operator, .node _ | done, _ => none

variable {t u : Turn} {e : Expr} {o : Operator}

/-- A node stands where an operand is wanted. -/
theorem wants_of_node (h : t.next (.node e) = some u) :
    t.wants = true ∧ (e.isSemicolon = false ∧ u = .operator ∨
      e.isSemicolon = true ∧ t = .closing ∧ u = .done) := by
  cases t with
  | operand =>
    simp only [next] at h
    split at h
    · cases h
    · cases h
      exact ⟨rfl, .inl ⟨by simpa using ‹¬ e.isSemicolon = true›, rfl⟩⟩
  | closing =>
    simp only [next, Option.some.injEq] at h
    split at h
    · exact ⟨rfl, .inr ⟨by assumption, rfl, h.symm⟩⟩
    · exact ⟨rfl, .inl ⟨by simpa using ‹¬ e.isSemicolon = true›, h.symm⟩⟩
  | operator | done => cases h

/-- A node that is no semicolon may stand wherever an operand is wanted. -/
theorem next_node (h : t.wants = true) (he : e.isSemicolon = false) :
    t.next (.node e) = some .operator := by
  cases t with
  | operand | closing => simp [next, he]
  | operator | done => cases h

/-- Where an operand is wanted, an operator stands in front of it. -/
theorem next_operator_of_wants (ht : t.wants = true) :
    t.next (.operator o) = some u ↔ o.op.isBefore = true ∧ u = .operand := by
  cases t with
  | operand | closing =>
    simp only [next]
    split
    · simp [*, eq_comm]
    · simp [*]
  | operator | done => cases ht

/-- Where no operand is wanted, an operator stands between two or behind one. -/
theorem next_operator (h : Turn.operator.next (.operator o) = some u) :
    (o.op.isBinary = true ∧ u.wants = true) ∨
      (o.op.isBinary = false ∧ o.op.isAfter = true ∧ u = .operator) := by
  simp only [next] at h
  split at h
  · cases h
    refine .inl ⟨by assumption, ?_⟩
    split <;> rfl
  · split at h
    · cases h
      exact .inr ⟨by simpa using ‹¬ o.op.isBinary = true›, by assumption, rfl⟩
    · cases h

end Turn

/-! ## §2 Shaped lists -/

/-- **`turnFrom`** — the turn behind some slots. -/
def turnFrom (turn : Turn) : List Slot → Option Turn
  | [] => some turn
  | s :: rest => (turn.next s).bind (turnFrom · rest)

theorem turnFrom_append {t : Turn} (front back : List Slot) :
    turnFrom t (front ++ back) = (turnFrom t front).bind (turnFrom · back) := by
  induction front generalizing t with
  | nil => rfl
  | cons s front ih =>
    simp only [List.cons_append, turnFrom, Option.bind_assoc]
    exact Option.bind_congr fun u _ => ih

/-- The turn behind a list that begins with an operand. -/
def turnOf (slots : List Slot) : Option Turn := turnFrom .operand slots

theorem turnOf_append (front back : List Slot) :
    turnOf (front ++ back) = (turnOf front).bind (turnFrom · back) := turnFrom_append front back

theorem turnOf_concat (front : List Slot) (s : Slot) :
    turnOf (front ++ [s]) = (turnOf front).bind (·.next s) := by
  rw [turnOf_append]
  exact Option.bind_congr fun t _ => by simp [turnFrom]

/-- **`Complete`** — from a turn on, slots come to an end where no operand is wanted. -/
def Complete (turn : Turn) (slots : List Slot) : Prop :=
  ∃ u, turnFrom turn slots = some u ∧ u.wants = false

/-- **`Shaped`** — operands with operators in front of them and behind them, and operators between;
a semicolon comes last, behind its juxtaposition. -/
def Shaped (slots : List Slot) : Prop := Complete .operand slots

theorem Complete.nil {t : Turn} (h : t.wants = false) : Complete t [] := ⟨t, rfl, h⟩

theorem complete_append {t : Turn} {front back : List Slot} :
    Complete t (front ++ back) ↔ ∃ u, turnFrom t front = some u ∧ Complete u back := by
  simp only [Complete, turnFrom_append, Option.bind_eq_some_iff]
  constructor
  · rintro ⟨v, ⟨u, hu, hv⟩, hw⟩
    exact ⟨u, hu, v, hv, hw⟩
  · rintro ⟨u, hu, v, hv, hw⟩
    exact ⟨v, ⟨u, hu, hv⟩, hw⟩

theorem complete_cons {t : Turn} {s : Slot} {rest : List Slot} :
    Complete t (s :: rest) ↔ ∃ u, t.next s = some u ∧ Complete u rest := by
  have h := @complete_append t [s] rest
  simpa [turnFrom] using h

theorem not_complete_nil {t : Turn} (ht : t.wants = true) : ¬ Complete t [] := by
  rintro ⟨u, hu, hw⟩
  cases hu
  simp [ht] at hw

/-- Nothing stands behind a semicolon. -/
theorem eq_nil_of_complete_done {rest : List Slot} (h : Complete .done rest) : rest = [] := by
  cases rest with
  | nil => rfl
  | cons s rest =>
    obtain ⟨u, hu, -⟩ := complete_cons.mp h
    cases hu

/-- A shaped list with fewer than two slots is one operand. -/
theorem Shaped.eq_node {slots : List Slot} (h : Shaped slots) (hlen : slots.length < 2) :
    ∃ e, slots = [.node e] := by
  match slots, h with
  | [], h => exact absurd h (not_complete_nil rfl)
  | [.node e], _ => exact ⟨e, rfl⟩
  | [.operator o], h =>
    obtain ⟨u, hu, hrest⟩ := complete_cons.mp h
    obtain ⟨-, rfl⟩ := (Turn.next_operator_of_wants rfl).mp hu
    exact absurd hrest (not_complete_nil rfl)
  | _ :: _ :: _, _ => exact absurd hlen (by simp)

/-! ## §3 The look-back -/

/-- The turn behind the slots of a list before it is known what they are drawn to. -/
abbrev turnBehind (drawn : List Drawn) : Option Turn := turnOf (drawn.map (·.slot))

variable {front : List Drawn} {t : Turn}

/-- **Where an operator has its turn, the look-back finds an operand.** -/
theorem attaches_of_operator (h : turnBehind front = some .operator) :
    attaches front.reverse = true := by
  rcases List.eq_nil_or_concat' front with rfl | ⟨inner, ⟨s, pull⟩, rfl⟩
  · cases h
  · rw [turnBehind, List.map_append, List.map_singleton, turnOf_concat,
      Option.bind_eq_some_iff] at h
    obtain ⟨t, -, h⟩ := h
    rw [List.reverse_append, List.reverse_singleton, List.singleton_append]
    cases s with
    | node e =>
      obtain ⟨-, ⟨he, -⟩ | ⟨-, -, hu⟩⟩ := Turn.wants_of_node h
      · simp [attaches, he]
      · cases hu
    | operator o =>
      cases t with
      | operand | closing =>
        obtain ⟨-, hu⟩ := (Turn.next_operator_of_wants rfl).mp h
        cases hu
      | done => cases h
      | operator =>
        rcases Turn.next_operator h with ⟨-, hu⟩ | ⟨hb, ha, -⟩
        · cases hu
        · simp [attaches, hb, ha, (Op.forms_of_isAfter ha).2.1]

/-- **Where an operand is wanted, the look-back finds none.** -/
theorem not_attaches_of_wants (h : turnBehind front = some t) (ht : t.wants = true) :
    attaches front.reverse = false := by
  rcases List.eq_nil_or_concat' front with rfl | ⟨inner, ⟨s, pull⟩, rfl⟩
  · rfl
  · rw [turnBehind, List.map_append, List.map_singleton, turnOf_concat,
      Option.bind_eq_some_iff] at h
    obtain ⟨u, -, h⟩ := h
    rw [List.reverse_append, List.reverse_singleton, List.singleton_append]
    cases s with
    | node e =>
      obtain ⟨-, ⟨-, hu⟩ | ⟨-, -, hu⟩⟩ := Turn.wants_of_node h <;>
        · subst hu
          cases ht
    | operator o =>
      cases hb : o.op.isBinary with
      | true => simp [attaches, hb]
      | false =>
        have hbefore : o.op.isBefore = true := by
          cases u with
          | operand | closing => exact ((Turn.next_operator_of_wants rfl).mp h).1
          | done => cases h
          | operator =>
            rcases Turn.next_operator h with ⟨hb', -⟩ | ⟨-, -, hu⟩
            · rw [hb] at hb'
              cases hb'
            · subst hu
              cases ht
        have hafter : o.op.isAfter = false := by
          refine Bool.eq_false_iff.mpr fun ha => ?_
          rw [(Op.forms_of_isAfter ha).2.1] at hbefore
          cases hbefore
        simp [attaches, hb, hbefore, hafter]

end Reduction

end DewyFront
