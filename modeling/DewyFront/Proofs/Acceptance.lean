/-
# DewyFront.Proofs.Acceptance — which chains are refused for their operators

A well-shaped chain that nothing contests has a tree, and reduction finds it or is refused. It is
refused for a part of that tree, where an operator stands directly in itself or a range has several
range marks, or for a postfix operator directly in front of an operator of a flat run.

* §1 the tree of a list;
* §2 parts of a tree;
* §3 operators side by side;
* §4 causes;
* §5 passes and runs;
* §6 chains.
-/
import DewyFront.Proofs.Choices
import DewyFront.Proofs.Refusals

namespace DewyFront

namespace Reduction

open Climbing

variable {front back slots next : List Slot} {left right : Option Operator} {e t : Expr}

/-! ## §1 The tree of a list -/

/-- It is decided where an operand is drawn to, if the operators beside it are not too close to tell. -/
theorem exists_pullOf_of_comparable (e : Expr)
    (h : (isContested left && isContested right) = false →
      (reachFrom left).compare (reachTo right) ≠ none) :
    ∃ pull, pullOf left right e = .ok (some pull) := by
  rw [pullOf_eq]
  split
  · exact ⟨.stay, rfl⟩
  · split
    · exact ⟨.left, rfl⟩
    · next hcontested =>
      split
      · exact ⟨.stay, rfl⟩
      · next hbound =>
        split
        · exact ⟨.left, rfl⟩
        · exact ⟨.right, rfl⟩
        · next heq => exact absurd heq (reach_compare_ne_eq hbound)
        · next hnone => exact absurd hnone (h (by simpa using hcontested))

/-- Beside operators that are not contested, it is decided where an operand is drawn to. -/
theorem exists_pullOf (hl : ∀ o, left = some o → o.op.holdsContested = false)
    (hr : ∀ o, right = some o → o.op.holdsContested = false) (e : Expr) :
    ∃ pull, pullOf left right e = .ok (some pull) :=
  exists_pullOf_of_comparable e fun _ => reach_compare_ne_none hl hr

theorem surveyFrom_of_uncontested {previous : Option Slot} {place : Nat}
    (hp : ∀ o, previous = some (.operator o) → o.op.holdsContested = false)
    (hu : Uncontested slots) : ∃ pulls, surveyFrom previous place slots = .ok (.decided pulls) := by
  induction slots generalizing previous place with
  | nil => exact ⟨[], rfl⟩
  | cons s slots ih =>
    have hrest : Uncontested slots := fun o ho => hu o (List.mem_cons_of_mem _ ho)
    have hs : ∀ o, some s = some (.operator o) → o.op.holdsContested = false := by
      intro o ho
      cases ho
      exact hu o List.mem_cons_self
    obtain ⟨pulls, hpulls⟩ := @ih (some s) (place + 1) hs hrest
    cases s with
    | operator o => exact ⟨.stay :: pulls, bind_ok_iff.mpr ⟨_, hpulls, rfl⟩⟩
    | node e =>
      have hleft : ∀ o, previous.bind Slot.operator? = some o → o.op.holdsContested = false := by
        intro o ho
        obtain ⟨s, hs, hop⟩ := Option.bind_eq_some_iff.mp ho
        apply hp o
        rw [hs, eq_operator_of_operator? hop]
      have hright : ∀ o, slots.head?.bind Slot.operator? = some o → o.op.holdsContested = false := by
        intro o ho
        obtain ⟨s, hs, hop⟩ := Option.bind_eq_some_iff.mp ho
        apply hrest o
        rw [← eq_operator_of_operator? hop]
        exact List.mem_of_head? hs
      obtain ⟨pull, hpull⟩ := exists_pullOf hleft hright e
      exact ⟨pull :: pulls, bind_ok_iff.mpr ⟨_, hpull, bind_ok_iff.mpr ⟨_, hpulls, rfl⟩⟩⟩

/-- **A list that nothing contests is decided.** -/
theorem survey_of_uncontested (hu : Uncontested slots) :
    ∃ pulls, survey slots = .ok (.decided pulls) :=
  surveyFrom_of_uncontested (fun _ h => by cases h) hu

/-- A reduction on its own is a pass. -/
theorem Replaces.passes {r : Reduction} (h : Replaces slots r) :
    ∃ next, Passes [] slots next ∧ next.length < slots.length ∧ .node r.node ∈ next := by
  obtain ⟨front, seg, back, rfl, -, -, hjoins⟩ := h
  refine ⟨front ++ .node r.node :: back, ?_, ?_, by simp⟩
  · rw [List.append_assoc]
    apply Passes.keepAll
    rw [List.nil_append]
    exact .join hjoins (.refl _ _)
  · have htwo := hjoins.two_le_length
    simp only [List.length_append, List.length_cons]
    omega

theorem exists_passes (hs : Shaped slots) (hu : Uncontested slots) (hlen : 2 ≤ slots.length) :
    ∃ next, Passes [] slots next ∧ next.length < slots.length := by
  obtain ⟨pulls, hd⟩ := survey_of_uncontested hu
  obtain ⟨hpulls, hsurveyed⟩ := survey_decided hd
  have hslots := map_slot_drawnOf hpulls
  have hlen' : 2 ≤ (drawnOf slots pulls).length := by
    rw [← List.length_map Drawn.slot, hslots]
    exact hlen
  obtain ⟨front, o, pull, back, r, heq, hmade⟩ :=
    makes_of_surveyed hsurveyed (hslots.symm ▸ hs) hlen'
  have hreplaces := hmade.replaces (heq ▸ hsurveyed)
  rw [← heq, hslots] at hreplaces
  obtain ⟨next, hpasses, hshort, -⟩ := hreplaces.passes
  exact ⟨next, hpasses, hshort⟩

theorem Passes.uncontested (h : Passes front slots next) (hu : Uncontested slots) :
    Uncontested next := fun o ho => hu o (h.mem_of_operator ho)

/-- **A shaped list that nothing contests is joined to one tree.** -/
theorem exists_joined (hs : Shaped slots) (hu : Uncontested slots) :
    ∃ t, Joined slots [.node t] := by
  induction hn : slots.length using Nat.strongRecOn generalizing slots with
  | ind n ih =>
    subst hn
    by_cases hlen : 2 ≤ slots.length
    · obtain ⟨next, hpasses, hshort⟩ := exists_passes hs hu hlen
      obtain ⟨t, ht⟩ := ih _ hshort (hpasses.complete rfl hs) (hpasses.uncontested hu) rfl
      exact ⟨t, .head hpasses ht⟩
    · obtain ⟨e, rfl⟩ := hs.eq_node (Nat.lt_of_not_le hlen)
      exact ⟨e, .refl⟩

end Reduction

/-! ## §2 Parts -/

namespace Expr

/-- The operands that a node was made of. -/
def operands : Expr → List Expr
  | .binary _ l r _ => [l, r]
  | .before _ e _ | .after _ e _ => [e]
  | .flat _ es _ => es
  | _ => []

/-- **`HasPart`** — an expression is reached in another through the operands of its nodes. -/
def HasPart (whole part : Expr) : Prop :=
  Relation.ReflTransGen (fun e operand => operand ∈ e.operands) whole part

theorem HasPart.refl (e : Expr) : e.HasPart e := Relation.ReflTransGen.refl

end Expr

namespace Reduction

open Climbing

variable {front back slots next seg : List Slot} {e t : Expr} {o p q : Operator}

theorem mem_operands_of_combines {n : Expr} (h : Combines seg e) (hn : .node n ∈ seg) :
    n ∈ e.operands := by
  cases h with
  | binary | before | after => simpa [Expr.operands] using hn
  | @flat o first last links s hsame =>
    simp only [runSlots, List.mem_append, List.mem_cons, Slot.node.injEq, List.mem_flatMap,
      reduceCtorEq, List.not_mem_nil, or_false, false_or] at hn
    rcases hn with (rfl | ⟨link, hlink, rfl⟩) | rfl
    · exact List.mem_append_left _ List.mem_cons_self
    · exact List.mem_append_left _ (List.mem_cons_of_mem _ (List.mem_map_of_mem hlink))
    · exact List.mem_append_right _ (List.mem_singleton_self _)

/-- **A pass keeps the parts of its nodes.** -/
theorem Passes.exists_part (h : Passes front slots next) (he : .node e ∈ slots) :
    ∃ whole, .node whole ∈ next ∧ whole.HasPart e := by
  induction h with
  | nil => cases he
  | keep _ ih =>
    rcases List.mem_cons.mp he with rfl | he
    · exact ⟨e, List.mem_cons_self, .refl e⟩
    · obtain ⟨whole, hmem, hpart⟩ := ih he
      exact ⟨whole, List.mem_cons_of_mem _ hmem, hpart⟩
  | join hjoins _ ih =>
    rcases List.mem_append.mp he with he | he
    · exact ⟨_, List.mem_cons_self, .single (mem_operands_of_combines hjoins.combines he)⟩
    · obtain ⟨whole, hmem, hpart⟩ := ih he
      exact ⟨whole, List.mem_cons_of_mem _ hmem, hpart⟩

/-- Every node of a list is a part of what the list is joined to. -/
theorem hasPart_of_joined (h : Joined slots [.node t]) (he : .node e ∈ slots) : t.HasPart e := by
  induction h using Relation.ReflTransGen.head_induction_on generalizing e with
  | refl =>
    cases List.mem_singleton.mp he
    exact .refl _
  | head hpasses _ ih =>
    obtain ⟨whole, hmem, hpart⟩ := hpasses.exists_part he
    exact (ih hmem).trans hpart

/-! ## §3 Operators side by side -/

/-- **`Adjacent`** — an operator stands directly in front of another. -/
def Adjacent (slots : List Slot) (q p : Operator) : Prop := [.operator q, .operator p] <:+: slots

theorem Passes.head_operator (h : Passes front slots next) {rest : List Slot}
    (hnext : next = .operator p :: rest) : ∃ rest', slots = .operator p :: rest' := by
  cases h with
  | nil => cases hnext
  | keep h =>
    obtain ⟨rfl, -⟩ := List.cons.inj hnext
    exact ⟨_, rfl⟩
  | join => cases hnext

/-- **A pass brings no two operators together.** -/
theorem Passes.adjacent (h : Passes front slots next) (hadj : Adjacent next q p) :
    Adjacent slots q p := by
  induction h with
  | nil => exact hadj
  | @keep front rest rest' s h ih =>
    rcases List.infix_cons_iff.mp hadj with hprefix | hrest
    · obtain ⟨more, hmore⟩ := hprefix
      obtain ⟨rfl, htail⟩ := List.cons.inj hmore
      obtain ⟨rest'', rfl⟩ := h.head_operator htail.symm
      exact ⟨[], rest'', rfl⟩
    · exact List.infix_cons (ih hrest)
  | join _ _ ih =>
    rcases List.infix_cons_iff.mp hadj with hprefix | hrest
    · obtain ⟨more, hmore⟩ := hprefix
      cases (List.cons.inj hmore).1
    · exact (ih hrest).trans (List.suffix_append _ _).isInfix

/-! ## §4 Causes -/

/-- **`Accounts`** — what in a list and its tree a refusal is about. -/
inductive Accounts (slots : List Slot) (t : Expr) : ParseError → Prop
  /-- In the tree, an operator that may not stand in itself has an operand made with the same
  operator. -/
  | nested {o inner : Operator} {left right child : Expr} {span : Span}
      (halone : ∃ level ∈ o.op.levels, level.assoc = .alone)
      (hpart : t.HasPart (.binary o left right span)) (hchild : child = left ∨ child = right)
      (hinner : child.binaryOperator? = some inner) (hsame : inner.op = o.op) :
      Accounts slots t (.nestedOperator o inner)
  /-- In the tree, a range has several range marks. -/
  | marks {o : Operator} {operands : List Expr} {span : Span} (hrange : o.op = .bond .range)
      (hpart : t.HasPart (.flat o operands span)) (hmarks : 1 < (rangeMarks operands).length) :
      Accounts slots t (.severalRangeMarks (rangeMarks operands))
  /-- In the list, a postfix operator stands directly in front of an operator of a flat run. -/
  | pending {o p q : Operator} (hflat : o.op.isFlat = true) (hafter : q.op.isAfter = true)
      (hsame : p.op = o.op) (hadjacent : Adjacent slots q p) :
      Accounts slots t (.missingFlatOperand o)

/-- What accounts for a refusal after a pass accounts for it before. -/
theorem Accounts.of_passes {cause : ParseError} (h : Accounts next t cause)
    (hpasses : Passes front slots next) : Accounts slots t cause := by
  cases h with
  | nested halone hpart hchild hinner hsame => exact .nested halone hpart hchild hinner hsame
  | marks hrange hpart hmarks => exact .marks hrange hpart hmarks
  | pending hflat hafter hsame hadjacent =>
    exact .pending hflat hafter hsame (hpasses.adjacent hadjacent)

/-! ## §5 Passes and runs -/

variable {pulls : List Pull} {cause : ParseError}

/-- What a reduction of a list makes is a part of the tree of the list. -/
theorem hasPart_of_replaces {r : Reduction} (hs : Shaped slots) (hu : Uncontested slots)
    (ht : Joined slots [.node t]) (h : Replaces slots r) : t.HasPart r.node := by
  obtain ⟨next, hpasses, -, hmem⟩ := h.passes
  obtain ⟨t', ht'⟩ := exists_joined (hpasses.complete rfl hs) (hpasses.uncontested hu)
  have heq : t = t' := eq_of_joined hs hu ht (.head hpasses ht')
  exact hasPart_of_joined (heq ▸ ht') hmem

/-- **A pass is refused for a part of the tree, or for a pending postfix operator.** -/
theorem accounts_of_pass (hs : Shaped slots) (hu : Uncontested slots) (ht : Joined slots [.node t])
    (hd : survey slots = .ok (.decided pulls)) (h : pass slots pulls = refuse cause) :
    Accounts slots t cause := by
  obtain ⟨front, o, pull, back, hstands, hrefused⟩ := refused_of_pass hs hd h
  have hpart : ∀ {r}, Made front o back r → t.HasPart r.node := by
    intro r hmade
    have hreplaces := hmade.replaces hstands.surveyed
    rw [hstands.slots_eq] at hreplaces
    exact hasPart_of_replaces hs hu ht hreplaces
  cases hrefused with
  | nested halone hmade hnode hchild hinner hsame =>
    exact .nested halone (hnode ▸ hpart hmade) hchild hinner hsame
  | marks hrange hmade hnode hmarks => exact .marks hrange (hnode ▸ hpart hmade) hmarks
  | @pending inner more q p x y hflat hfront hafter hsame =>
    refine .pending hflat hafter hsame ⟨inner.map (·.slot), more.map (·.slot) ++
      .operator o :: back.map (·.slot), ?_⟩
    rw [← hstands.slots_eq, hfront]
    simp

end Reduction

namespace Reading

open Reduction Climbing

variable {slots : List Slot} {t : Expr} {n limit : Nat} {span : Span}

/-- **A run finds the tree of a list that nothing contests, or is refused for it.** -/
theorem runFor_of_joined (hs : Shaped slots) (hu : Uncontested slots) (ht : Joined slots [.node t])
    (hn : slots.length < n) :
    runFor n slots = .ok ⟨[.node t], none⟩ ∨
      ∃ cause, runFor n slots = refuse cause ∧ Accounts slots t cause := by
  induction n generalizing slots with
  | zero => omega
  | succ n ih =>
    obtain ⟨pulls, hd⟩ := survey_of_uncontested hu
    rcases ok_or_refuse_of_faultless (pass_faultless hd hs) with ⟨next, hnext⟩ | ⟨cause, hcause⟩
    · have hpasses := passes_of_pass hd hnext
      have hrun : runFor (n + 1) slots =
          if next.length = slots.length then .ok ⟨next, none⟩ else runFor n next := by
        simp only [runFor, hd, hnext, bind, Except.bind, pure, Except.pure]
      rw [hrun]
      by_cases hlen : next.length = slots.length
      · rw [if_pos hlen]
        obtain rfl := hpasses.eq_of_length_eq hlen
        -- a shaped list that no pass shortens is one node, and that is the tree
        obtain ⟨e, rfl⟩ := eq_node_of_ends hs (.settled hd hnext)
        left
        rw [eq_of_joined hs hu ht .refl]
      · rw [if_neg hlen]
        have hshort := Nat.lt_of_le_of_ne hpasses.length_le hlen
        have hs' := hpasses.complete rfl hs
        have hu' := hpasses.uncontested hu
        obtain ⟨t', ht'⟩ := exists_joined hs' hu'
        obtain rfl : t = t' := eq_of_joined hs hu ht (.head hpasses ht')
        rcases ih hs' hu' ht' (by omega) with h | ⟨cause, h, haccounts⟩
        · exact .inl h
        · exact .inr ⟨cause, h, haccounts.of_passes hpasses⟩
    · right
      refine ⟨cause, ?_, accounts_of_pass hs hu ht hd hcause⟩
      exact bind_refuse_iff.mpr (.inr ⟨_, hd, bind_refuse_iff.mpr (.inl hcause)⟩)

/-- **Reduction finds the tree of a list that nothing contests, or is refused for it.** -/
theorem reduce_of_joined (hs : Shaped slots) (hu : Uncontested slots) (ht : Joined slots [.node t]) :
    reduce limit span slots = .ok t ∨
      ∃ cause, reduce limit span slots = refuse cause ∧ Accounts slots t cause := by
  rcases runFor_of_joined hs hu ht (Nat.lt_succ_self _) with h | ⟨cause, h, haccounts⟩
  · left
    have hread : readings limit slots = .ok [t] := bind_ok_iff.mpr ⟨_, h, rfl⟩
    exact bind_ok_iff.mpr ⟨_, hread, rfl⟩
  · right
    refine ⟨cause, ?_, haccounts⟩
    have hread : readings limit slots = refuse cause := bind_refuse_iff.mpr (.inl h)
    exact bind_refuse_iff.mpr (.inl hread)

end Reading

/-! ## §6 Chains -/

namespace Expr

open Reduction Reading Climbing

variable {config : ParseConfig} {chain : Chain} {slots : List Slot} {span : Span}

/-- **The expression of a well-shaped chain is the tree that climbing finds**, where no juxtaposition
is contested and semicolons stand last; or the chain is refused for an operator directly in itself,
for several marks of one range, or for a postfix operator directly in front of an operator of a flat
run. -/
theorem ofChain_eq_or_accounts (hclosed : chain.IsClosed)
    (hcontested : ∀ o, .operator o ∈ chain → o.op.holdsContested = false)
    (hshape : chain.checkShape = .ok span) (hslots : slotsOf config.maxReadings chain = .ok slots) :
    ∃ t, Climbing.parse slots = some t ∧
      (ofChain config chain = .ok t ∨
        ∃ cause, ofChain config chain = refuse cause ∧ Accounts slots t cause) := by
  have hs : Shaped slots := shaped_of_checkShape hslots hshape hclosed
  have hu : Uncontested slots := fun o ho =>
    hcontested o (mem_of_operator_slot (slotsOf_ok hslots) ho)
  obtain ⟨t, ht⟩ := exists_joined hs hu
  refine ⟨t, parse_of_reads (reads_of_joined hs hu ht), ?_⟩
  rw [ofChain_eq_reduce hshape hslots]
  exact reduce_of_joined hs hu ht

/-- A postfix operator in front of the only comma is no hindrance. -/
theorem ofChain_eq_or_accounts_of_one_comma :
    let question : Operator := ⟨.symbol .question, ⟨2, 3⟩⟩
    let comma : Operator := ⟨.symbol .comma, ⟨3, 4⟩⟩
    let a : Expr := .atom (.identifier ['a']) ⟨0, 1⟩
    let b : Expr := .atom (.identifier ['b']) ⟨5, 6⟩
    let chain : Chain := [.operand (.atom (.identifier ['a'])) ⟨0, 1⟩, .operator question,
      .operator comma, .operand (.atom (.identifier ['b'])) ⟨5, 6⟩]
    let slots : List Slot := [.node a, .operator question, .operator comma, .node b]
    chain.IsClosed ∧ chain.checkShape = .ok ⟨0, 6⟩ ∧ slotsOf 64 chain = .ok slots ∧
      ∃ t, Climbing.parse slots = some t ∧
        (ofChain default chain = .ok t ∨
          ∃ cause, ofChain default chain = refuse cause ∧ Accounts slots t cause) := by
  intro question comma a b chain slots
  have hclosed : chain.IsClosed := Chain.isClosed_of_notMem (by simp [chain])
  have hcontested : ∀ o, .operator o ∈ chain → o.op.holdsContested = false := by
    intro o ho
    have ho := Chain.mem_operators.mpr ho
    simp only [chain, Chain.operators, List.mem_cons, List.not_mem_nil, or_false] at ho
    rcases ho with rfl | rfl <;> rfl
  exact ⟨hclosed, rfl, rfl, @ofChain_eq_or_accounts default chain slots _ hclosed hcontested rfl rfl⟩

/-- **A postfix operator in front of a comma that is not the last of its run is refused**, although
every comma has an operand on both sides in the tree. -/
theorem ofChain_refused_of_two_commas :
    let question : Operator := ⟨.symbol .question, ⟨2, 3⟩⟩
    let first : Operator := ⟨.symbol .comma, ⟨3, 4⟩⟩
    let second : Operator := ⟨.symbol .comma, ⟨6, 7⟩⟩
    let a : Expr := .atom (.identifier ['a']) ⟨0, 1⟩
    let b : Expr := .atom (.identifier ['b']) ⟨5, 6⟩
    let c : Expr := .atom (.identifier ['c']) ⟨8, 9⟩
    let chain : Chain := [.operand (.atom (.identifier ['a'])) ⟨0, 1⟩, .operator question,
      .operator first, .operand (.atom (.identifier ['b'])) ⟨5, 6⟩, .operator second,
      .operand (.atom (.identifier ['c'])) ⟨8, 9⟩]
    let slots : List Slot := [.node a, .operator question, .operator first, .node b,
      .operator second, .node c]
    chain.IsClosed ∧ chain.checkShape = .ok ⟨0, 9⟩ ∧
      (∀ o, .operator o ∈ chain → o.op.holdsContested = false) ∧ slotsOf 64 chain = .ok slots ∧
      Climbing.parse slots = some (.flat second [.after question a ⟨0, 3⟩, b, c] ⟨0, 9⟩) ∧
      ofChain default chain = refuse (.missingFlatOperand second) := by
  intro question first second a b c chain slots
  have hcontested : ∀ o, .operator o ∈ chain → o.op.holdsContested = false := by
    intro o ho
    have ho := Chain.mem_operators.mpr ho
    simp only [chain, Chain.operators, List.mem_cons, List.not_mem_nil, or_false] at ho
    rcases ho with rfl | rfl | rfl <;> rfl
  exact ⟨Chain.isClosed_of_notMem (by simp [chain]), rfl, hcontested, rfl, rfl, rfl⟩

end Expr

end DewyFront
