/-
# DewyFront.Proofs.Tiers — juxtapositions on one of their two tiers

A juxtaposition that may be a call or a product sits in two rows. Where all other operators sit in rows
looser than both, nobody needs to know which of the two it is: an operand between it and another
operator goes to it either way, and between two of them goes to the left, as it would if both were
calls, or both products. So every operand is drawn where it would be drawn on one tier alone.

* §1 operators;
* §2 expressions;
* §3 putting meanings back;
* §4 slots and chains;
* §5 surveys.
-/
import DewyFront.Proofs.Acceptance
import DewyFront.Proofs.Choices

namespace DewyFront

/-! ## §1 Operators -/

/-- **`Tier`** — one of the two levels of a juxtaposition. -/
inductive Tier where
  /-- Calls and indexing. -/
  | upper
  /-- Products. -/
  | lower
deriving DecidableEq, Repr

namespace Tier

/-- The row of a tier. -/
def row : Tier → Nat
  | upper => Precedence.callRow
  | lower => Precedence.productRow

/-- The meanings of a tier. -/
def keep : Tier → Meanings → Meanings
  | upper, m => m.upper
  | lower, m => m.lower

end Tier

variable {tier : Tier}

namespace Op

/-- **`narrow`** — a juxtaposition with the meanings of one tier; any other operator as it is. -/
def narrow (tier : Tier) : Op → Op
  | .juxtapose m => .juxtapose (tier.keep m)
  | op => op

/-- Whether an operator is a plain juxtaposition. -/
def isJuxtaposition : Op → Bool
  | .juxtapose _ => true
  | _ => false

/-- **`Yields`** — an operator is a juxtaposition with meanings on both tiers, or another one in rows that
are all looser than both. -/
def Yields (op : Op) : Prop :=
  op.isContested = true ∨
    op.isJuxtaposition = false ∧ ∀ l ∈ op.levels, l.row < Precedence.productRow

variable {op p q : Op}

theorem isJuxtaposition_narrow (tier : Tier) (op : Op) :
    (op.narrow tier).isJuxtaposition = op.isJuxtaposition := by
  cases op <;> rfl

theorem narrow_of_isJuxtaposition_eq_false (h : op.isJuxtaposition = false) : op.narrow tier = op := by
  cases op with
  | juxtapose m => cases h
  | _ => rfl

/-- An operator that is no juxtaposition is told from others on one tier. -/
theorem narrow_eq_iff (h : q.isJuxtaposition = false) : p.narrow tier = q ↔ p = q := by
  cases p with
  | juxtapose m =>
    constructor
    · rintro rfl
      cases h
    · rintro rfl
      cases h
  | _ => rfl

theorem mem_narrowings_narrow (tier : Tier) (h : op.isContested = true) : op.narrow tier ∈ op.narrowings := by
  obtain ⟨m, rfl, hm⟩ := juxtapose_of_isContested h
  rw [isContested_juxtapose, Bool.and_eq_true] at h
  cases tier <;>
    simp [narrowings, isContested_juxtapose, narrow, Tier.keep, Precedence.readings, h.1, h.2]

theorem levels_narrow (tier : Tier) (h : op.isContested = true) :
    (op.narrow tier).levels = [⟨tier.row, .left⟩] := by
  obtain ⟨m, rfl, hm⟩ := juxtapose_of_isContested h
  rw [isContested_juxtapose, Bool.and_eq_true] at h
  obtain ⟨call, index, multiply⟩ := m
  cases tier <;>
    simp_all [narrow, levels, Tier.keep, Tier.row, Precedence.readings, Meanings.upper, Meanings.lower,
      Meanings.hasUpper, Meanings.hasLower]

namespace Yields

theorem isJuxtaposition_eq_false (h : op.Yields) (hc : op.isContested = false) :
    op.isJuxtaposition = false :=
  (h.resolve_left (by rw [hc]; exact Bool.false_ne_true)).1

theorem row_lt {l : Level} (h : op.Yields) (hc : op.isContested = false) (hl : l ∈ op.levels) :
    l.row < Precedence.productRow :=
  (h.resolve_left (by rw [hc]; exact Bool.false_ne_true)).2 l hl

/-- An operator in looser rows does not apply a juxtaposition on both tiers either. -/
theorem holdsContested_eq_false (h : op.Yields) (hc : op.isContested = false) :
    op.holdsContested = false := by
  rw [Bool.eq_false_iff]
  intro hholds
  have hmem : (⟨Precedence.callRow, .left⟩ : Level) ∈ op.levels := by
    rw [holdsContested_iff.mp hholds]
    exact List.mem_cons_self
  exact absurd (h.row_lt hc hmem) (by decide)

theorem narrow_eq (h : op.Yields) (hc : op.isContested = false) : op.narrow tier = op :=
  narrow_of_isJuxtaposition_eq_false (h.isJuxtaposition_eq_false hc)

theorem narrow_mem (h : op.Yields) (tier : Tier) : op.narrow tier ∈ op.narrowings := by
  cases hc : op.isContested with
  | true => exact mem_narrowings_narrow tier hc
  | false =>
    rw [h.narrow_eq hc, narrowings_of_isContested_eq_false hc]
    exact List.mem_singleton_self op

/-- An operator in looser rows binds less than any juxtaposition does. -/
theorem leftPower_high_lt (h : op.Yields) (hc : op.isContested = false) : op.leftPower.high < 47 := by
  rcases leftPower_eq (h.holdsContested_eq_false hc) with hnone | ⟨⟨row, assoc⟩, hl, heq⟩
  · rw [hnone]
    decide
  · have hrow : row < 23 := h.row_lt hc hl
    rw [heq]
    cases assoc <;> simp only [Level.powers] <;> omega

theorem rightPower_high_lt (h : op.Yields) (hc : op.isContested = false) : op.rightPower.high < 47 := by
  rcases Nat.eq_zero_or_pos op.rightPower.high with hzero | hpos
  · omega
  · obtain ⟨⟨row, assoc⟩, hl, heq⟩ := exists_level_of_rightPower (h.holdsContested_eq_false hc)
      (rightPower_low_le op) (Nat.le_refl _) hpos
    have hrow : row < 23 := h.row_lt hc hl
    rw [← heq]
    cases assoc <;> simp only [Level.powers] <;> omega

end Yields

end Op

/-- An operator on one tier. -/
def Operator.narrow (tier : Tier) (o : Operator) : Operator := ⟨o.op.narrow tier, o.span⟩

@[simp] theorem Operator.op_narrow (tier : Tier) (o : Operator) : (o.narrow tier).op = o.op.narrow tier :=
  rfl

theorem Operator.narrow_of_op {o : Operator} (h : o.op.narrow tier = o.op) : o.narrow tier = o := by
  rw [narrow, h]

/-! ## §2 Expressions -/

namespace Expr

mutual
/-- **`narrow`** — an expression with its juxtapositions on one tier. What is inside operands stays as it
is. -/
def narrow (tier : Tier) : Expr → Expr
  | .binary o l r s => .binary (o.narrow tier) (narrow tier l) (narrow tier r) s
  | .before o e s => .before o (narrow tier e) s
  | .after o e s => .after o (narrow tier e) s
  | .flat o es s => .flat o (narrowAll tier es) s
  | .ambiguous es s => .ambiguous es s
  | .atom a s => .atom a s
  | .block k b es s => .block k b es s
  | .escape es s => .escape es s
  | .istring ps s => .istring ps s
  | .flow arms e s => .flow arms e s
  | .declare k e s => .declare k e s
  | .keyword k e s => .keyword k e s
/-- Expressions with their juxtapositions on one tier. -/
def narrowAll (tier : Tier) : List Expr → List Expr
  | [] => []
  | e :: es => narrow tier e :: narrowAll tier es
end

theorem narrowAll_eq_map (tier : Tier) (es : List Expr) : narrowAll tier es = es.map (narrow tier) := by
  induction es with
  | nil => rw [narrowAll, List.map_nil]
  | cons e es ih => rw [narrowAll, List.map_cons, ih]

@[simp] theorem span_narrow (tier : Tier) (e : Expr) : (e.narrow tier).span = e.span := by
  cases e <;> simp [narrow, span]

@[simp] theorem atom?_narrow (tier : Tier) (e : Expr) : (e.narrow tier).atom? = e.atom? := by
  cases e <;> simp [narrow, atom?]

@[simp] theorem isSemicolon_narrow (tier : Tier) (e : Expr) :
    (e.narrow tier).isSemicolon = e.isSemicolon := by
  rw [isSemicolon, isSemicolon, atom?_narrow]

@[simp] theorem isRangeMark_narrow (tier : Tier) (e : Expr) :
    (e.narrow tier).isRangeMark = e.isRangeMark := by
  rw [isRangeMark, isRangeMark, atom?_narrow]

@[simp] theorem binaryOperator?_narrow (tier : Tier) (e : Expr) :
    (e.narrow tier).binaryOperator? = e.binaryOperator?.map (Operator.narrow tier) := by
  cases e <;> simp [narrow, binaryOperator?]

theorem narrow_of_isOperand {e : Expr} (h : e.IsOperand) : e.narrow tier = e := by
  cases e <;> first | (simp only [narrow]; done) | cases h

theorem spanOfAll_narrow (tier : Tier) (first : Expr) (rest : List Expr) :
    spanOfAll (first.narrow tier) (rest.map (narrow tier)) = spanOfAll first rest := by
  simp [spanOfAll, Function.comp_def]

/-! ## §3 Meanings -/

mutual
/-- **`meanings`** — the meanings of the juxtapositions of an expression, from left to right. -/
def meanings : Expr → List Meanings
  | .binary ⟨.juxtapose m, _⟩ l r _ => meanings l ++ m :: meanings r
  | .binary _ l r _ => meanings l ++ meanings r
  | .before _ e _ | .after _ e _ => meanings e
  | .flat _ es _ => meaningsAll es
  | .ambiguous .. | .atom .. | .block .. | .escape .. | .istring .. | .flow .. | .declare ..
  | .keyword .. => []
/-- The meanings of the juxtapositions of some expressions. -/
def meaningsAll : List Expr → List Meanings
  | [] => []
  | e :: es => meanings e ++ meaningsAll es
end

mutual
/-- **`restore`** — an expression whose juxtapositions are given meanings from left to right, and the
meanings that are left over. -/
def restore : Expr → List Meanings → Expr × List Meanings
  | .binary ⟨.juxtapose m, place⟩ l r s, given =>
    let (l, given) := restore l given
    let (r, rest) := restore r given.tail
    (.binary ⟨.juxtapose (given.headD m), place⟩ l r s, rest)
  | .binary o l r s, given =>
    let (l, given) := restore l given
    let (r, rest) := restore r given
    (.binary o l r s, rest)
  | .before o e s, given =>
    let (e, rest) := restore e given
    (.before o e s, rest)
  | .after o e s, given =>
    let (e, rest) := restore e given
    (.after o e s, rest)
  | .flat o es s, given =>
    let (es, rest) := restoreAll es given
    (.flat o es s, rest)
  | e, given => (e, given)
/-- Expressions whose juxtapositions are given meanings from left to right. -/
def restoreAll : List Expr → List Meanings → List Expr × List Meanings
  | [], given => ([], given)
  | e :: es, given =>
    let (e, given) := restore e given
    let (es, rest) := restoreAll es given
    (e :: es, rest)
end

mutual
/-- **What is brought to one tier is what it was when its meanings are put back.** -/
theorem restore_narrow (tier : Tier) : ∀ (e : Expr) (rest : List Meanings),
    restore (e.narrow tier) (e.meanings ++ rest) = (e, rest)
  | .binary ⟨op, place⟩ l r s, rest => by
    cases op with
    | juxtapose m =>
      have hl := restore_narrow tier l (m :: (r.meanings ++ rest))
      have hr := restore_narrow tier r rest
      simp only [narrow, Operator.narrow, Op.narrow, meanings, restore, List.append_assoc, List.cons_append,
        hl, List.tail_cons, hr, List.headD_cons]
    | _ =>
      have hl := restore_narrow tier l (r.meanings ++ rest)
      have hr := restore_narrow tier r rest
      simp only [narrow, Operator.narrow, Op.narrow, meanings, restore, List.append_assoc, hl, hr]
  | .before o e s, rest => by simp only [narrow, meanings, restore, restore_narrow tier e rest]
  | .after o e s, rest => by simp only [narrow, meanings, restore, restore_narrow tier e rest]
  | .flat o es s, rest => by simp only [narrow, meanings, restore, restoreAll_narrow tier es rest]
  | .ambiguous .., rest | .atom .., rest | .block .., rest | .escape .., rest | .istring .., rest
  | .flow .., rest | .declare .., rest | .keyword .., rest => by
    simp only [narrow, meanings, restore, List.nil_append]
theorem restoreAll_narrow (tier : Tier) : ∀ (es : List Expr) (rest : List Meanings),
    restoreAll (narrowAll tier es) (meaningsAll es ++ rest) = (es, rest)
  | [], rest => by simp only [narrowAll, meaningsAll, restoreAll, List.nil_append]
  | e :: es, rest => by
    simp only [narrowAll, meaningsAll, restoreAll, List.append_assoc,
      restore_narrow tier e (meaningsAll es ++ rest), restoreAll_narrow tier es rest]
end

end Expr

/-! ## §4 Slots and chains -/

/-- A slot with its juxtapositions on one tier. -/
def Slot.narrow (tier : Tier) : Slot → Slot
  | node e => node (e.narrow tier)
  | operator o => operator (o.narrow tier)

@[simp] theorem Slot.operator?_narrow (tier : Tier) (s : Slot) :
    (s.narrow tier).operator? = s.operator?.map (Operator.narrow tier) := by
  cases s <;> rfl

/-- The meanings of the juxtapositions of a slot. -/
def Slot.meanings : Slot → List Meanings
  | node e => e.meanings
  | operator ⟨.juxtapose m, _⟩ => [m]
  | operator _ => []

@[simp] theorem Slot.meanings_node (e : Expr) : (Slot.node e).meanings = e.meanings := rfl

namespace Chain

/-- **`narrow`** — a chain with its juxtapositions on one tier. What is inside operands stays as it is. -/
def narrow (tier : Tier) : Chain → Chain
  | [] => []
  | .operator o :: rest => .operator (o.narrow tier) :: narrow tier rest
  | .operand content span :: rest => .operand content span :: narrow tier rest

/-- The meanings of the juxtapositions of a chain, in order. -/
def meanings : Chain → List Meanings
  | [] => []
  | .operator ⟨.juxtapose m, _⟩ :: rest => m :: meanings rest
  | _ :: rest => meanings rest

/-- **`Yields`** — every juxtaposition of a chain has meanings on both tiers, and all other operators are
looser than both. -/
def Yields (chain : Chain) : Prop := ∀ o, .operator o ∈ chain → o.op.Yields

variable {chain : Chain} {span : Span}

theorem narrows_narrow (tier : Tier) (h : chain.Yields) :
    List.Forall₂ Link.Narrows chain (chain.narrow tier) := by
  induction chain with
  | nil => exact .nil
  | cons link rest ih =>
    have hrest := ih fun o ho => h o (List.mem_cons_of_mem _ ho)
    cases link with
    | operator o => exact .cons (.operator ((h o List.mem_cons_self).narrow_mem tier)) hrest
    | operand content span => exact .cons (.operand content span) hrest

theorem checkShape_narrow (tier : Tier) (h : chain.Yields) (hshape : chain.checkShape = .ok span) :
    (chain.narrow tier).checkShape = .ok span :=
  checkShape_of_narrows (narrows_narrow tier h) hshape

end Chain

namespace Expr

/-- What a chain on one tier is made of is what the chain is made of, on one tier. -/
theorem slotsOf_narrow (tier : Tier) (limit : Nat) (chain : Chain) :
    slotsOf limit (chain.narrow tier) = (slotsOf limit chain).map (List.map (Slot.narrow tier)) := by
  induction chain with
  | nil =>
    rw [Chain.narrow, slotsOf]
    rfl
  | cons link rest ih =>
    cases link with
    | operator o =>
      rw [Chain.narrow, slotsOf, slotsOf, ih]
      cases slotsOf limit rest <;> rfl
    | operand content span =>
      rw [Chain.narrow, slotsOf, slotsOf, ih]
      cases he : ofOperand limit span content with
      | error failure => rfl
      | ok e =>
        cases slotsOf limit rest with
        | error failure => rfl
        | ok slots =>
          show Except.ok _ = Except.ok _
          rw [List.map_cons, Slot.narrow, narrow_of_isOperand (isOperand_of_ofOperand he)]

theorem meanings_of_isOperand {e : Expr} (h : e.IsOperand) : e.meanings = [] := by
  cases e <;> first | (simp only [meanings]; done) | cases h

/-- The juxtapositions of a chain are those of its slots. -/
theorem meanings_slotsOf {limit : Nat} {chain : Chain} {slots : List Slot}
    (h : slotsOf limit chain = .ok slots) : slots.flatMap Slot.meanings = chain.meanings := by
  have hlowers := slotsOf_ok h
  clear h
  induction hlowers with
  | nil => rfl
  | cons hlowers _ ih =>
    cases hlowers with
    | operator o =>
      obtain ⟨op, place⟩ := o
      cases op <;> simp [Slot.meanings, Chain.meanings, ih]
    | operand he =>
      rw [List.flatMap_cons, ih, Slot.meanings, meanings_of_isOperand (isOperand_of_ofOperand he)]
      rfl

end Expr

/-! ## §5 Surveys -/

namespace Reduction

/-- **`Yielding`** — every juxtaposition of a list has meanings on both tiers, and all other operators are
looser than both. -/
def Yielding (slots : List Slot) : Prop := ∀ o, .operator o ∈ slots → o.op.Yields

variable {slots : List Slot} {left right : Option Operator}

theorem settlesTo_narrow (tier : Tier) (h : ∀ o, left = some o → o.op.Yields) :
    SettlesTo left (left.map (Operator.narrow tier)) := by
  cases left with
  | none => exact .none
  | some o => exact .some ((h o rfl).narrow_mem tier)

theorem exists_of_isContested {neighbour : Option Operator} (h : isContested neighbour = true) :
    ∃ o, neighbour = some o ∧ o.op.isContested = true := by
  cases neighbour with
  | none => cases h
  | some o => exact ⟨o, rfl, h⟩

/-- Beside operators of which one is no contested juxtaposition, it is plain which binds harder. -/
theorem compare_ne_none_of_yields (hl : ∀ o, left = some o → o.op.Yields)
    (hr : ∀ o, right = some o → o.op.Yields) (hnot : (isContested left && isContested right) = false) :
    (reachFrom left).compare (reachTo right) ≠ none := by
  have hfrom : isContested left = false → (reachFrom left).high < 47 := by
    intro hc
    cases left with
    | none => exact (by decide : Power.none.high < 47)
    | some o => exact (hl o rfl).rightPower_high_lt hc
  have hto : isContested right = false → (reachTo right).high < 47 := by
    intro hc
    cases right with
    | none => exact (by decide : Power.none.high < 47)
    | some o => exact (hr o rfl).leftPower_high_lt hc
  intro hnone
  obtain ⟨hlow, hhigh, -⟩ := Power.compare_eq_none hnone
  cases hcl : isContested left with
  | true =>
    -- The juxtaposition on the left binds with 48 at least.
    rw [hcl, Bool.true_and] at hnot
    obtain ⟨o, rfl, ho⟩ := exists_of_isContested hcl
    have hpower : reachFrom (some o) = ⟨48, 64⟩ :=
      (Op.powers_of_holdsContested (Op.holdsContested_of_isContested ho)).2
    have hlt := hto hnot
    rw [hpower] at hlow
    dsimp only at hlow
    omega
  | false =>
    cases hcr : isContested right with
    | true =>
      obtain ⟨o, rfl, ho⟩ := exists_of_isContested hcr
      have hpower : reachTo (some o) = ⟨47, 63⟩ :=
        (Op.powers_of_holdsContested (Op.holdsContested_of_isContested ho)).1
      have hlt := hfrom hcl
      rw [hpower] at hhigh
      dsimp only at hhigh
      omega
    | false =>
      refine reach_compare_ne_none (fun o ho => ?_) (fun o ho => ?_) hnone
      · subst ho
        exact (hl o rfl).holdsContested_eq_false hcl
      · subst ho
        exact (hr o rfl).holdsContested_eq_false hcr

/-- Between two juxtapositions of one tier an operand is drawn to the left. -/
theorem pullOf_of_contested (tier : Tier) {e : Expr} (hl : isContested left = true)
    (hr : isContested right = true) :
    pullOf (left.map (Operator.narrow tier)) (right.map (Operator.narrow tier)) (e.narrow tier) =
      pullOf left right e := by
  obtain ⟨o, rfl, ho⟩ := exists_of_isContested hl
  obtain ⟨p, rfl, hp⟩ := exists_of_isContested hr
  have hfrom : reachFrom (some (o.narrow tier)) = ⟨2 * tier.row + 2, 2 * tier.row + 2⟩ :=
    Op.rightPower_of_levels_one (Op.levels_narrow tier ho)
  have hto : reachTo (some (p.narrow tier)) = ⟨2 * tier.row + 1, 2 * tier.row + 1⟩ :=
    Op.leftPower_of_levels_one (Op.levels_narrow tier hp)
  have hcompare : (reachFrom (some (o.narrow tier))).compare (reachTo (some (p.narrow tier))) = some .gt := by
    rw [hfrom, hto, Power.compare, if_pos (Nat.lt_succ_self _)]
  have hbound : (reachFrom (some (o.narrow tier))).isNone = false := by
    rw [hfrom]
    cases tier <;> rfl
  have hsettles : SettlesTo (some o) (some (o.narrow tier)) := .some (Op.mem_narrowings_narrow tier ho)
  rw [pullOf_eq, pullOf_eq, Option.map_some, Option.map_some, Expr.isSemicolon_narrow, hsettles.any_eq,
    hsettles.not_isContested, hl, hr, hbound, hcompare]
  rfl

/-- **An operand is drawn where it is drawn on one tier.** -/
theorem pullOf_narrow (tier : Tier) {pull : Pull} {e : Expr} (hl : ∀ o, left = some o → o.op.Yields)
    (hr : ∀ o, right = some o → o.op.Yields) (h : pullOf left right e = .ok (some pull)) :
    pullOf (left.map (Operator.narrow tier)) (right.map (Operator.narrow tier)) (e.narrow tier) =
      .ok (some pull) := by
  cases hboth : isContested left && isContested right with
  | true =>
    rw [Bool.and_eq_true] at hboth
    exact (pullOf_of_contested tier hboth.1 hboth.2).trans h
  | false =>
    refine pullOf_settled (settlesTo_narrow tier hl) (settlesTo_narrow tier hr)
      (Expr.isSemicolon_narrow tier e) (fun hc => ?_) h
    rw [hc, Bool.true_and] at hboth
    exact hboth

/-- From a place on, every operand is drawn where it is drawn on one tier. -/
theorem surveyFrom_narrow (tier : Tier) {previous : Option Slot} (place : Nat)
    (hp : ∀ o, previous = some (.operator o) → o.op.Yields) (h : Yielding slots) :
    ∃ pulls, surveyFrom previous place slots = .ok (.decided pulls) ∧
      surveyFrom (previous.map (Slot.narrow tier)) place (slots.map (Slot.narrow tier)) =
        .ok (.decided pulls) := by
  induction slots generalizing previous place with
  | nil => exact ⟨[], rfl, rfl⟩
  | cons s rest ih =>
    have hrest : Yielding rest := fun o ho => h o (List.mem_cons_of_mem _ ho)
    have hs : ∀ o, some s = some (.operator o) → o.op.Yields := by
      rintro o ⟨⟩
      exact h o List.mem_cons_self
    obtain ⟨pulls, hpulls, hnarrow⟩ := @ih (some s) (place + 1) hs hrest
    cases s with
    | operator o =>
      exact ⟨.stay :: pulls, bind_ok_iff.mpr ⟨_, hpulls, rfl⟩, bind_ok_iff.mpr ⟨_, hnarrow, rfl⟩⟩
    | node e =>
      have hleft : ∀ o, previous.bind Slot.operator? = some o → o.op.Yields := by
        intro o ho
        obtain ⟨s, hs, hop⟩ := Option.bind_eq_some_iff.mp ho
        exact hp o (by rw [hs, eq_operator_of_operator? hop])
      have hright : ∀ o, rest.head?.bind Slot.operator? = some o → o.op.Yields := by
        intro o ho
        obtain ⟨s, hs, hop⟩ := Option.bind_eq_some_iff.mp ho
        refine hrest o ?_
        rw [← eq_operator_of_operator? hop]
        exact List.mem_of_head? hs
      obtain ⟨pull, hpull⟩ :=
        exists_pullOf_of_comparable e (compare_ne_none_of_yields hleft hright)
      have hpull' := pullOf_narrow tier hleft hright hpull
      have hprevious : (previous.map (Slot.narrow tier)).bind Slot.operator? =
          (previous.bind Slot.operator?).map (Operator.narrow tier) := by
        cases previous <;> simp
      have hnext : (rest.map (Slot.narrow tier)).head?.bind Slot.operator? =
          (rest.head?.bind Slot.operator?).map (Operator.narrow tier) := by
        cases rest <;> simp
      rw [← hprevious, ← hnext] at hpull'
      exact ⟨pull :: pulls, bind_ok_iff.mpr ⟨_, hpull, bind_ok_iff.mpr ⟨_, hpulls, rfl⟩⟩,
        bind_ok_iff.mpr ⟨_, hpull', bind_ok_iff.mpr ⟨_, hnarrow, rfl⟩⟩⟩

/-- **Every operand is drawn where it is drawn on one tier**, and none is contested. -/
theorem survey_narrow (tier : Tier) (h : Yielding slots) :
    ∃ pulls, survey slots = .ok (.decided pulls) ∧
      survey (slots.map (Slot.narrow tier)) = .ok (.decided pulls) :=
  surveyFrom_narrow tier 0 (fun _ ho => nomatch ho) h

end Reduction

end DewyFront
