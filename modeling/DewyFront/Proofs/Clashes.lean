/-
# DewyFront.Proofs.Clashes — operators in themselves, told from the list

An operator that may not stand in itself and sits below the products is one of its own operands
exactly when it stands behind itself in the list and nothing in between lets go of its right operand
for it. Whether a juxtaposition is a call or a product makes no difference to that, as either binds
harder. So what a list is settled to does not matter either: the operator stands in itself in the
trees of all settled lists, or in none.

* §1 operators below the products;
* §2 what an operator keeps on its right;
* §3 from the list to the tree;
* §4 from the tree to the list;
* §5 settled lists.
-/
import DewyFront.Proofs.Nesting

namespace DewyFront

/-! ## §1 Powers -/

namespace Op

variable {op p : Op} {row power : Nat}

/-- All rows of an operator are below a row. -/
def IsBelow (row : Nat) (op : Op) : Prop := ∀ level ∈ op.levels, level.row < row

instance (row : Nat) (op : Op) : Decidable (op.IsBelow row) :=
  inferInstanceAs (Decidable (∀ level ∈ op.levels, level.row < row))

/-- **`Lone`** — an operator below the products that may not stand in itself. It lets go of an operand
on its right for itself. -/
structure Lone (op : Op) : Prop where
  isAlone : op.isAlone = true
  isBinary : op.isBinary = true
  isBefore : op.isBefore = false
  isAfter : op.isAfter = false
  isFlat : op.isFlat = false
  bare : op.holdsContested = false
  right : op.rightPower.low = op.rightPower.high
  left : op.leftPower.low = op.leftPower.high
  succ : op.leftPower.high = op.rightPower.high + 1
  below : op.leftPower.high ≤ 46

theorem lone_of_isBelow (h : op.isAlone = true) (hrow : op.IsBelow Precedence.productRow) :
    op.Lone := by
  obtain ⟨row, hls⟩ := levels_of_assoc (by decide) (by decide) (List.any_eq_true.mp h |>.imp
    fun l hl => ⟨hl.1, of_decide_eq_true hl.2⟩)
  have hlt : row < 23 := hrow ⟨row, .alone⟩ (by rw [hls]; exact List.mem_singleton_self _)
  have hleft := leftPower_of_levels_one hls
  have hright := rightPower_of_levels_one hls
  exact {
    isAlone := h
    isBinary := by simp [Op.isBinary, Level.isBinary, hls]
    isBefore := by simp [Op.isBefore, hls]
    isAfter := by simp [Op.isAfter, hls]
    isFlat := by simp [Op.isFlat, hls]
    bare := by
      refine Bool.eq_false_iff.mpr fun hc => ?_
      rw [holdsContested_iff.mp hc] at hls
      cases hls
    right := by rw [hright]
    left := by rw [hleft]
    succ := by rw [hleft, hright]; rfl
    below := by
      rw [hleft]
      show 2 * row + 2 ≤ 46
      omega }

/-- Between two operands, an operator binds at most a little harder to its right. -/
theorem rightPower_low_le_of_isBinary (h : op.isBinary = true) :
    op.rightPower.low ≤ op.leftPower.high + 1 := by
  obtain ⟨l, hl, hbinary⟩ := isBinary_iff.mp h
  obtain ⟨hbefore, hafter⟩ : l.assoc ≠ .before ∧ l.assoc ≠ .after := by
    simpa [Level.isBinary] using hbinary
  have hlow := (rightPower_bounds hl (Level.powers_snd_pos hafter)).1
  have hhigh := (leftPower_bounds hl (Level.powers_fst_pos hbefore)).2
  have hstep : l.powers.2 ≤ l.powers.1 + 1 := by
    obtain ⟨row, assoc⟩ := l
    cases assoc with
    | before => exact absurd rfl hbefore
    | left | right | after | flat | alone =>
      simp only [Level.powers]
      omega
  omega

/-- An operator behind its operand is above the products. -/
theorem lt_leftPower_of_isAfter (h : op.isAfter = true) : 46 < op.leftPower.high := by
  obtain ⟨row, hls⟩ := levels_of_isAfter h
  have hmem : (⟨row, .after⟩ : Level) ∈ op.levels := hls ▸ List.mem_singleton_self _
  obtain ⟨htabled, hrow⟩ := isTabled_of_mem_levels hmem
  have htable : ∀ n ≤ 32, Assoc.after = Precedence.assocOf n → 46 < 2 * n + 1 := by decide
  rw [leftPower_of_levels_one hls]
  exact htable row hrow htabled

/-- **`Withstands`** — an operator keeps the operand on its right from a power behind that operand. One
that stands behind its operand has none there. -/
def Withstands (power : Nat) (op : Op) : Prop := op.isAfter = true ∨ power < op.rightPower.low

/-- An operator that is not behind its operand keeps that on its right by its power. -/
theorem Withstands.lt (h : op.Withstands power) (hform : op.isBinary = true ∨ op.isBefore = true) :
    power < op.rightPower.low := by
  rcases h with h | h
  · obtain ⟨hbinary, hbefore, -⟩ := forms_of_isAfter h
    rw [hbinary, hbefore] at hform
    rcases hform with hform | hform <;> cases hform
  · exact h

theorem Withstands.lt_high (h : op.Withstands power)
    (hform : op.isBinary = true ∨ op.isBefore = true) : power < op.rightPower.high :=
  Nat.lt_of_lt_of_le (h.lt hform) (rightPower_low_le op)

namespace Lone

theorem not_withstands (h : op.Lone) : ¬ op.Withstands op.rightPower.high := by
  intro hw
  have hlt := hw.lt (.inl h.isBinary)
  rw [h.right] at hlt
  exact Nat.lt_irrefl _ hlt

theorem ne_of_isBefore (h : op.Lone) (hp : p.isBefore = true) : p ≠ op := by
  rintro rfl
  rw [h.isBefore] at hp
  cases hp

theorem ne_of_isAfter (h : op.Lone) (hp : p.isAfter = true) : p ≠ op := by
  rintro rfl
  rw [h.isAfter] at hp
  cases hp

theorem ne_of_isFlat (h : op.Lone) (hp : p.isFlat = true) : p ≠ op := by
  rintro rfl
  rw [h.isFlat] at hp
  cases hp

/-- An operator between two operands that keeps the right one from a lone operator binds the left one
as hard. -/
theorem le_leftPower (h : op.Lone) (hp : p.isBinary = true)
    (hw : p.Withstands op.leftPower.high) : op.rightPower.high ≤ p.leftPower.high := by
  have hlt := hw.lt (.inl hp)
  have hstep := rightPower_low_le_of_isBinary hp
  have hsucc := h.succ
  omega

end Lone

end Op

namespace Climbing

open Reduction

variable {front mid back slots s : List Slot} {left right : Option Op} {op : Op} {o inner : Operator}
  {e t : Expr} {k : Nat}

/-! ## §2 What an operator keeps -/

/-- Every operator of a list keeps its right operand from a power. -/
def Withstand (k : Nat) (slots : List Slot) : Prop := ∀ p, .operator p ∈ slots → p.op.Withstands k

theorem withstand_append {s t : List Slot} :
    Withstand k (s ++ t) ↔ Withstand k s ∧ Withstand k t := by
  simp only [Withstand, List.mem_append, or_imp, forall_and]

theorem withstand_operator_cons {p : Operator} :
    Withstand k (.operator p :: s) ↔ p.op.Withstands k ∧ Withstand k s := by
  simp only [Withstand, List.mem_cons, Slot.operator.injEq, or_imp, forall_and, forall_eq]

theorem withstand_node (e : Expr) : Withstand k [.node e] := by
  intro p hp
  cases List.mem_singleton.mp hp

mutual
/-- **In a tree, every operator keeps its right operand from what stands behind the tree**: else the
tree would end at that operator. -/
theorem Reads.withstand : ∀ {left right : Option Op} {s : List Slot} {e : Expr},
    Reads left s e right → ∀ {k : Nat}, k ≤ 46 → k ≤ (powerTo right).high → Withstand k s
  | _, _, _, _, .operand e, _, _, _ => withstand_node e
  | _, _, _, _, @Reads.binary _ _ s t l r o hbinary _ hl hr _ hright, k, hk, hle => by
    have ho : k < o.op.rightPower.low := Nat.lt_of_le_of_lt hle hright
    have hstep := Op.rightPower_low_le_of_isBinary hbinary
    have hfront : k ≤ (powerTo (some o.op)).high := by
      show k ≤ o.op.leftPower.high
      omega
    exact withstand_append.mpr ⟨hl.withstand hk hfront,
      withstand_operator_cons.mpr ⟨.inr ho, hr.withstand hk hle⟩⟩
  | _, _, _, _, .before _ h hright, _, hk, hle =>
    withstand_operator_cons.mpr ⟨.inr (Nat.lt_of_le_of_lt hle hright), h.withstand hk hle⟩
  | _, _, _, _, @Reads.after _ _ s e o hafter h _, k, hk, _ => by
    have hfront : k ≤ (powerTo (some o.op)).high :=
      Nat.le_trans hk (Nat.le_of_lt (Op.lt_leftPower_of_isAfter hafter))
    exact withstand_append.mpr ⟨h.withstand hk hfront,
      withstand_operator_cons.mpr ⟨.inl hafter, fun p hp => by cases hp⟩⟩
  | _, _, _, _, @Reads.flat _ _ s t e es o last hflat _ h _ hrun, k, hk, hle => by
    have hbinary := Op.isBinary_of_isFlat hflat
    obtain ⟨ho, ht⟩ := hrun.withstand hbinary hk hle
    have hstep := Op.rightPower_low_le_of_isBinary hbinary
    have hfront : k ≤ (powerTo (some o.op)).high := by
      show k ≤ o.op.leftPower.high
      omega
    exact withstand_append.mpr ⟨h.withstand hk hfront,
      withstand_operator_cons.mpr ⟨.inr ho, ht⟩⟩
/-- The operators of a flat run do, and so do those of its operands. -/
theorem ReadsRun.withstand : ∀ {o last : Operator} {s : List Slot} {es : List Expr}
    {right : Option Op}, ReadsRun o s last es right → o.op.isBinary = true → ∀ {k : Nat}, k ≤ 46 →
    k ≤ (powerTo right).high → k < o.op.rightPower.low ∧ Withstand k s
  | _, _, _, _, _, .last h hright _, _, _, hk, hle =>
    ⟨Nat.lt_of_le_of_lt hle hright, h.withstand hk hle⟩
  | _, _, _, _, _, @ReadsRun.more _ s t e es o p last h hp hrun, hbinary, k, hk, hle => by
    obtain ⟨ho, ht⟩ := hrun.withstand (hp ▸ hbinary) hk hle
    have hstep := Op.rightPower_low_le_of_isBinary hbinary
    have hfront : k ≤ (powerTo (some o.op)).high := by
      show k ≤ o.op.leftPower.high
      rw [hp] at ho
      omega
    exact ⟨hp ▸ ho, withstand_append.mpr ⟨h.withstand hk hfront,
      withstand_operator_cons.mpr ⟨.inr ho, ht⟩⟩⟩
end

/-! ## §3 From the list to the tree -/

/-- **`Exposed`** — an operator stands in a list, and nothing in front of it lets go of its right
operand for it. -/
def Exposed (op : Op) : List Slot → Prop
  | [] => False
  | .node _ :: s => Exposed op s
  | .operator q :: s => q.op = op ∨ (q.op.Withstands op.leftPower.high ∧ Exposed op s)

/-- **`Clash`** — an operator stands in a list behind itself, and nothing in between lets go of its
right operand for it. -/
def Clash (op : Op) : List Slot → Prop
  | [] => False
  | .node _ :: s => Clash op s
  | .operator q :: s => (q.op = op ∧ Exposed op s) ∨ Clash op s

theorem exposed_append {s t : List Slot} :
    Exposed op (s ++ t) ↔ Exposed op s ∨ (Withstand op.leftPower.high s ∧ Exposed op t) := by
  induction s with
  | nil => simp [Exposed, Withstand]
  | cons x s ih =>
    cases x with
    | node e =>
      have hnode : Withstand op.leftPower.high (.node e :: s) ↔ Withstand op.leftPower.high s := by
        simp [Withstand]
      rw [List.cons_append, Exposed, Exposed, ih, hnode]
    | operator q =>
      rw [List.cons_append, Exposed, Exposed, ih, withstand_operator_cons, and_or_left, or_assoc,
        and_assoc]

theorem exposed_of_append {s t : List Slot} (h : Exposed op (s ++ t)) : Exposed op s ∨ Exposed op t :=
  (exposed_append.mp h).imp id And.right

theorem Exposed.exists_mem (h : Exposed op s) : ∃ inner, .operator inner ∈ s ∧ inner.op = op := by
  induction s with
  | nil => exact absurd h id
  | cons x s ih =>
    cases x with
    | node e =>
      obtain ⟨inner, hmem, hop⟩ := ih h
      exact ⟨inner, List.mem_cons_of_mem _ hmem, hop⟩
    | operator q =>
      rcases h with hq | ⟨-, h⟩
      · exact ⟨q, List.mem_cons_self, hq⟩
      · obtain ⟨inner, hmem, hop⟩ := ih h
        exact ⟨inner, List.mem_cons_of_mem _ hmem, hop⟩

theorem Clash.append_right {t : List Slot} (h : Clash op t) (s : List Slot) : Clash op (s ++ t) := by
  induction s with
  | nil => exact h
  | cons x s ih =>
    cases x with
    | node e => exact ih
    | operator q => exact .inr ih

theorem Clash.append_left (h : Clash op s) (t : List Slot) : Clash op (s ++ t) := by
  induction s with
  | nil => exact absurd h id
  | cons x s ih =>
    cases x with
    | node e => exact ih h
    | operator q => exact h.imp (fun h => ⟨h.1, exposed_append.mpr (.inl h.2)⟩) ih

theorem Clash.of_part (h : Clash op s) (hs : s <:+: slots) : Clash op slots := by
  obtain ⟨front, back, rfl⟩ := hs
  exact (h.append_right front).append_left back

/-- What clashes in two lists clashes in one of them, or is exposed in the second behind itself. -/
theorem clash_of_append {s t : List Slot} (h : Clash op (s ++ t)) :
    Clash op s ∨ ((∃ o, .operator o ∈ s ∧ o.op = op) ∧ Exposed op t) ∨ Clash op t := by
  induction s with
  | nil => exact .inr (.inr h)
  | cons x s ih =>
    have hlift : (∃ o, .operator o ∈ s ∧ o.op = op) → ∃ o, .operator o ∈ x :: s ∧ o.op = op :=
      fun ⟨o, ho, hop⟩ => ⟨o, List.mem_cons_of_mem _ ho, hop⟩
    cases x with
    | node e => exact (ih h).imp id (Or.imp (And.imp hlift id) id)
    | operator q =>
      rcases h with ⟨hq, hexposed⟩ | h
      · rcases exposed_append.mp hexposed with hexposed | ⟨-, hexposed⟩
        · exact .inl (.inl ⟨hq, hexposed⟩)
        · exact .inr (.inl ⟨⟨q, List.mem_cons_self, hq⟩, hexposed⟩)
      · exact (ih h).imp .inr (Or.imp (And.imp hlift id) id)

/-- A tree in front of an operator that binds as hard as a lone operator has none of those. -/
theorem Reads.ne_of_lone {q : Op} (h : Reads left s e (some q)) (hlone : op.Lone)
    (hq : op.rightPower.high ≤ q.leftPower.high) : ∀ o, .operator o ∈ s → o.op ≠ op := by
  rintro o ho rfl
  have hbelow : o.op.rightPower.high ≤ 46 := by
    have hsucc := hlone.succ
    have hle := hlone.below
    omega
  exact hlone.not_withstands (h.withstand hbelow hq o ho)

mutual
/-- **No lone operator is exposed in what an operator in front binds harder.** -/
theorem Reads.not_exposed (hlone : op.Lone) : ∀ {left right : Option Op} {s : List Slot} {e : Expr},
    Reads left s e right → op.leftPower.high < (powerFrom left).high → ¬ Exposed op s
  | _, _, _, _, .operand e, _ => id
  | _, _, _, _, @Reads.binary _ _ s t l r q hbinary _ hl hr hleft _, hlt => by
    intro hexposed
    rcases exposed_of_append hexposed with hexposed | hq | ⟨hw, hexposed⟩
    · exact hl.not_exposed hlone hlt hexposed
    · rw [hq, hlone.left] at hleft
      omega
    · exact hr.not_exposed hlone (hw.lt_high (.inl hbinary)) hexposed
  | _, _, _, _, @Reads.before _ _ s e q hbefore h _, _ => by
    intro hexposed
    rcases hexposed with hq | ⟨hw, hexposed⟩
    · exact hlone.ne_of_isBefore hbefore hq
    · exact h.not_exposed hlone (hw.lt_high (.inr hbefore)) hexposed
  | _, _, _, _, @Reads.after _ _ s e q hafter h _, hlt => by
    intro hexposed
    rcases exposed_of_append hexposed with hexposed | hq | ⟨-, hnil⟩
    · exact h.not_exposed hlone hlt hexposed
    · exact hlone.ne_of_isAfter hafter hq
    · exact hnil
  | _, _, _, _, @Reads.flat _ _ s t e es q last hflat _ h _ hrun, hlt => by
    intro hexposed
    rcases exposed_of_append hexposed with hexposed | hq | ⟨hw, hexposed⟩
    · exact h.not_exposed hlone hlt hexposed
    · exact hlone.ne_of_isFlat hflat hq
    · exact hrun.not_exposed hlone hflat hw hexposed
/-- None is in a flat run either. -/
theorem ReadsRun.not_exposed (hlone : op.Lone) : ∀ {q last : Operator} {s : List Slot}
    {es : List Expr} {right : Option Op}, ReadsRun q s last es right → q.op.isFlat = true →
    q.op.Withstands op.leftPower.high → ¬ Exposed op s
  | _, _, _, _, _, .last h _ _, hflat, hw =>
    h.not_exposed hlone (hw.lt_high (.inl (Op.isBinary_of_isFlat hflat)))
  | _, _, _, _, _, @ReadsRun.more _ s t e es q p last h hp hrun, hflat, hw => by
    intro hexposed
    rcases exposed_of_append hexposed with hexposed | hp' | ⟨-, hexposed⟩
    · exact h.not_exposed hlone (hw.lt_high (.inl (Op.isBinary_of_isFlat hflat))) hexposed
    · exact hlone.ne_of_isFlat hflat (hp ▸ hp')
    · exact hrun.not_exposed hlone (hp ▸ hflat) (hp ▸ hw) hexposed
end

/-- **A lone operator that is exposed behind itself is at the top of the tree there.** -/
theorem Reads.binaryOperator?_of_exposed (hlone : op.Lone) (h : Reads (some op) s e right)
    (hexposed : Exposed op s) : ∃ inner, e.binaryOperator? = some inner ∧ inner.op = op := by
  generalize hop : some op = left at h
  cases h with
  | operand e => exact absurd hexposed id
  | @binary _ _ s t l r q hbinary hflat hl hr hleft hright =>
    subst hop
    have hq : op.rightPower.high < q.op.leftPower.low := hleft
    rcases exposed_of_append hexposed with hexposed | hsame | ⟨hw, hexposed⟩
    · obtain ⟨inner, hmem, hinner⟩ := hexposed.exists_mem
      have hlow := Op.leftPower_low_le q.op
      exact absurd hinner (hl.ne_of_lone hlone (by omega) inner hmem)
    · exact ⟨q, rfl, hsame⟩
    · exact absurd hexposed (hr.not_exposed hlone (hw.lt_high (.inl hbinary)))
  | @before _ _ s e q hbefore h hright =>
    rcases hexposed with hsame | ⟨hw, hexposed⟩
    · exact absurd hsame (hlone.ne_of_isBefore hbefore)
    · exact absurd hexposed (h.not_exposed hlone (hw.lt_high (.inr hbefore)))
  | @after _ _ s e q hafter h hleft =>
    subst hop
    have hq : op.rightPower.high < q.op.leftPower.low := hleft
    rcases exposed_of_append hexposed with hexposed | hsame | ⟨-, hnil⟩
    · obtain ⟨inner, hmem, hinner⟩ := hexposed.exists_mem
      have hlow := Op.leftPower_low_le q.op
      exact absurd hinner (h.ne_of_lone hlone (by omega) inner hmem)
    · exact absurd hsame (hlone.ne_of_isAfter hafter)
    · exact absurd hnil id
  | @flat _ _ s t e es q last hflat hne h hleft hrun =>
    subst hop
    have hq : op.rightPower.high < q.op.leftPower.low := hleft
    rcases exposed_of_append hexposed with hexposed | hsame | ⟨hw, hexposed⟩
    · obtain ⟨inner, hmem, hinner⟩ := hexposed.exists_mem
      have hlow := Op.leftPower_low_le q.op
      exact absurd hinner (h.ne_of_lone hlone (by omega) inner hmem)
    · exact absurd hsame (hlone.ne_of_isFlat hflat)
    · exact absurd hexposed (hrun.not_exposed hlone hflat hw)

/-- An operator whose right operand is made with the same operator is in itself. -/
theorem nests_binaryNode {l r : Expr} {o inner : Operator} (hlone : o.op.isAlone = true)
    (hr : r.binaryOperator? = some inner) (hsame : inner.op = o.op) :
    (binaryNode o l r).nests ([·]) = true := by
  have hclash : Expr.clashes ([·]) o r = true := by
    simp [Expr.clashes, hlone, hr, hsame]
  rw [binaryNode, Expr.nests, hclash, Bool.or_true, Bool.true_or, Bool.true_or]

mutual
/-- **A lone operator that clashes in a list is in itself in the tree.** -/
theorem Reads.nests_of_clash (hlone : op.Lone) : ∀ {left right : Option Op} {s : List Slot}
    {e : Expr}, Reads left s e right → Clash op s → e.nests ([·]) = true
  | _, _, _, _, .operand e, hclash => absurd hclash id
  | _, _, _, _, @Reads.binary _ _ s t l r q hbinary _ hl hr _ _, hclash => by
    rcases clash_of_append hclash with hclash | ⟨⟨o, ho, hop⟩, hq⟩ | ⟨hsame, hexposed⟩ | hclash
    · rw [binaryNode, Expr.nests, hl.nests_of_clash hlone hclash, Bool.or_true, Bool.true_or]
    · have hle : op.rightPower.high ≤ q.op.leftPower.high := by
        rcases hq with rfl | ⟨hw, -⟩
        · rw [hlone.succ]
          exact Nat.le_succ _
        · exact hlone.le_leftPower hbinary hw
      exact absurd hop (hl.ne_of_lone hlone hle o ho)
    · subst hsame
      obtain ⟨inner, hinner, heq⟩ := hr.binaryOperator?_of_exposed hlone hexposed
      exact nests_binaryNode hlone.isAlone hinner heq
    · rw [binaryNode, Expr.nests, hr.nests_of_clash hlone hclash, Bool.or_true]
  | _, _, _, _, @Reads.before _ _ s e q hbefore h _, hclash => by
    rw [Expr.nests]
    rcases hclash with ⟨hsame, -⟩ | hclash
    · exact absurd hsame (hlone.ne_of_isBefore hbefore)
    · exact h.nests_of_clash hlone hclash
  | _, _, _, _, @Reads.after _ _ s e q hafter h _, hclash => by
    rw [Expr.nests]
    rcases clash_of_append hclash with hclash | ⟨-, hsame | ⟨-, hnil⟩⟩ | ⟨-, hnil⟩ | hnil
    · exact h.nests_of_clash hlone hclash
    · exact absurd hsame (hlone.ne_of_isAfter hafter)
    · exact absurd hnil id
    · exact absurd hnil id
    · exact absurd hnil id
  | _, _, _, _, @Reads.flat _ _ s t e es q last hflat _ h _ hrun, hclash => by
    rw [Expr.nests, Expr.nestsAny]
    rcases clash_of_append hclash with hclash | ⟨⟨o, ho, hop⟩, hsame | ⟨hw, -⟩⟩ | ⟨hsame, -⟩ | hclash
    · rw [h.nests_of_clash hlone hclash, Bool.true_or]
    · exact absurd hsame (hlone.ne_of_isFlat hflat)
    · have hle := hlone.le_leftPower (Op.isBinary_of_isFlat hflat) hw
      exact absurd hop (h.ne_of_lone hlone hle o ho)
    · exact absurd hsame (hlone.ne_of_isFlat hflat)
    · rw [hrun.nests_of_clash hlone hflat hclash, Bool.or_true]
/-- One that clashes in a flat run is in itself in an operand of the run. -/
theorem ReadsRun.nests_of_clash (hlone : op.Lone) : ∀ {q last : Operator} {s : List Slot}
    {es : List Expr} {right : Option Op}, ReadsRun q s last es right → q.op.isFlat = true →
    Clash op s → Expr.nestsAny ([·]) es = true
  | _, _, _, _, _, .last h _ _, _, hclash => by
    rw [Expr.nestsAny, h.nests_of_clash hlone hclash, Bool.true_or]
  | _, _, _, _, _, @ReadsRun.more _ s t e es q p last h hp hrun, hflat, hclash => by
    rw [Expr.nestsAny]
    rcases clash_of_append hclash with hclash | ⟨⟨o, ho, hop⟩, hsame | ⟨hw, -⟩⟩ | ⟨hsame, -⟩ | hclash
    · rw [h.nests_of_clash hlone hclash, Bool.true_or]
    · exact absurd (hp ▸ hsame) (hlone.ne_of_isFlat hflat)
    · have hle := hlone.le_leftPower (Op.isBinary_of_isFlat hflat) (hp ▸ hw)
      exact absurd hop (h.ne_of_lone hlone hle o ho)
    · exact absurd (hp ▸ hsame) (hlone.ne_of_isFlat hflat)
    · rw [hrun.nests_of_clash hlone (hp ▸ hflat) hclash, Bool.or_true]
end

/-! ## §4 From the tree to the list -/

/-- **`Plain`** — a list whose nodes are operands. -/
def Plain (slots : List Slot) : Prop := ∀ e, .node e ∈ slots → e.IsOperand

theorem Plain.of_part (h : Plain slots) (hs : s <:+: slots) : Plain s :=
  fun e he => h e (hs.subset he)

theorem operands_of_isOperand (h : e.IsOperand) : e.operands = [] := by
  cases e <;> first | rfl | exact absurd h id

/-- Every operand of a flat run reads a part of its list. -/
theorem ReadsRun.exists_reads : ∀ {o last : Operator} {s : List Slot} {es : List Expr}
    {right : Option Op}, ReadsRun o s last es right → ∀ e ∈ es,
    ∃ left' s' right', s' <:+: s ∧ Reads left' s' e right'
  | _, _, _, _, _, .last h _ _, _, he => by
    obtain rfl := List.mem_singleton.mp he
    exact ⟨_, _, _, List.infix_rfl, h⟩
  | _, _, _, _, _, @ReadsRun.more _ s t e' es o p _ h hp hrun, _, he => by
    rcases List.mem_cons.mp he with rfl | he
    · exact ⟨_, _, _, (List.prefix_append _ _).isInfix, h⟩
    · obtain ⟨left', s', right', hs', hreads⟩ := hrun.exists_reads _ he
      have hsuffix : t <:+ s ++ .operator p :: t :=
        (List.suffix_cons _ _).trans (List.suffix_append _ _)
      exact ⟨left', s', right', hs'.trans hsuffix.isInfix, hreads⟩

/-- Every operand of a tree reads a part of its list. -/
theorem Reads.exists_reads {c : Expr} (h : Reads left s e right) (hs : Plain s)
    (hc : c ∈ e.operands) : ∃ left' s' right', s' <:+: s ∧ Reads left' s' c right' := by
  cases h with
  | operand e =>
    rw [operands_of_isOperand (hs e (List.mem_singleton_self _))] at hc
    cases hc
  | @binary _ _ s t l r o hbinary hflat hl hr hleft hright =>
    have hsuffix : t <:+ s ++ .operator o :: t :=
      (List.suffix_cons _ _).trans (List.suffix_append _ _)
    have hc : c = l ∨ c = r := by simpa [binaryNode, Expr.operands] using hc
    rcases hc with rfl | rfl
    · exact ⟨_, _, _, (List.prefix_append _ _).isInfix, hl⟩
    · exact ⟨_, _, _, hsuffix.isInfix, hr⟩
  | before hbefore h hright =>
    obtain rfl := List.mem_singleton.mp hc
    exact ⟨_, _, _, (List.suffix_cons _ _).isInfix, h⟩
  | after hafter h hleft =>
    obtain rfl := List.mem_singleton.mp hc
    exact ⟨_, _, _, (List.prefix_append _ _).isInfix, h⟩
  | @flat _ _ s t e es o last hflat hne h hleft hrun =>
    rcases List.mem_cons.mp hc with rfl | hc
    · exact ⟨_, _, _, (List.prefix_append _ _).isInfix, h⟩
    · obtain ⟨left', s', right', hs', hreads⟩ := hrun.exists_reads _ hc
      have hsuffix : t <:+ s ++ .operator o :: t :=
        (List.suffix_cons _ _).trans (List.suffix_append _ _)
      exact ⟨left', s', right', hs'.trans hsuffix.isInfix, hreads⟩

/-- **Every part of a tree reads a part of its list.** -/
theorem Reads.exists_reads_of_hasPart {part : Expr} (h : Reads left s e right) (hs : Plain s)
    (hpart : e.HasPart part) : ∃ left' s' right', s' <:+: s ∧ Reads left' s' part right' := by
  induction hpart with
  | refl => exact ⟨left, s, right, List.infix_rfl, h⟩
  | tail _ hc ih =>
    obtain ⟨left', s', right', hs', hreads⟩ := ih
    obtain ⟨left'', s'', right'', hs'', hreads'⟩ := hreads.exists_reads (hs.of_part hs') hc
    exact ⟨left'', s'', right'', hs''.trans hs', hreads'⟩

/-- What a node between two operands reads is what its operands read, with its operator between. -/
theorem Reads.binary_cases {l r : Expr} {span : Span} (h : Reads left s (.binary o l r span) right)
    (hs : Plain s) : ∃ front back, s = front ++ .operator o :: back ∧
      Reads left front l (some o.op) ∧ Reads (some o.op) back r right ∧
      (powerTo right).high < o.op.rightPower.low := by
  generalize he : Expr.binary o l r span = e at h
  cases h with
  | operand e =>
    subst he
    exact absurd (hs _ (List.mem_singleton_self _)) id
  | binary hbinary hflat hl hr hleft hright =>
    cases he
    exact ⟨_, _, rfl, hl, hr, hright⟩
  | before | after | flat => cases he

/-- **A lone operator that is in itself in a tree clashes in the list.** -/
theorem clash_of_accounts {middle : List Slot} (hlone : o.op.Lone) (h : Reads none slots t none)
    (hs : Plain slots) (haccounts : Accounts middle t (.nestedOperator o inner)) :
    Clash o.op slots := by
  cases haccounts with
  | @nested _ _ l r child span halone hpart hchild hinner hsame =>
    obtain ⟨left, s, right, hinfix, hreads⟩ := h.exists_reads_of_hasPart hs hpart
    have hplain := hs.of_part hinfix
    obtain ⟨front, back, rfl, hl, hr, -⟩ := hreads.binary_cases hplain
    have hfront : front <:+: front ++ .operator o :: back := (List.prefix_append _ _).isInfix
    have hback : back <:+: front ++ .operator o :: back :=
      ((List.suffix_cons _ _).trans (List.suffix_append _ _)).isInfix
    cases child with
    | binary q a b span' =>
      obtain rfl : q = inner := Option.some.inj hinner
      rcases hchild with rfl | rfl
      · -- on its left a lone operator binds harder than on its right
        obtain ⟨-, -, -, -, -, hlt⟩ := hl.binary_cases (hplain.of_part hfront)
        have hlt : o.op.leftPower.high < q.op.rightPower.low := hlt
        rw [hsame, hlone.right, hlone.succ] at hlt
        omega
      · obtain ⟨mid, rest, rfl, hmid, -, -⟩ := hr.binary_cases (hplain.of_part hback)
        have hwithstand : Withstand o.op.leftPower.high mid := by
          refine hmid.withstand hlone.below ?_
          rw [hsame]
          exact Nat.le_refl _
        have hexposed : Exposed o.op (mid ++ .operator q :: rest) :=
          exposed_append.mpr (.inr ⟨hwithstand, .inl hsame⟩)
        have hclash : Clash o.op (.operator o :: (mid ++ .operator q :: rest)) :=
          .inl ⟨rfl, hexposed⟩
        exact (hclash.append_right front).of_part hinfix
    | _ => cases hinner

/-! ## §5 Settled lists -/

/-- Settling a list leaves what its operators keep from an operator below the products. -/
theorem withstands_iff_of_mem_narrowings {p p' : Op} (hp : p' ∈ p.narrowings)
    (hk : k ≤ 46) : p'.Withstands k ↔ p.Withstands k := by
  cases hc : p.isContested with
  | false =>
    rw [Op.narrowings_of_isContested_eq_false hc, List.mem_singleton] at hp
    rw [hp]
  | true =>
    obtain ⟨l, hl, hls, -⟩ := Op.levels_of_mem_narrowings hp hc
    rw [Op.holdsContested_iff.mp (Op.holdsContested_of_isContested hc)] at hl
    have hpower := (Op.powers_of_holdsContested (Op.holdsContested_of_isContested hc)).2
    have hleft : k < p.rightPower.low := by
      rw [hpower]
      show k < 48
      omega
    have hright : k < p'.rightPower.low := by
      rw [Op.rightPower_of_levels_one hls]
      rcases List.mem_cons.mp hl with rfl | hl
      · show k < 64
        omega
      · obtain rfl := List.mem_singleton.mp hl
        show k < 48
        omega
    exact ⟨fun _ => .inr hleft, fun _ => .inr hright⟩

theorem eq_iff_of_mem_narrowings {p p' : Op} (hlone : op.Lone) (hp : p' ∈ p.narrowings) :
    p' = op ↔ p = op := by
  cases hc : p.isContested with
  | false =>
    rw [Op.narrowings_of_isContested_eq_false hc, List.mem_singleton] at hp
    rw [hp]
  | true =>
    obtain ⟨l, -, hls, hassoc⟩ := Op.levels_of_mem_narrowings hp hc
    constructor
    · rintro rfl
      have halone := hlone.isAlone
      simp [Op.isAlone, hls, hassoc] at halone
    · rintro rfl
      have hbare := hlone.bare
      rw [Op.holdsContested_of_isContested hc] at hbare
      cases hbare

variable {narrowed : List Slot}

/-- A lone operator is exposed in all settled lists, or in none. -/
theorem exposed_iff_of_varies (hlone : op.Lone) (h : VariesAll Op.narrowings slots narrowed) :
    Exposed op narrowed ↔ Exposed op slots := by
  induction h with
  | nil => rfl
  | cons hslot _ ih =>
    cases hslot with
    | node he => exact ih
    | operator hp =>
      rw [Exposed, Exposed, ih, eq_iff_of_mem_narrowings hlone hp,
        withstands_iff_of_mem_narrowings hp hlone.below]

/-- **A lone operator clashes in all settled lists, or in none.** -/
theorem clash_iff_of_varies (hlone : op.Lone) (h : VariesAll Op.narrowings slots narrowed) :
    Clash op narrowed ↔ Clash op slots := by
  induction h with
  | nil => rfl
  | cons hslot hrest ih =>
    cases hslot with
    | node he => exact ih
    | operator hp =>
      rw [Clash, Clash, ih, eq_iff_of_mem_narrowings hlone hp, exposed_iff_of_varies hlone hrest]

end Climbing

end DewyFront
