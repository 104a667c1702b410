/-
# DewyFront.Proofs.BetweenForks — products, and juxtapositions that may be products or calls

An operator may bind its right operand harder than a product and not as hard as a call. In front of a
juxtaposition that may be either, it is not decided then where that operand goes, so the list is forked
there. With a call, the operand is called and the list is forked at the next juxtaposition; with a product,
the next juxtaposition is reached at once. So between two forks the list is always of one form: an operand,
that operator with its own, some products, and what is still to settle.

* §1 the rows of the operators;
* §2 calls, then the operator, then products;
* §3 the list between two forks;
* §4 what either copy of a fork comes to.
-/
import DewyFront.Proofs.Alternating
import DewyFront.Proofs.Tiers

namespace DewyFront

open Reduction Reading

/-! ## §1 Rows -/

namespace Op

/-- **`SitsOn`** — an operator sits in the row of a tier and nowhere else. -/
def SitsOn (tier : Tier) (op : Op) : Prop := op.levels = [⟨tier.row, .left⟩]

/-- **`IsBetween`** — an operator binds its right operand harder than products, and not as hard as
calls. -/
def IsBetween (op : Op) : Prop := 47 < op.rightPower.low ∧ op.rightPower.high < 63

variable {op p q : Op} {tier : Tier}

theorem isContested_of_levels_one {l : Level} (h : op.levels = [l]) : op.isContested = false := by
  apply isContested_of_holdsContested_eq_false
  rw [Bool.eq_false_iff]
  intro hc
  rw [holdsContested_iff, h] at hc
  simp at hc

theorem SitsOn.leftPower (h : op.SitsOn tier) : op.leftPower = ⟨2 * tier.row + 1, 2 * tier.row + 1⟩ :=
  leftPower_of_levels_one h

theorem SitsOn.rightPower (h : op.SitsOn tier) : op.rightPower = ⟨2 * tier.row + 2, 2 * tier.row + 2⟩ :=
  rightPower_of_levels_one h

theorem SitsOn.isBetween (h : op.SitsOn .lower) : op.IsBetween := by
  rw [IsBetween, h.rightPower]
  decide

theorem isBetween_typeParam : (Op.bond .typeParam).IsBetween := by
  unfold IsBetween
  decide

theorem isBinary_of_isContested (h : op.isContested = true) : ∀ l ∈ op.levels, l.isBinary = true := by
  rw [holdsContested_iff.mp (holdsContested_of_isContested h)]
  decide

end Op

namespace Reduction

variable {o p c j : Operator} {a b g x : Expr} {mid rest links : List (Operator × Expr)}

theorem Admits.exists_levels (h : Admits o a b) : ∃ l, o.op.levels = [l] ∧ l.isBinary = true := by
  obtain ⟨row, h | ⟨h, -⟩⟩ := h <;> exact ⟨_, h, rfl⟩

theorem Admits.isBinary (h : Admits o a b) : ∀ l ∈ o.op.levels, l.isBinary = true := by
  obtain ⟨l, hlevels, hl⟩ := h.exists_levels
  rw [hlevels]
  simpa using hl

theorem Admits.isContested (h : Admits o a b) : o.op.isContested = false := by
  obtain ⟨l, hlevels, -⟩ := h.exists_levels
  exact Op.isContested_of_levels_one hlevels

/-- The first operand of a run is drawn to its operator. -/
theorem Admits.drawnRight (h : Admits o a b) : DrawnRight none (some o) := by
  obtain ⟨l, hlevels, hl⟩ := h.exists_levels
  have hpos : 0 < l.powers.1 := Level.powers_fst_pos fun hbefore => by simp [Level.isBinary, hbefore] at hl
  show 0 < o.op.leftPower.low
  rw [Op.leftPower_of_levels_one hlevels]
  exact hpos

theorem admits_of_sitsOn {tier : Tier} (h : o.op.SitsOn tier) (a b : Expr) : Admits o a b :=
  ⟨tier.row, .inl h⟩

/-- An operand that is called may still be taken by the operator in front of it. -/
theorem Admits.call (h : Admits o a g) (hc : c.op.SitsOn .upper) (x : Expr) :
    Admits o a (binaryNode c g x) := by
  obtain ⟨row, hlevels | ⟨hlevels, ha, -⟩⟩ := h
  · exact ⟨row, .inl hlevels⟩
  · refine ⟨row, .inr ⟨hlevels, ha, if_neg fun heq => ?_⟩⟩
    have hsame : [(⟨Tier.upper.row, .left⟩ : Level)] = [⟨row, .alone⟩] := by
      rw [← hc, ← hlevels, heq]
    cases hsame

/-- Between products, or behind the parameters, an operand is drawn to the left by all but calls. -/
theorem drawnLeft_product (ho : o.op.IsBetween) (hp : p.op.SitsOn .lower) :
    DrawnLeft (some o) (some p) := by
  right
  show p.op.leftPower.high < o.op.rightPower.low
  rw [hp.leftPower]
  exact ho.1

theorem drawnLeft_end (ho : 0 < o.op.rightPower.low) : DrawnLeft (some o) none := .inr ho

/-- An operand that is called is drawn to the call. -/
theorem drawnRight_call (ho : o.op.IsBetween) (hc : c.op.SitsOn .upper) :
    DrawnRight (some o) (some c) := by
  show o.op.rightPower.high < c.op.leftPower.low
  rw [hc.leftPower]
  exact ho.2

/-- In front of a juxtaposition that may be a call or a product it is not decided where an operand is
drawn to. -/
theorem pullOf_of_between (hg : g.isSemicolon = false) (ho : o.op.IsBetween)
    (hno : o.op.isContested = false) (hj : j.op.isContested = true) :
    pullOf (some o) (some j) g = .ok none := by
  have hpowers := (Op.powers_of_holdsContested (Op.holdsContested_of_isContested hj)).1
  have hle := Op.rightPower_low_le o.op
  obtain ⟨hlow, hhigh⟩ := ho
  have hcompare : (reachFrom (some o)).compare (reachTo (some j)) = none := by
    simp only [reachFrom, reachTo, Option.elim, hpowers, Power.compare]
    rw [if_neg (by omega), if_neg (by omega), if_neg]
    rintro ⟨-, heq⟩
    rw [heq] at hlow
    exact Nat.lt_irrefl _ hlow
  have hto : (reachTo (some j)).isNone = false := by
    simp only [reachTo, Option.elim, hpowers]
    rfl
  have hcontested : Reduction.isContested (some o) = false := hno
  rw [pullOf_eq, hg, hcontested, hto, hcompare]
  simp

end Reduction

/-! ## §2 Groups -/

namespace Expr

/-- **`grouped done head links`** — the links behind `head` with a tier for each juxtaposition: calls are
made of what stands directly in front of them, and a product is formed of all that stands in front of it,
once `done` has taken what is called. -/
def grouped (done : Expr → Expr) (head : Expr) : List (Tier × Operator × Expr) → Expr
  | [] => done head
  | (.upper, o, x) :: links => grouped done (binaryNode (o.narrow .upper) head x) links
  | (.lower, o, x) :: links => grouped (binaryNode (o.narrow .lower) (done head)) x links

/-- **`groupedRun a o g mid links`** — the same behind a run whose operators keep their left operand. -/
def groupedRun (a : Expr) (o : Operator) (g : Expr) :
    List (Operator × Expr) → List (Tier × Operator × Expr) → Expr
  | [], links => grouped (binaryNode o a) g links
  | (p, h) :: mid, links => groupedRun (binaryNode o a g) p h mid links

/-- **`callLast c x g mid`** — a run with a call made of its last operand. -/
def callLast (c : Operator) (x : Expr) : Expr → List (Operator × Expr) → Expr × List (Operator × Expr)
  | g, [] => (binaryNode c g x, [])
  | g, (o, h) :: mid => (g, (o, (callLast c x h mid).1) :: (callLast c x h mid).2)

/-- **`IsGrouping`** — an expression groups a run and the links behind it by some choice of tiers. -/
def IsGrouping (a : Expr) (o : Operator) (g : Expr) (mid links : List (Operator × Expr)) (v : Expr) : Prop :=
  ∃ tiers : List Tier, tiers.length = links.length ∧ v = groupedRun a o g mid (tiers.zip links)

variable {a g v x : Expr} {o j : Operator} {mid links : List (Operator × Expr)}

theorem groupedRun_upper (links : List (Tier × Operator × Expr)) :
    groupedRun a o g mid ((.upper, j, x) :: links) =
      groupedRun a o (callLast (j.narrow .upper) x g mid).1 (callLast (j.narrow .upper) x g mid).2 links := by
  induction mid generalizing a o g with
  | nil => rfl
  | cons q mid ih =>
    obtain ⟨p, h⟩ := q
    exact ih

theorem groupedRun_lower (links : List (Tier × Operator × Expr)) :
    groupedRun a o g mid ((.lower, j, x) :: links) =
      groupedRun a o g (mid ++ [(j.narrow .lower, x)]) links := by
  induction mid generalizing a o g with
  | nil => rfl
  | cons q mid ih =>
    obtain ⟨p, h⟩ := q
    exact ih

theorem isGrouping_nil : IsGrouping a o g mid [] v ↔ v = groupedRun a o g mid [] := by
  simp [IsGrouping]

theorem isGrouping_cons : IsGrouping a o g mid ((j, x) :: links) v ↔
    IsGrouping a o (callLast (j.narrow .upper) x g mid).1 (callLast (j.narrow .upper) x g mid).2 links v ∨
      IsGrouping a o g (mid ++ [(j.narrow .lower, x)]) links v := by
  constructor
  · rintro ⟨tiers, hlength, rfl⟩
    cases tiers with
    | nil => cases hlength
    | cons tier tiers =>
      rw [List.zip_cons_cons]
      cases tier with
      | upper => exact .inl ⟨tiers, Nat.succ.inj hlength, groupedRun_upper _⟩
      | lower => exact .inr ⟨tiers, Nat.succ.inj hlength, groupedRun_lower _⟩
  · rintro (⟨tiers, hlength, rfl⟩ | ⟨tiers, hlength, rfl⟩)
    · exact ⟨.upper :: tiers, congrArg Nat.succ hlength, (groupedRun_upper _).symm⟩
    · exact ⟨.lower :: tiers, congrArg Nat.succ hlength, (groupedRun_lower _).symm⟩

end Expr

/-! ## §3 Between two forks -/

namespace Expr

/-- **`IsPlain`** — an expression that is no semicolon and has nothing left to be decided. -/
def IsPlain (e : Expr) : Prop := e.isSemicolon = false ∧ e.variants Op.narrowings = [e]

theorem IsPlain.binaryNode {l r : Expr} {o : Operator} (hl : l.IsPlain) (hr : r.IsPlain)
    (ho : o.op.isContested = false) : (Reduction.binaryNode o l r).IsPlain := by
  refine ⟨rfl, ?_⟩
  rw [Reduction.binaryNode, variants, Op.narrowings_of_isContested_eq_false ho, hl.2, hr.2]
  rfl

end Expr

namespace Reading

open DewyFront.Expr

variable {a e g x : Expr} {o p c j : Operator} {mid rest links : List (Operator × Expr)}

/-- **`AreProducts`** — operators and operands that form products with what stands in front of them. -/
def AreProducts (links : List (Operator × Expr)) : Prop := ∀ q ∈ links, q.1.op.SitsOn .lower ∧ q.2.IsPlain

/-- **`AreContested`** — operands behind juxtapositions that may be calls or products. -/
def AreContested (links : List (Operator × Expr)) : Prop :=
  ∀ q ∈ links, q.1.op.isContested = true ∧ q.2.IsPlain

/-- **`AtFork a o g mid links`** — the list of `a`, an operator between calls and products with its operand,
products, and `links` that may be either. -/
structure AtFork (a : Expr) (o : Operator) (g : Expr) (mid links : List (Operator × Expr)) : Prop where
  admits : Admits o a g
  between : o.op.IsBetween
  first : a.IsPlain
  head : g.IsPlain
  products : AreProducts mid
  contested : AreContested links

theorem AreProducts.cons {q : Operator × Expr} (hq : q.1.op.SitsOn .lower ∧ q.2.IsPlain)
    (h : AreProducts mid) : AreProducts (q :: mid) := List.forall_mem_cons.mpr ⟨hq, h⟩

/-- A survey ends at the first juxtaposition that may be a call or a product. -/
theorem surveyFrom_of_between (hno : o.op.isContested = false) (ho : o.op.IsBetween)
    (hg : g.IsPlain) (hmid : AreProducts mid) (hj : j.op.isContested = true) (x : Expr)
    (rest : List (Operator × Expr)) (place : Nat) :
    surveyFrom (some (.operator o)) place (runSlots g (mid ++ (j, x) :: rest)) =
      .ok (.contested (place + 1 + 2 * mid.length)) := by
  induction mid generalizing o g place with
  | nil =>
    have hpull := pullOf_of_between hg.1 ho hno hj
    have hcontested : isContested (some o) = false := hno
    have hnext : isContested (some j) = true := hj
    rw [List.nil_append, runSlots_cons, surveyFrom, List.head?_cons, Option.bind_some, Option.bind_some]
    simp only [Slot.operator?, hpull, bind, Except.bind, contestedAt, hcontested, hnext]
    rfl
  | cons q mid ih =>
    obtain ⟨⟨hp, hh⟩, hmid⟩ := List.forall_mem_cons.mp hmid
    have hpull := pullOf_of_drawnLeft hg.1 (drawnLeft_product ho hp)
    have hrest := ih (Op.isContested_of_levels_one hp) hp.isBetween hh hmid (place + 2)
    have hprevious : (some (Slot.operator o)).bind Slot.operator? = some o := rfl
    rw [List.cons_append, surveyFrom_runSlots hprevious hpull, hrest]
    simp only [Except.map, Survey.cons, List.length_cons]
    congr 2
    omega

theorem AtFork.survey_eq (h : AtFork a o g mid ((j, x) :: rest)) :
    survey (runSlots a ((o, g) :: mid ++ (j, x) :: rest)) =
      .ok (.contested (2 * ((o, g) :: mid).length + 1)) := by
  have hpull := pullOf_of_drawnRight h.first.1 h.admits.drawnRight
  have hrest := surveyFrom_of_between h.admits.isContested h.between h.head h.products
    (h.contested _ List.mem_cons_self).1 x rest 2
  have hprevious : (none : Option Slot).bind Slot.operator? = none := rfl
  rw [List.cons_append, survey, surveyFrom_runSlots hprevious hpull, hrest]
  simp only [Except.map, Survey.cons, List.length_cons]
  congr 2
  omega

/-! ## §4 Copies -/

/-- Behind a call, or a juxtaposition that may be one, an operand is drawn to the left by juxtapositions that
may be calls or products. -/
theorem condenses_contested (hc : 63 < c.op.rightPower.low ∨ c.op.isContested = true) (hx : x.IsPlain)
    (hrest : AreContested rest) : ∃ pulls, Condenses (some c) (.left :: pulls) x rest x rest := by
  induction rest generalizing c x with
  | nil =>
    have hpos : 0 < c.op.rightPower.low := by
      rcases hc with hc | hc
      · exact Nat.lt_trans (by decide) hc
      · rw [(Op.powers_of_holdsContested (Op.holdsContested_of_isContested hc)).2]
        decide
    exact ⟨[], .last (pullOf_of_drawnLeft hx.1 (drawnLeft_end hpos))⟩
  | cons q rest ih =>
    obtain ⟨⟨hj, hy⟩, hrest⟩ := List.forall_mem_cons.mp hrest
    obtain ⟨pulls, hnext⟩ := ih (.inr hj) hy hrest
    have hdrawn : DrawnLeft (some c) (some q.1) := by
      rcases hc with hc | hc
      · right
        show q.1.op.leftPower.high < c.op.rightPower.low
        rw [(Op.powers_of_holdsContested (Op.holdsContested_of_isContested hj)).1]
        exact hc
      · exact .inl ⟨hc, hj⟩
    exact ⟨_, .keep (pullOf_of_drawnLeft hx.1 hdrawn) (Op.isBinary_of_isContested hj) (.inl rfl) hnext⟩

/-- Products keep their left operands. -/
theorem condenses_products (ho : o.op.IsBetween) (hg : g.IsPlain) (hmid : AreProducts mid) :
    ∃ pulls, Condenses (some o) (.left :: pulls) g mid g mid := by
  induction mid generalizing o g with
  | nil =>
    exact ⟨[], .last (pullOf_of_drawnLeft hg.1 (drawnLeft_end (Nat.lt_trans (by decide) ho.1)))⟩
  | cons q mid ih =>
    obtain ⟨p, h⟩ := q
    obtain ⟨⟨hp, hh⟩, hmid⟩ := List.forall_mem_cons.mp hmid
    obtain ⟨pulls, hrest⟩ := ih hp.isBetween hh hmid
    have hpull := pullOf_of_drawnLeft hg.1 (drawnLeft_product ho hp)
    exact ⟨_, .keep hpull (admits_of_sitsOn hp g h).isBinary (.inl rfl) hrest⟩

/-- **A call behind products is made** of the last operand. The operand is drawn to the call, and all others
to the left, unless it is the only one. -/
theorem exists_condenses_call (ho : o.op.IsBetween) (hg : g.IsPlain) (hmid : AreProducts mid)
    (hc : c.op.SitsOn .upper) (hx : x.IsPlain) (hrest : AreContested rest) :
    ∃ pulls, Condenses (some o) ((if mid.isEmpty then .right else .left) :: pulls) g
      (mid ++ (c, x) :: rest) (callLast c x g mid).1 ((callLast c x g mid).2 ++ rest) := by
  induction mid generalizing o g with
  | nil =>
    obtain ⟨pulls, hrest⟩ := condenses_contested (.inl (by rw [hc.rightPower]; decide)) hx hrest
    have hpull := pullOf_of_drawnRight hg.1 (drawnRight_call ho hc)
    exact ⟨_, .join hpull (admits_of_sitsOn hc g x) hrest⟩
  | cons q mid ih =>
    obtain ⟨p, h⟩ := q
    obtain ⟨⟨hp, hh⟩, hmid⟩ := List.forall_mem_cons.mp hmid
    obtain ⟨pulls, hrest⟩ := ih hp.isBetween hh hmid
    have hpull := pullOf_of_drawnLeft hg.1 (drawnLeft_product ho hp)
    exact ⟨_, .keep hpull (admits_of_sitsOn hp g h).isBinary (.inl rfl) hrest⟩

/-- Calling the last operand of products leaves products. -/
theorem isPlain_callLast (hg : g.IsPlain) (hmid : AreProducts mid) (hc : c.op.SitsOn .upper)
    (hx : x.IsPlain) : (callLast c x g mid).1.IsPlain ∧ AreProducts (callLast c x g mid).2 := by
  induction mid generalizing g with
  | nil => exact ⟨hg.binaryNode hx (Op.isContested_of_levels_one hc), List.forall_mem_nil _⟩
  | cons q mid ih =>
    obtain ⟨⟨hp, hh⟩, hmid⟩ := List.forall_mem_cons.mp hmid
    obtain ⟨hlast, hproducts⟩ := ih hh hmid
    exact ⟨hg, hproducts.cons ⟨hp, hlast⟩⟩

theorem length_callLast : (callLast c x g mid).2.length = mid.length := by
  induction mid generalizing g with
  | nil => rfl
  | cons q mid ih => exact congrArg Nat.succ ih

namespace AtFork

/-- Behind the first node stands a list of the same form. -/
theorem next (h : AtFork a o g ((p, e) :: mid) links) : AtFork (binaryNode o a g) p e mid links := by
  obtain ⟨⟨hp, he⟩, hmid⟩ := List.forall_mem_cons.mp h.products
  exact ⟨admits_of_sitsOn hp _ _, hp.isBetween, h.first.binaryNode h.head h.admits.isContested, he, hmid,
    h.contested⟩

/-- With the call made, a copy with a call is a list of the same form. -/
theorem call (h : AtFork a o g mid ((j, x) :: rest)) :
    AtFork a o (callLast (j.narrow .upper) x g mid).1 (callLast (j.narrow .upper) x g mid).2 rest := by
  obtain ⟨⟨hj, hx⟩, hrest⟩ := List.forall_mem_cons.mp h.contested
  have hc : (j.narrow .upper).op.SitsOn .upper := Op.levels_narrow .upper hj
  obtain ⟨hhead, hproducts⟩ := isPlain_callLast h.head h.products hc hx
  refine ⟨?_, h.between, h.first, hhead, hproducts, hrest⟩
  cases mid with
  | nil => exact h.admits.call hc x
  | cons q mid => exact h.admits

/-- **A copy with a call comes to the next list between two forks**, and what is read of that is what is
read with a call. Next to the first operand a call is made alone; behind products the first node is made in
the same pass. -/
theorem exists_call (h : AtFork a o g mid ((j, x) :: rest)) :
    ∃ a' o' g' mid', AtFork a' o' g' mid' rest ∧
      Shortens (runSlots a ((o, g) :: mid ++ (j.narrow .upper, x) :: rest))
        (runSlots a' ((o', g') :: mid' ++ rest)) ∧
      ∀ v, IsGrouping a' o' g' mid' rest v ↔
        IsGrouping a o (callLast (j.narrow .upper) x g mid).1 (callLast (j.narrow .upper) x g mid).2 rest
          v := by
  obtain ⟨⟨hj, hx⟩, hrest⟩ := List.forall_mem_cons.mp h.contested
  have hc : (j.narrow .upper).op.SitsOn .upper := Op.levels_narrow .upper hj
  have hpull := pullOf_of_drawnRight h.first.1 h.admits.drawnRight
  obtain ⟨pulls, hcondenses⟩ := exists_condenses_call h.between h.head h.products hc hx hrest
  cases mid with
  | nil =>
    refine ⟨a, o, _, _, h.call, ?_, fun v => Iff.rfl⟩
    exact (Condenses.keep hpull h.admits.isBinary (.inr rfl) hcondenses).shortens (by simp [callLast])
  | cons q mid =>
    refine ⟨binaryNode o a g, _, _, _, h.call.next, ?_, fun v => Iff.rfl⟩
    exact (Condenses.join hpull h.admits hcondenses).shortens (by
      simp only [List.length_append, List.length_cons, length_callLast, callLast]
      omega)

/-- A copy with a product is the next list between two forks. -/
theorem product (h : AtFork a o g mid ((j, x) :: rest)) :
    AtFork a o g (mid ++ [(j.narrow .lower, x)]) rest := by
  obtain ⟨⟨hj, hx⟩, hrest⟩ := List.forall_mem_cons.mp h.contested
  refine ⟨h.admits, h.between, h.first, h.head, fun q hq => ?_, hrest⟩
  rcases List.mem_append.mp hq with hq | hq
  · exact h.products q hq
  · rw [List.mem_singleton.mp hq]
    exact ⟨Op.levels_narrow .lower hj, hx⟩

/-- With nothing left to settle, a pass makes the first node. -/
theorem shortens (h : AtFork a o g mid []) :
    Shortens (runSlots a ((o, g) :: mid)) (runSlots (binaryNode o a g) mid) := by
  have hpull := pullOf_of_drawnRight h.first.1 h.admits.drawnRight
  obtain ⟨pulls, hproducts⟩ := condenses_products h.between h.head h.products
  exact (Condenses.join hpull h.admits hproducts).shortens (Nat.lt_succ_self _)

/-- **With nothing left to settle, the list comes to its only reading.** -/
theorem runs (h : AtFork a o g mid []) :
    Runs (runSlots a ((o, g) :: mid)) [.node (groupedRun a o g mid [])] := by
  induction mid generalizing a o g with
  | nil => exact .single h.shortens
  | cons q mid ih => exact .head h.shortens (ih h.next)

theorem isPlain (h : AtFork a o g mid []) : (groupedRun a o g mid []).IsPlain := by
  induction mid generalizing a o g with
  | nil => exact h.first.binaryNode h.head h.admits.isContested
  | cons q mid ih => exact ih h.next

end AtFork

end Reading

end DewyFront
