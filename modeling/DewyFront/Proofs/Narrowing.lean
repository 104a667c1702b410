/-
# DewyFront.Proofs.Narrowing — reduction with every juxtaposition settled beforehand

A contested juxtaposition may be settled before a list is reduced: it is a call or a product then. The
powers of a settled juxtaposition lie within those of the contested one. So every operand that is not
contested is drawn where it was drawn before.

* §1 settled operators;
* §2 settled lists;
* §3 surveys.
-/
import DewyFront.Proofs.Variants

namespace DewyFront

/-! ## §1 Operators -/

namespace Op

/-- **`narrowings`** — a contested juxtaposition on each of its levels; any other operator as it is. -/
def narrowings (op : Op) : List Op :=
  match op with
  | .juxtapose m =>
    if (Op.juxtapose m).isContested then (Precedence.readings m).map fun r => .juxtapose r.2
    else [.juxtapose m]
  | op => [op]

variable {op p q : Op}

theorem narrowings_of_isContested_eq_false (h : op.isContested = false) : op.narrowings = [op] := by
  cases op with
  | juxtapose m => simp [narrowings, h]
  | _ => rfl

/-- An operator is settled already, or it is a juxtaposition that keeps the meanings of a level. -/
theorem mem_narrowings (h : p ∈ op.narrowings) :
    (op.isContested = false ∧ p = op) ∨
      (op.isContested = true ∧ ∃ m r, op = .juxtapose m ∧ r ∈ Precedence.readings m ∧
        p = .juxtapose r.2) := by
  cases hc : op.isContested with
  | false =>
    rw [narrowings_of_isContested_eq_false hc] at h
    exact .inl ⟨rfl, List.mem_singleton.mp h⟩
  | true =>
    obtain ⟨m, rfl, -⟩ := juxtapose_of_isContested hc
    simp only [narrowings, hc, if_true] at h
    obtain ⟨r, hr, rfl⟩ := List.mem_map.mp h
    exact .inr ⟨rfl, m, r, rfl, hr, rfl⟩

/-- A settled juxtaposition sits in a row of the contested one. -/
theorem levels_of_mem_narrowings (h : p ∈ op.narrowings) (hc : op.isContested = true) :
    ∃ l ∈ op.levels, p.levels = [l] ∧ l.assoc = .left := by
  rcases mem_narrowings h with ⟨hc', -⟩ | ⟨-, m, r, rfl, hr, rfl⟩
  · rw [hc] at hc'
    cases hc'
  · exact ⟨⟨r.1, .left⟩, List.mem_map_of_mem hr, levels_of_mem_readings hr, rfl⟩

/-- **Settling keeps the forms of an operator.** -/
theorem forms_of_mem_narrowings (h : p ∈ op.narrowings) :
    p.isBinary = op.isBinary ∧ p.isBefore = op.isBefore ∧ p.isAfter = op.isAfter ∧
      p.isFlat = op.isFlat := by
  rcases mem_narrowings h with ⟨-, rfl⟩ | ⟨hc, -⟩
  · exact ⟨rfl, rfl, rfl, rfl⟩
  · obtain ⟨l, -, hl, hassoc⟩ := levels_of_mem_narrowings h hc
    have hls := holdsContested_iff.mp (holdsContested_of_isContested hc)
    simp [isBinary, isBefore, isAfter, isFlat, Level.isBinary, hl, hls, hassoc]

/-- Other operators than juxtapositions are what they were. -/
theorem eq_iff_of_mem_narrowings (h : p ∈ op.narrowings) (hq : ∀ m, q ≠ .juxtapose m) :
    p = q ↔ op = q := by
  rcases mem_narrowings h with ⟨-, rfl⟩ | ⟨-, m, r, rfl, -, rfl⟩
  · rfl
  · exact ⟨fun heq => absurd heq.symm (hq r.2), fun heq => absurd heq.symm (hq m)⟩

theorem not_isContested_of_mem_narrowings (h : p ∈ op.narrowings) : p.isContested = false := by
  rcases mem_narrowings h with ⟨hc, rfl⟩ | ⟨-, m, r, -, hr, rfl⟩
  · exact hc
  · exact isContested_of_holdsContested_eq_false (not_holdsContested_of_mem_readings hr)

theorem not_holdsContested_of_mem_narrowings (hb : op.IsBare) (h : p ∈ op.narrowings) :
    p.holdsContested = false := by
  rcases mem_narrowings h with ⟨hc, rfl⟩ | ⟨-, m, r, -, hr, rfl⟩
  · refine Bool.eq_false_iff.mpr fun hholds => ?_
    rw [hb hholds] at hc
    cases hc
  · exact not_holdsContested_of_mem_readings hr

theorem leftPower_low_le (op : Op) : op.leftPower.low ≤ op.leftPower.high := by
  have ha := arranged_levels op
  generalize hls : op.levels = ls at ha
  cases ha with
  | none => exact Nat.le_of_eq (by rw [(powers_of_levels_nil hls).1]; rfl)
  | one l => exact Nat.le_of_eq (by rw [leftPower_of_levels_one hls])
  | dual row => exact Nat.le_of_eq (by rw [leftPower_of_levels_dual hls])
  | split =>
    rw [(powers_of_holdsContested (holdsContested_iff.mpr hls)).1]
    show 47 ≤ 63
    decide

theorem rightPower_low_le (op : Op) : op.rightPower.low ≤ op.rightPower.high := by
  have ha := arranged_levels op
  generalize hls : op.levels = ls at ha
  cases ha with
  | none => exact Nat.le_of_eq (by rw [(powers_of_levels_nil hls).2]; rfl)
  | one l => exact Nat.le_of_eq (by rw [rightPower_of_levels_one hls])
  | dual row =>
    rw [rightPower_of_levels_dual hls]
    exact Nat.le_succ _
  | split =>
    rw [(powers_of_holdsContested (holdsContested_iff.mpr hls)).2]
    show 48 ≤ 64
    decide

end Op

namespace Power

/-- **`Within`** — the values of a power are some of those of another. -/
structure Within (p q : Power) : Prop where
  low : q.low ≤ p.low
  ordered : p.low ≤ p.high
  high : p.high ≤ q.high
  isNone : p.isNone = q.isNone

variable {p p' q q' : Power}

theorem isNone_eq_false (h : p ≠ .none) : p.isNone = false := by
  rw [isNone, beq_eq_false_iff_ne]
  exact h

/-- **What beats every value of a power beats those within it.** -/
theorem Within.compare_eq (hp : p'.Within p) (hq : q'.Within q) {o : Ordering} (ho : o ≠ .eq)
    (h : p.compare q = some o) : p'.compare q' = some o := by
  cases o with
  | eq => exact absurd rfl ho
  | gt =>
    have hlt := compare_eq_gt h
    have hlt' : q'.high < p'.low :=
      Nat.lt_of_le_of_lt hq.high (Nat.lt_of_lt_of_le hlt hp.low)
    rw [Power.compare, if_pos hlt']
  | lt =>
    have hlt := compare_eq_lt h
    have hlt' : p'.high < q'.low :=
      Nat.lt_of_le_of_lt hp.high (Nat.lt_of_lt_of_le hlt hq.low)
    have hnot : ¬ q'.high < p'.low := by
      have := hp.ordered
      have := hq.ordered
      omega
    rw [Power.compare, if_neg hnot, if_pos hlt']

end Power

namespace Op

variable {op p : Op}

theorem leftPower_within (h : p ∈ op.narrowings) : p.leftPower.Within op.leftPower := by
  rcases mem_narrowings h with ⟨-, rfl⟩ | ⟨hc, -⟩
  · exact ⟨Nat.le_refl _, leftPower_low_le p, Nat.le_refl _, rfl⟩
  · obtain ⟨l, hl, hls, hassoc⟩ := levels_of_mem_narrowings h hc
    have hpos : 0 < l.powers.1 := Level.powers_fst_pos (by rw [hassoc]; decide)
    obtain ⟨hlow, hhigh⟩ := leftPower_bounds hl hpos
    have hop := Power.isNone_eq_false (leftPower_ne_none hl hpos)
    have hp := Power.isNone_eq_false (leftPower_ne_none (hls ▸ List.mem_singleton_self l) hpos)
    rw [leftPower_of_levels_one hls] at hp ⊢
    exact ⟨hlow, Nat.le_refl _, hhigh, hp.trans hop.symm⟩

theorem rightPower_within (h : p ∈ op.narrowings) : p.rightPower.Within op.rightPower := by
  rcases mem_narrowings h with ⟨-, rfl⟩ | ⟨hc, -⟩
  · exact ⟨Nat.le_refl _, rightPower_low_le p, Nat.le_refl _, rfl⟩
  · obtain ⟨l, hl, hls, hassoc⟩ := levels_of_mem_narrowings h hc
    have hpos : 0 < l.powers.2 := Level.powers_snd_pos (by rw [hassoc]; decide)
    obtain ⟨hlow, hhigh⟩ := rightPower_bounds hl hpos
    have hop := Power.isNone_eq_false (rightPower_ne_none hl hpos)
    have hp := Power.isNone_eq_false (rightPower_ne_none (hls ▸ List.mem_singleton_self l) hpos)
    rw [rightPower_of_levels_one hls] at hp ⊢
    exact ⟨hlow, Nat.le_refl _, hhigh, hp.trans hop.symm⟩

end Op

namespace Reduction

/-! ## §2 Settled lists -/

/-- **`Even`** — whatever a node stands for stands where the node does, and is an atom only if the node
is that atom. -/
def Even (e : Expr) : Prop :=
  ∀ e' ∈ e.variants Op.narrowings, e'.span = e.span ∧ e'.atom? = e.atom?

/-- A node stands where its operands do, whatever they are settled to. -/
theorem even_of_combines {seg : List Slot} {e : Expr} (h : Combines seg e) : Even e := by
  intro e' he
  cases h with
  | binary =>
    obtain ⟨_, -, _, -, _, -, rfl⟩ := Expr.mem_variants_binary.mp he
    exact ⟨rfl, rfl⟩
  | before =>
    obtain ⟨_, -, _, -, rfl⟩ := Expr.mem_variants_before.mp he
    exact ⟨rfl, rfl⟩
  | after =>
    obtain ⟨_, -, _, -, rfl⟩ := Expr.mem_variants_after.mp he
    exact ⟨rfl, rfl⟩
  | flat =>
    obtain ⟨_, -, _, -, rfl⟩ := Expr.mem_variants_flat.mp he
    exact ⟨rfl, rfl⟩

/-- **`Settles`** — a slot with its juxtapositions settled. -/
inductive Settles : Slot → Slot → Prop
  | operator {o : Operator} {p : Op} (h : p ∈ o.op.narrowings) :
      Settles (.operator o) (.operator ⟨p, o.span⟩)
  | node {e e' : Expr} (h : e' ∈ e.variants Op.narrowings) (heven : Even e) :
      Settles (.node e) (.node e')

/-- The slots of two lists settle, one by one. -/
abbrev SettlesAll : List Slot → List Slot → Prop := List.Forall₂ Settles

variable {slots slots' settled : List Slot}

theorem settlesAll_of_varies (heven : ∀ e, .node e ∈ slots → Even e)
    (h : VariesAll Op.narrowings slots settled) : SettlesAll slots settled := by
  induction h with
  | nil => exact .nil
  | cons hs _ ih =>
    refine .cons ?_ (ih fun e he => heven e (List.mem_cons_of_mem _ he))
    cases hs with
    | operator hp => exact .operator hp
    | node he => exact .node he (heven _ List.mem_cons_self)

theorem SettlesAll.varies (h : SettlesAll slots settled) :
    VariesAll Op.narrowings slots settled := by
  induction h with
  | nil => exact .nil
  | cons hs _ ih =>
    refine .cons ?_ ih
    cases hs with
    | operator hp => exact .operator hp
    | node he => exact .node he

theorem Even.isSemicolon_eq {e e' : Expr} (h : Even e) (he : e' ∈ e.variants Op.narrowings) :
    e'.isSemicolon = e.isSemicolon := by
  rw [Expr.isSemicolon, (h e' he).2, Expr.isSemicolon]

theorem Even.isRangeMark_eq {e e' : Expr} (h : Even e) (he : e' ∈ e.variants Op.narrowings) :
    e'.isRangeMark = e.isRangeMark := by
  rw [Expr.isRangeMark, (h e' he).2, Expr.isRangeMark]

/-- **`SettlesTo`** — a neighbour with its juxtaposition settled. -/
inductive SettlesTo : Option Operator → Option Operator → Prop
  | none : SettlesTo none none
  | some {o : Operator} {p : Op} (h : p ∈ o.op.narrowings) : SettlesTo (some o) (some ⟨p, o.span⟩)

theorem SettlesTo.of_slot {s s' : Option Slot} (h : Option.Rel Settles s s') :
    SettlesTo (s.bind Slot.operator?) (s'.bind Slot.operator?) := by
  cases h with
  | none => exact .none
  | some h =>
    cases h with
    | operator hp => exact .some hp
    | node => exact .none

/-- **`Spaced`** — behind every contested juxtaposition stands a node, and no contested juxtaposition
behind that. -/
def Spaced : List Slot → Prop
  | [] => True
  | .node _ :: rest => Spaced rest
  | .operator o :: rest =>
    (o.op.isContested = true →
      ∃ e more, rest = .node e :: more ∧ isContested (headOperator more) = false) ∧ Spaced rest

/-! ## §3 Surveys -/

variable {left left' right right' : Option Operator} {e e' : Expr}

theorem SettlesTo.reachFrom_within (h : SettlesTo left left') :
    (reachFrom left').Within (reachFrom left) := by
  cases h with
  | none => exact ⟨Nat.le_refl _, Nat.le_refl _, Nat.le_refl _, rfl⟩
  | some hp => exact Op.rightPower_within hp

theorem SettlesTo.reachTo_within (h : SettlesTo right right') :
    (reachTo right').Within (reachTo right) := by
  cases h with
  | none => exact ⟨Nat.le_refl _, Nat.le_refl _, Nat.le_refl _, rfl⟩
  | some hp => exact Op.leftPower_within hp

theorem SettlesTo.not_isContested (h : SettlesTo left left') : isContested left' = false := by
  cases h with
  | none => rfl
  | some hp => exact Op.not_isContested_of_mem_narrowings hp

theorem SettlesTo.any_eq (h : SettlesTo left left') (b : Bond) :
    left'.any (·.op == .bond b) = left.any (·.op == .bond b) := by
  cases h with
  | none => rfl
  | some hp =>
    rw [Option.any_some, Option.any_some, Bool.eq_iff_iff, beq_iff_eq, beq_iff_eq]
    exact Op.eq_iff_of_mem_narrowings hp (by simp)

/-- **An operand is drawn where it was drawn before**, unless contested juxtapositions stand on both
sides of it. -/
theorem pullOf_settled {pull : Pull} (hl : SettlesTo left left') (hr : SettlesTo right right')
    (he : e'.isSemicolon = e.isSemicolon)
    (hspaced : isContested left = true → isContested right = false)
    (h : pullOf left right e = .ok (some pull)) : pullOf left' right' e' = .ok (some pull) := by
  have hnot : (isContested left && isContested right) = false := by
    cases hc : isContested left with
    | false => rfl
    | true => exact hspaced hc
  have hnot' : (isContested left' && isContested right') = false := by
    rw [hl.not_isContested]
    rfl
  rw [pullOf_eq, hnot, if_neg Bool.false_ne_true] at h
  rw [pullOf_eq, hnot', if_neg Bool.false_ne_true, he, hl.any_eq,
    hl.reachFrom_within.isNone, hr.reachTo_within.isNone]
  split at h
  · next hs =>
    rw [if_pos hs]
    exact h
  · next hs =>
    rw [if_neg hs]
    split at h
    · next hn =>
      rw [if_pos hn]
      exact h
    · next hn =>
      rw [if_neg hn]
      split at h
      · next hc =>
        rw [hl.reachFrom_within.compare_eq hr.reachTo_within (by decide) hc]
        exact h
      · next hc =>
        rw [hl.reachFrom_within.compare_eq hr.reachTo_within (by decide) hc]
        exact h
      · cases h
      · cases h

theorem head?_rel {α β : Type} {R : α → β → Prop} {as : List α} {bs : List β}
    (h : List.Forall₂ R as bs) : Option.Rel R as.head? bs.head? := by
  cases h with
  | nil => exact .none
  | cons h _ => exact .some h

/-- A node behind a contested juxtaposition has no contested one behind it. -/
theorem Spaced.not_isContested_behind {previous : Option Slot} {rest : List Slot}
    (h : Spaced (previous.toList ++ .node e :: rest))
    (hc : isContested (previous.bind Slot.operator?) = true) :
    isContested (headOperator rest) = false := by
  cases previous with
  | none => cases hc
  | some s =>
    cases s with
    | node n => cases hc
    | operator o =>
      obtain ⟨n, more, heq, hmore⟩ := h.1 (by simpa [isContested, Slot.operator?] using hc)
      cases heq
      exact hmore

theorem surveyFrom_settled {previous previous' : Option Slot} {place : Nat} {pulls : List Pull}
    (hp : Option.Rel Settles previous previous') (hv : SettlesAll slots settled)
    (hs : Spaced (previous.toList ++ slots))
    (h : surveyFrom previous place slots = .ok (.decided pulls)) :
    surveyFrom previous' place settled = .ok (.decided pulls) := by
  induction hv generalizing previous previous' place pulls with
  | nil => exact h
  | @cons s s' rest rest' hslot hrest ih =>
    have hspaced : Spaced (s :: rest) := by
      cases previous with
      | none => exact hs
      | some q =>
        cases q with
        | node n => exact hs
        | operator o => exact hs.2
    have hnext : ∀ {place ps}, surveyFrom (some s) place rest = .ok (.decided ps) →
        surveyFrom (some s') place rest' = .ok (.decided ps) := ih (.some hslot) hspaced
    cases hslot with
    | operator hop =>
      rw [surveyFrom] at h ⊢
      obtain ⟨sv, hsv, h⟩ := bind_ok_iff.mp h
      obtain ⟨ps, rfl, rfl⟩ := Survey.cons_eq_decided (Except.ok.inj h)
      exact bind_ok_iff.mpr ⟨_, hnext hsv, rfl⟩
    | @node e e' he heven =>
      rw [surveyFrom] at h ⊢
      obtain ⟨found, hfound, h⟩ := bind_ok_iff.mp h
      cases found with
      | none =>
        obtain ⟨_, -, h⟩ := bind_ok_iff.mp h
        cases h
      | some pull =>
        obtain ⟨sv, hsv, h⟩ := bind_ok_iff.mp h
        obtain ⟨ps, rfl, rfl⟩ := Survey.cons_eq_decided (Except.ok.inj h)
        have hpull := pullOf_settled (.of_slot hp) (.of_slot (head?_rel hrest))
          (heven.isSemicolon_eq he) hs.not_isContested_behind hfound
        exact bind_ok_iff.mpr ⟨_, hpull, bind_ok_iff.mpr ⟨_, hnext hsv, rfl⟩⟩

/-- **Every slot of a settled list is drawn where it was drawn before.** -/
theorem survey_settled {pulls : List Pull} (hv : SettlesAll slots settled) (hs : Spaced slots)
    (h : survey slots = .ok (.decided pulls)) : survey settled = .ok (.decided pulls) :=
  surveyFrom_settled .none hv hs h

end Reduction

end DewyFront
