/-
# DewyFront.Proofs.NormalRanges — a range is a mark between two bounds

Reduction gathers all that range joints join into one run. Since joints take turns with marks, and a
run with two marks is refused, a run of range joints is a mark between two bounds, and a mark stands
nowhere else. So every such run can be read as a range, unless a bound is a list that is no pair.

* §1 ranges in trees;
* §2 turns of slots;
* §3 stretches that are joined;
* §4 passes;
* §5 forks, merging and readings;
* §6 chains to expressions;
* §7 sources.
-/
import DewyFront.Expr.Range
import DewyFront.Proofs.Layout
import DewyFront.Proofs.Marks
import DewyFront.Proofs.RangeChains

namespace DewyFront

/-! ## §1 Ranges -/

namespace Expr

/-- Whether an expression is a run of range joints. -/
def isRangeRun : Expr → Bool
  | .flat o _ _ => o.op == .bond .range
  | _ => false

/-- Whether an expression is a list with commas that is no pair. -/
def isUnpaired : Expr → Bool
  | .flat o es _ => o.op == .symbol .comma && es.length != 2
  | _ => false

/-- **`RangeNormal`** — an expression is a range mark between two bounds if it is a run of range joints,
and it is read as a range unless a bound is a list that is no pair. If it is no such run, no part of it
is a range mark. -/
structure RangeNormal (e : Expr) : Prop where
  run : e.isRangeRun = true → ∃ o left mark right span,
    e = .flat o [left, .atom .rangeMark mark, right] span ∧
      left.isRangeMark = false ∧ right.isRangeMark = false ∧
        (e.range?.isSome = true ↔ left.isUnpaired = false ∧ right.isUnpaired = false)
  elsewhere : e.isRangeRun = false → ∀ part ∈ e.parts, part.isRangeMark = false

variable {e left right : Expr} {o : Operator} {es : List Expr} {span : Span}

theorem isSome_boundValues? (e : Expr) : e.boundValues?.isSome = !e.isUnpaired := by
  unfold boundValues?
  split
  · rfl
  · next es _ hpair =>
    have hlength : es.length ≠ 2 := by
      intro htwo
      obtain ⟨a, b, rfl⟩ := List.length_eq_two.mp htwo
      exact hpair a b rfl
    simp [isUnpaired, hlength]
  · next hpair hlist =>
    cases e with
    | flat o es span =>
      by_cases hcomma : o.op = .symbol .comma
      · obtain ⟨op, place⟩ := o
        obtain rfl : op = .symbol .comma := hcomma
        exact absurd rfl (hlist place es span)
      · simp [isUnpaired, hcomma]
    | _ => rfl

/-- **A mark between two bounds is read as a range**, unless one of them is a list that is no pair. -/
theorem isSome_range?_iff (hop : o.op = .bond .range) (mark : Span) :
    (Expr.flat o [left, .atom .rangeMark mark, right] span).range?.isSome = true ↔
      left.isUnpaired = false ∧ right.isUnpaired = false := by
  obtain ⟨op, place⟩ := o
  obtain rfl : op = .bond .range := hop
  have hleft := isSome_boundValues? left
  have hright := isSome_boundValues? right
  simp only [range?, bareRange?]
  cases hl : left.boundValues? with
  | none =>
    have hleft : left.isUnpaired = true := by simpa [hl] using hleft
    simp [hleft]
  | some first =>
    have hleft : left.isUnpaired = false := by simpa [hl] using hleft
    cases hr : right.boundValues? with
    | none =>
      have hright : right.isUnpaired = true := by simpa [hr] using hright
      simp [hright]
    | some last =>
      have hright : right.isUnpaired = false := by simpa [hr] using hright
      obtain ⟨value, second⟩ := last
      cases second <;> simp [hleft, hright]

theorem isRangeMark_iff : e.isRangeMark = true ↔ ∃ span, e = .atom .rangeMark span := by
  cases e <;> simp [isRangeMark, atom?]

end Expr

/-! ## §2 Turns -/

/-- What an operand is to the ranges beside it. -/
def RangeRole.ofNode (mark : Bool) : RangeRole := if mark then .mark else .other

/-- What a slot is to the ranges beside it. -/
def Slot.rangeRole : Slot → RangeRole
  | .node e => .ofNode e.isRangeMark
  | .operator o => o.op.rangeRole

theorem Slot.eq_of_joint {s : Slot} (h : s.rangeRole = .joint) :
    ∃ o, s = .operator o ∧ o.op = .bond .range := by
  cases s with
  | node e =>
    have hnode : RangeRole.ofNode e.isRangeMark = .joint := h
    cases hmark : e.isRangeMark <;> rw [hmark] at hnode <;> cases hnode
  | operator o => exact ⟨o, rfl, Op.rangeRole_eq_joint.mp h⟩

namespace RangeTurn

variable {t u : RangeTurn} {a b : Bool}

variable {roles : List RangeRole}

/-- A mark does not stand in front of something of no range. -/
theorem follow_node_other (h : t.follow (.ofNode a :: .other :: roles) = some u) :
    a = false ∧ t.next .other = some free ∧ free.follow roles = some u := by
  cases t <;> cases a <;> first | exact ⟨rfl, rfl, h⟩ | cases h

/-- A joint behind something of no range stands in front of a mark. -/
theorem follow_node_joint (h : free.follow (.ofNode a :: .joint :: .ofNode b :: roles) = some u) :
    a = false ∧ b = true ∧ marked.follow roles = some u := by
  cases a <;> cases b <;> first | exact ⟨rfl, rfl, h⟩ | cases h

theorem follow_node (h : free.follow [.ofNode a] = some u) : a = false ∧ u = free := by
  cases a <;> cases h
  exact ⟨rfl, rfl⟩

end RangeTurn

namespace Reduction

variable {front back seg slots next : List Slot} {e : Expr} {o : Operator} {t u : RangeTurn}

/-- The roles of some slots. -/
abbrev rolesOf (slots : List Slot) : List RangeRole := slots.map Slot.rangeRole

/-- A range that has just been opened or is to be closed was joined last. -/
theorem lastOperator_of_follow (h : RangeTurn.free.follow (rolesOf front) = some t)
    (ht : t = .opened ∨ t = .closing) : ∃ p, lastOperator front = some p ∧ p.op = .bond .range := by
  rcases List.eq_nil_or_concat' front with rfl | ⟨inner, s, rfl⟩
  · cases h
    rcases ht with ht | ht <;> cases ht
  · rw [rolesOf, List.map_append, RangeTurn.follow_append] at h
    obtain ⟨u, -, h⟩ := Option.bind_eq_some_iff.mp h
    obtain ⟨v, hv, h⟩ := Option.bind_eq_some_iff.mp h
    cases h
    obtain ⟨p, rfl, hp⟩ := Slot.eq_of_joint ((RangeTurn.joint_iff hv).mpr ht)
    exact ⟨p, lastOperator_concat .., hp⟩

/-- A joint comes behind a range mark. -/
theorem headOperator_of_follow (h : RangeTurn.marked.follow (rolesOf back) = some .free) :
    ∃ p, headOperator back = some p ∧ p.op = .bond .range := by
  cases back with
  | nil => cases h
  | cons s back =>
    obtain ⟨u, hu, -⟩ := Option.bind_eq_some_iff.mp h
    obtain ⟨p, rfl, hp⟩ := Slot.eq_of_joint (RangeTurn.joint_of_marked hu)
    exact ⟨p, rfl, hp⟩

/-! ## §3 Stretches -/

/-- **`HasOneMark`** — if an expression is a run of range joints, it has one mark at most. -/
def HasOneMark (e : Expr) : Prop :=
  ∀ o es span, e = .flat o es span → o.op = .bond .range → es.countP Expr.isRangeMark ≤ 1

variable {first last : Expr} {links : List (Operator × Expr)}

/-- **In a run of no range there is no mark.** -/
theorem isRangeMark_of_run (ho : o.op.rangeRole = .other)
    (hlinks : ∀ q ∈ links, q.1.op.rangeRole = .other)
    (h : t.follow (rolesOf (runSlots first links ++ [.operator o, .node last])) = some u) :
    (∀ e ∈ first :: links.map Prod.snd ++ [last], e.isRangeMark = false) ∧
      t.next .other = some .free ∧ u = .free := by
  induction links generalizing first t with
  | nil =>
    have h : t.follow [.ofNode first.isRangeMark, o.op.rangeRole, .ofNode last.isRangeMark] = some u := h
    rw [ho] at h
    obtain ⟨hfirst, hnext, h⟩ := RangeTurn.follow_node_other h
    obtain ⟨hlast, rfl⟩ := RangeTurn.follow_node h
    exact ⟨List.forall_mem_cons.mpr ⟨hfirst, List.forall_mem_singleton.mpr hlast⟩, hnext, rfl⟩
  | cons q links ih =>
    obtain ⟨hq, hlinks⟩ := List.forall_mem_cons.mp hlinks
    have h : t.follow (.ofNode first.isRangeMark :: q.1.op.rangeRole ::
      rolesOf (runSlots q.2 links ++ [.operator o, .node last])) = some u := h
    rw [hq] at h
    obtain ⟨hfirst, hnext, h⟩ := RangeTurn.follow_node_other h
    obtain ⟨hrest, -, rfl⟩ := ih hlinks h
    exact ⟨List.forall_mem_cons.mpr ⟨hfirst, hrest⟩, hnext, rfl⟩

/-- **A run of range joints with one mark is the mark between two bounds**, if the range begins and
ends with it. -/
theorem range_of_run (ho : o.op = .bond .range) (hlinks : ∀ q ∈ links, q.1.op = o.op)
    (hone : (first :: links.map Prod.snd ++ [last]).countP Expr.isRangeMark ≤ 1) (hu : u ≠ .marked)
    (h : RangeTurn.free.follow (rolesOf (runSlots first links ++ [.operator o, .node last])) = some u) :
    ∃ mark, links.map Prod.snd = [.atom .rangeMark mark] ∧ first.isRangeMark = false ∧
      last.isRangeMark = false ∧ u = .free := by
  have hjoint : ∀ {p : Operator}, p.op = o.op → p.op.rangeRole = .joint := fun hp =>
    Op.rangeRole_eq_joint.mpr (hp.trans ho)
  -- Behind the first joint stands the mark. In a run of two it is the last operand, and the range would go
  -- on.
  match links with
  | [] =>
    have h : RangeTurn.free.follow [.ofNode first.isRangeMark, o.op.rangeRole,
      .ofNode last.isRangeMark] = some u := h
    rw [hjoint rfl] at h
    obtain ⟨-, -, h⟩ := RangeTurn.follow_node_joint h
    cases h
    exact absurd rfl hu
  | [q] =>
    have h : RangeTurn.free.follow [.ofNode first.isRangeMark, q.1.op.rangeRole,
      .ofNode q.2.isRangeMark, o.op.rangeRole, .ofNode last.isRangeMark] = some u := h
    rw [hjoint rfl, hjoint (hlinks q List.mem_cons_self)] at h
    obtain ⟨hfirst, hmark, h⟩ := RangeTurn.follow_node_joint h
    obtain ⟨mark, hq⟩ := Expr.isRangeMark_iff.mp hmark
    cases hlast : last.isRangeMark with
    | true =>
      rw [hlast] at h
      cases h
      exact absurd rfl hu
    | false =>
      rw [hlast] at h
      cases h
      exact ⟨mark, by rw [List.map_singleton, hq], hfirst, rfl, rfl⟩
  | q :: q' :: links =>
    -- behind the first mark there is a second one: the next operand, or the one behind that
    obtain ⟨hq, hlinks⟩ := List.forall_mem_cons.mp hlinks
    obtain ⟨hq', hlinks⟩ := List.forall_mem_cons.mp hlinks
    have h : RangeTurn.free.follow (.ofNode first.isRangeMark :: q.1.op.rangeRole ::
      .ofNode q.2.isRangeMark :: q'.1.op.rangeRole ::
        rolesOf (runSlots q'.2 links ++ [.operator o, .node last])) = some u := h
    rw [hjoint hq, hjoint hq'] at h
    obtain ⟨hfirst, hmark, h⟩ := RangeTurn.follow_node_joint h
    have hsecond : q'.2.isRangeMark = true ∨
        1 ≤ (links.map Prod.snd ++ [last]).countP Expr.isRangeMark := by
      cases hmark' : q'.2.isRangeMark with
      | true => exact .inl rfl
      | false =>
        right
        cases links with
        | nil =>
          have h : RangeTurn.closing.follow [.ofNode q'.2.isRangeMark, o.op.rangeRole,
            .ofNode last.isRangeMark] = some u := h
          rw [hjoint rfl, hmark'] at h
          obtain ⟨-, hlast, -⟩ := @RangeTurn.follow_node_joint _ false _ _ h
          simp [hlast]
        | cons q'' links =>
          obtain ⟨roles, h⟩ : ∃ roles, RangeTurn.closing.follow (.ofNode q'.2.isRangeMark ::
            q''.1.op.rangeRole :: .ofNode q''.2.isRangeMark :: roles) = some u := ⟨_, h⟩
          rw [hjoint (hlinks q'' List.mem_cons_self), hmark'] at h
          obtain ⟨-, hlast, -⟩ := @RangeTurn.follow_node_joint _ false _ _ h
          simp [hlast]
    rcases hsecond with hsecond | hsecond
    · simp only [List.map_cons, List.cons_append, List.countP_cons, hmark, hsecond, if_true] at hone
      omega
    · simp only [List.map_cons, List.cons_append, List.countP_cons, hmark, if_true] at hone
      omega

theorem rangeNormal_of_not_run (hrun : e.isRangeRun = false)
    (hparts : ∀ part ∈ e.parts, part.isRangeMark = false) : e.RangeNormal where
  run htrue := by
    rw [hrun] at htrue
    cases htrue
  elsewhere _ := hparts

theorem rangeRole_of_isFlat (h : o.op.isFlat = false) : o.op.rangeRole = .other := by
  refine Op.rangeRole_of_ne fun hop => ?_
  rw [hop] at h
  cases h

theorem rangeRole_of_isAfter (h : o.op.isAfter = true) : o.op.rangeRole = .other := by
  refine Op.rangeRole_of_ne fun hop => ?_
  rw [hop] at h
  cases h

/-- **What a stretch is joined to is no mark, and takes the turn of the stretch.** -/
theorem Joins.turns (h : Joins front back seg e)
    (hfront : RangeTurn.free.follow (rolesOf front) = some t)
    (hseg : t.follow (rolesOf seg) = some u) (hback : u.follow (rolesOf back) = some .free)
    (hone : HasOneMark e) : t.next .other = some u ∧ e.isRangeMark = false ∧ e.RangeNormal := by
  -- Only beside a joint may a mark stand, and only a run of ranges has joints.
  cases h with
  | @binary o l r _ hflat _ _ =>
    obtain ⟨hmarks, hnext, rfl⟩ :=
      @isRangeMark_of_run _ _ _ l _ [] (rangeRole_of_isFlat hflat) (fun _ h => nomatch h) hseg
    exact ⟨hnext, rfl, rangeNormal_of_not_run rfl hmarks⟩
  | @before o e hbefore _ _ =>
    have hseg : t.follow [o.op.rangeRole, .ofNode e.isRangeMark] = some u := hseg
    rw [Chain.rangeRole_of_isBefore o.op hbefore] at hseg
    obtain ⟨v, hnext, hseg⟩ := Option.bind_eq_some_iff.mp hseg
    obtain ⟨-, rfl⟩ := RangeTurn.next_other.mp hnext
    obtain ⟨hmark, rfl⟩ := RangeTurn.follow_node hseg
    exact ⟨hnext, rfl, rangeNormal_of_not_run rfl (List.forall_mem_singleton.mpr hmark)⟩
  | @after o e hafter _ =>
    have hseg : t.follow [.ofNode e.isRangeMark, o.op.rangeRole] = some u := hseg
    rw [rangeRole_of_isAfter hafter] at hseg
    obtain ⟨hmark, hnext, hseg⟩ := RangeTurn.follow_node_other hseg
    cases hseg
    exact ⟨hnext, rfl, rangeNormal_of_not_run rfl (List.forall_mem_singleton.mpr hmark)⟩
  | @flat o first last links hflat hsame _ _ hbefore hbehind =>
    by_cases hop : o.op = .bond .range
    · -- The run is not part of a longer one, so the range begins and ends with it.
      have hu : u ≠ .marked := by
        rintro rfl
        obtain ⟨p, hp, hrange⟩ := headOperator_of_follow hback
        exact hbehind p hp (hrange.trans hop.symm)
      have ht : t = .free := by
        have hclosed : ¬ (t = .opened ∨ t = .closing) := by
          intro hopen
          obtain ⟨p, hp, hrange⟩ := lastOperator_of_follow hfront hopen
          exact hbefore p hp (hrange.trans hop.symm)
        cases t with
        | free => rfl
        | opened | closing => simp at hclosed
        | marked =>
          obtain ⟨v, hv, -⟩ := Option.bind_eq_some_iff.mp hseg
          have hnode : RangeRole.ofNode first.isRangeMark = .joint := RangeTurn.joint_of_marked hv
          cases hmark : first.isRangeMark <;> rw [hmark] at hnode <;> cases hnode
      subst ht
      obtain ⟨mark, hlinks, hfirst, hlast, rfl⟩ :=
        range_of_run hop hsame (hone o _ _ rfl hop) hu hseg
      refine ⟨rfl, rfl, ⟨fun _ => ?_, fun hrun => ?_⟩⟩
      · rw [hlinks]
        exact ⟨o, first, mark, last, _, rfl, hfirst, hlast, Expr.isSome_range?_iff hop mark⟩
      · simp [Expr.isRangeRun, hop] at hrun
    · obtain ⟨hmarks, hnext, rfl⟩ := isRangeMark_of_run (Op.rangeRole_of_ne hop)
        (fun q hq => Op.rangeRole_of_ne (hsame q hq ▸ hop)) hseg
      exact ⟨hnext, rfl, rangeNormal_of_not_run (beq_eq_false_iff_ne.mpr hop) hmarks⟩

/-! ## §4 Passes -/

theorem length_rangeMarks (es : List Expr) : (rangeMarks es).length = es.countP Expr.isRangeMark := by
  rw [rangeMarks, List.length_map, ← List.countP_eq_length_filter]
  have hfst : es.zipIdx.map Prod.fst = es := List.zipIdx_map_fst 0 es
  conv_rhs => rw [← hfst, List.countP_map]
  rfl

theorem countP_of_checkRange {es : List Expr} (h : checkRange o es = .ok ()) (hop : o.op = .bond .range) :
    es.countP Expr.isRangeMark ≤ 1 := by
  unfold checkRange at h
  dsimp only at h
  split at h
  · cases h
  · next hnot =>
    rw [← length_rangeMarks]
    exact Nat.le_of_not_lt fun hlt => hnot ⟨hop, hlt⟩

/-- The operands of a run were checked. -/
theorem checkRange_of_flatForm {site : Site} {found : List Reduction} {r : Reduction}
    (h : flatForm site = .ok found) (hr : r ∈ found) :
    ∃ es span, r.node = .flat site.operator es span ∧ checkRange site.operator es = .ok () := by
  obtain rfl | ⟨left, right, before, after, -, -, -, hcheck, rfl⟩ := cases_of_flatForm h
  · cases hr
  · rw [List.mem_singleton.mp hr]
    exact ⟨_, _, rfl, hcheck⟩

/-- **A run of range joints that is made has one mark at most.** -/
theorem hasOneMark_of_at? {front back : List Drawn} {pull : Pull} {r : Reduction}
    (hs : Surveyed (front ++ ⟨.operator o, pull⟩ :: back))
    (h : at? ⟨front.reverse, o, front.length, back⟩ = .ok (some r)) : HasOneMark r.node := by
  rintro o' es span heq hop
  obtain rfl : o' = o := by
    cases made_of_at? hs h with
    | binary | before | after => cases heq
    | flat =>
      cases heq
      rfl
  have hlevels : o'.op.levels = [⟨16, .flat⟩] := by
    rw [hop]
    rfl
  rw [at?_of_levels_one hlevels] at h
  obtain ⟨found, hfound, hhead⟩ := map_ok_iff.mp h
  obtain ⟨es', span', hnode, hcheck⟩ := checkRange_of_flatForm hfound (List.mem_of_head? hhead)
  rw [heq] at hnode
  cases hnode
  exact countP_of_checkRange hcheck hop

theorem hasOneMark_of_normal (h : e.RangeNormal) : HasOneMark e := by
  rintro o es span rfl hop
  obtain ⟨o', left, mark, right, span', heq, hleft, hright, -⟩ := h.run (beq_iff_eq.mpr hop)
  obtain ⟨-, rfl, -⟩ := Expr.flat.inj heq
  have hmark : (Expr.atom .rangeMark mark).isRangeMark = true := rfl
  simp [hleft, hright, hmark]

/-- The nodes of a list are normal at every depth. -/
abbrev AllNormal (slots : List Slot) : Prop := AllNodes (Expr.Throughout Expr.RangeNormal) slots

/-- **A pass keeps the turns of a list**, if every run of range joints in the outcome has one mark. -/
theorem Passes.turns (h : Passes front slots next)
    (hfront : RangeTurn.free.follow (rolesOf front) = some t)
    (hslots : t.follow (rolesOf slots) = some .free) (hnormal : AllNormal slots)
    (hone : ∀ e, .node e ∈ next → HasOneMark e) :
    t.follow (rolesOf next) = some .free ∧ AllNormal next := by
  induction h generalizing t with
  | nil => exact ⟨hslots, hnormal⟩
  | @keep front rest rest' s _ ih =>
    obtain ⟨u, hu, hrest⟩ := Option.bind_eq_some_iff.mp hslots
    have hfront' : RangeTurn.free.follow (rolesOf (front ++ [s])) = some u := by
      rw [rolesOf, List.map_append, RangeTurn.follow_append_eq hfront]
      exact Option.bind_eq_some_iff.mpr ⟨u, hu, rfl⟩
    obtain ⟨hturns, hall⟩ := ih hfront' hrest (fun e he => hnormal e (List.mem_cons_of_mem _ he))
      fun e he => hone e (List.mem_cons_of_mem _ he)
    refine ⟨Option.bind_eq_some_iff.mpr ⟨u, hu, hturns⟩, fun e he => ?_⟩
    rcases List.mem_cons.mp he with rfl | he
    · exact hnormal e List.mem_cons_self
    · exact hall e he
  | @join front seg rest rest' e hjoins _ ih =>
    rw [rolesOf, List.map_append, RangeTurn.follow_append] at hslots
    obtain ⟨u, hseg, hrest⟩ := Option.bind_eq_some_iff.mp hslots
    have hfront' : RangeTurn.free.follow (rolesOf (front ++ seg)) = some u := by
      rw [rolesOf, List.map_append, RangeTurn.follow_append_eq hfront]
      exact hseg
    obtain ⟨hnext, hmark, hnode⟩ :=
      hjoins.turns hfront hseg hrest (hone e List.mem_cons_self)
    obtain ⟨hturns, hall⟩ := ih hfront' hrest (fun e he => hnormal e (List.mem_append_right _ he))
      fun e he => hone e (List.mem_cons_of_mem _ he)
    refine ⟨Option.bind_eq_some_iff.mpr ⟨u, ?_, hturns⟩, fun e he => ?_⟩
    · rw [Slot.rangeRole, hmark]
      exact hnext
    · rcases List.mem_cons.mp he with heq | he
      · cases heq
        exact hjoins.throughout hnode fun c hc => hnormal c (List.mem_append_left _ hc)
      · exact hall e he

/-- **`Ranged`** — what reduction keeps of a list whose ranges are normal. -/
structure Ranged (slots : List Slot) : Prop where
  shaped : Shaped slots
  formed : FormedAll slots
  turns : TakeTurns (rolesOf slots)
  normal : AllNormal slots

theorem ranged_of_pass {pulls : List Pull} (hd : survey slots = .ok (.decided pulls))
    (h : pass slots pulls = .ok next) (hr : Ranged slots) : Ranged next := by
  have hpasses := passes_of_pass hd h
  have hone : ∀ e, .node e ∈ next → HasOneMark e := by
    intro e he
    rcases mem_of_pass hd h he with he | ⟨front, o, pull, back, r, hstands, hat, heq⟩
    · exact hasOneMark_of_normal (hr.normal e he).here
    · cases heq
      exact hasOneMark_of_at? hstands.surveyed hat
  obtain ⟨hturns, hnormal⟩ := hpasses.turns (t := .free) rfl hr.turns hr.normal hone
  exact ⟨hpasses.complete rfl hr.shaped, hpasses.formed hr.formed, hturns, hnormal⟩

end Reduction

namespace Reading

open Reduction

variable {slots next copy merged : List Slot} {limit : Nat} {found : List Expr}

/-! ## §5 Readings -/

theorem Runs.ranged (h : Runs slots next) (hr : Ranged slots) : Ranged next :=
  h.keep (fun ha hstep => by
    obtain ⟨pulls, hd, hpass, -⟩ := hstep
    exact ranged_of_pass hd hpass ha) hr

/-- **The copies of a fork have the turns of the list**, since a juxtaposition joins no range. -/
theorem ranged_of_fork {place : Nat} {f : Fork} (hs : survey slots = .ok (.contested place))
    (h : fork slots place = .ok f) (hr : Ranged slots) (hcopy : copy ∈ f.copies) : Ranged copy := by
  obtain ⟨hshaped, -, -⟩ := copy_of_contested hs h hcopy
  have hformed := allNodes_of_fork hs h hr.formed hcopy
  have hnormal := allNodes_of_fork hs h hr.normal hcopy
  obtain ⟨front, back, m, rfl, -, hcopies⟩ := fork_of_contested hs h
  rw [hcopies] at hcopy
  obtain ⟨r, -, rfl⟩ := List.mem_map.mp hcopy
  refine ⟨hshaped hr.shaped, hformed, ?_, hnormal⟩
  have hturns := hr.turns
  rw [TakeTurns, rolesOf, List.map_append] at hturns ⊢
  exact hturns

/-- **Copies that differ in a node have a mark there all of them, or none of them.** -/
theorem isRangeMark_of_marks {e c : Expr} (he : Formed e) (hc : Formed c) (hmarks : c.marks = e.marks)
    (hmark : e.isRangeMark = true) : c = e := by
  obtain ⟨span, rfl⟩ := Expr.isRangeMark_iff.mp hmark
  rcases hc.single with hsingle | ⟨htwo, -⟩
  · rw [hsingle] at hmarks
    exact Slot.node.inj (List.cons.inj hmarks).1
  · rw [hmarks] at htwo
    simp [Expr.marks] at htwo

/-- Candidates with the same marks become a normal node, which is a mark if they are. -/
theorem normal_ambiguousOf (site : Span) {nodes : List Expr} {n : Expr} (hn : n ∈ nodes)
    (hformed : ∀ c ∈ nodes, Formed c) (hmarks : ∀ c ∈ nodes, ∀ d ∈ nodes, c.marks = d.marks)
    (hnormal : ∀ c ∈ nodes, c.Throughout Expr.RangeNormal) :
    (ambiguousOf site (nodes.foldl addNew [])).isRangeMark = n.isRangeMark ∧
      (ambiguousOf site (nodes.foldl addNew [])).Throughout Expr.RangeNormal := by
  have hmem : ∀ c, c ∈ nodes.foldl addNew [] ↔ c ∈ nodes := fun _ => mem_foldl_addNew_nil
  have hsame : ∀ c ∈ nodes, ∀ d ∈ nodes, d.isRangeMark = true → c = d := fun c hc d hd =>
    isRangeMark_of_marks (hformed d hd) (hformed c hc) (hmarks c hc d hd)
  rcases ambiguousOf_cases site (List.ne_nil_of_mem ((hmem n).mpr hn)) with
    ⟨e, he, heq⟩ | ⟨e, rest, he, heq⟩
  · -- all candidates are one
    obtain rfl : n = e := List.mem_singleton.mp (he ▸ (hmem n).mpr hn)
    rw [heq]
    exact ⟨rfl, hnormal n hn⟩
  · have hnone : ∀ c ∈ nodes, c.isRangeMark = false := by
      intro c hc
      refine Bool.eq_false_iff.mpr fun hmark => ?_
      cases nodes with
      | nil => cases hn
      | cons first nodes =>
        have hone : (first :: nodes).foldl addNew [] = [c] := by
          rw [List.foldl_cons, hsame first List.mem_cons_self c hc hmark]
          exact foldl_addNew_of_eq fun d hd => hsame d (List.mem_cons_of_mem _ hd) c hc hmark
        obtain ⟨span, rfl⟩ := Expr.isRangeMark_iff.mp hmark
        rw [hone] at heq
        cases heq
    rw [heq]
    refine ⟨(hnone n hn).symm, .intro (rangeNormal_of_not_run rfl fun c hc => ?_) fun c hc => ?_⟩
    · exact hnone c ((hmem c).mp hc)
    · exact hnormal c ((hmem c).mp hc)

/-- **Merged copies keep the turns of the list.** -/
theorem ranged_of_merge {site : Span} {copies : List (List Slot)} {marks : List Slot}
    (h : merge limit site copies = .ok (some merged)) (hr : ∀ copy ∈ copies, Ranged copy)
    (hmarks : ∀ copy ∈ copies, marksOf copy = marks) : Ranged merged := by
  have hshaped := (merged_keeps h).1 fun c hc => (hr c hc).shaped
  have hformed := formed_of_merge h (fun c hc => (hr c hc).formed) hmarks
  obtain ⟨hne, hall | ⟨front, nodes, back, rfl, rfl⟩⟩ := merge_ok h
  · obtain ⟨copy, hcopy⟩ := List.exists_mem_of_ne_nil _ hne
    exact hall copy hcopy ▸ hr copy hcopy
  · obtain ⟨n, hn⟩ := List.exists_mem_of_ne_nil nodes (by simpa using hne)
    have hmem : ∀ c ∈ nodes, front ++ .node c :: back ∈ nodes.map fun e => front ++ .node e :: back :=
      fun c hc => List.mem_map_of_mem hc
    have hnode : ∀ c ∈ nodes, Slot.node c ∈ front ++ .node c :: back := fun c _ =>
      List.mem_append_right _ List.mem_cons_self
    obtain ⟨hmark, hnormal⟩ := normal_ambiguousOf site hn
      (fun c hc => (hr _ (hmem c hc)).formed c (hnode c hc))
      (fun c hc d hd => marks_eq_of_marksFrom
        ((hmarks _ (hmem c hc)).trans (hmarks _ (hmem d hd)).symm))
      fun c hc => (hr _ (hmem c hc)).normal c (hnode c hc)
    have hcopy := hr _ (hmem n hn)
    refine ⟨hshaped, hformed, ?_, fun e he => ?_⟩
    · have hturns := hcopy.turns
      rw [TakeTurns, rolesOf, List.map_append, List.map_cons, Slot.rangeRole] at hturns ⊢
      rw [hmark]
      exact hturns
    · simp only [List.mem_append, List.mem_cons, Slot.node.injEq] at he
      rcases he with he | rfl | he
      · exact hcopy.normal e (List.mem_append_left _ he)
      · exact hnormal
      · exact hcopy.normal e (List.mem_append_right _ (List.mem_cons_of_mem _ he))

/-- Every copy that is run keeps the turns and the marks of the list before it was forked. -/
theorem ranged_of_copies {place : Nat} {f : Fork} {copies : List (List Slot)}
    (hs : survey slots = .ok (.contested place)) (h : fork slots place = .ok f) (hr : Ranged slots)
    (hcopies : List.Forall₂ Runs f.copies copies) (hcopy : copy ∈ copies) :
    Ranged copy ∧ marksOf copy = marksOf slots := by
  obtain ⟨origin, horigin, hrun⟩ := exists_of_mem_right hcopies hcopy
  have horigin' := ranged_of_fork hs h hr horigin
  refine ⟨hrun.ranged horigin', ?_⟩
  rw [Runs.marks hrun horigin'.shaped, marks_of_fork hs h hr.shaped horigin]

/-- **The readings of a list whose ranges are normal are normal**, and none of them is a mark. -/
theorem normal_of_leads (h : Leads limit slots found) (hr : Ranged slots) :
    ∀ e ∈ found, e.Throughout Expr.RangeNormal ∧ e.isRangeMark = false := by
  induction h with
  | settled hruns =>
    have hranged := Runs.ranged hruns hr
    obtain ⟨hmark, -⟩ := RangeTurn.follow_node hranged.turns
    exact List.forall_mem_singleton.mpr
      ⟨hranged.normal _ (List.mem_singleton_self _), hmark⟩
  | merged hruns hcontested hfork hcopies hmerge _ ih =>
    have hranged := Runs.ranged hruns hr
    have hcopy : ∀ copy ∈ _, Ranged copy ∧ marksOf copy = _ := fun copy hcopy =>
      ranged_of_copies hcontested hfork hranged hcopies hcopy
    exact ih (ranged_of_merge hmerge (fun c hc => (hcopy c hc).1) fun c hc => (hcopy c hc).2)
  | apart hruns hcontested hfork hcopies hfound _ ih =>
    have hranged := Runs.ranged hruns hr
    intro e he
    obtain ⟨r, hmem, he⟩ := (hfound e).mp he
    exact ih r hmem (ranged_of_copies hcontested hfork hranged hcopies (List.mem_map_of_mem hmem)).1 e he

/-- **A list whose ranges are normal is reduced to an expression that is normal**, and no mark. -/
theorem normal_of_reduce {span : Span} {t : Expr} (h : reduce limit span slots = .ok t)
    (hr : Ranged slots) : t.Throughout Expr.RangeNormal ∧ t.isRangeMark = false := by
  obtain ⟨found, hfound, h⟩ := bind_ok_iff.mp h
  have hall := normal_of_leads (leads_of_readingsFor hfound) hr
  split at h
  · cases h
    exact hall t (List.mem_singleton_self t)
  · cases h
    exact ⟨.intro (rangeNormal_of_not_run rfl fun e he => (hall e he).2) fun e he => (hall e he).1, rfl⟩

end Reading

namespace Expr

open Reduction

variable {limit : Nat}

/-! ## §6 Chains -/

theorem isRangeRun_of_isOperand {e : Expr} (h : e.IsOperand) : e.isRangeRun = false := by
  cases e <;> first | rfl | cases h

theorem rangeRole_of_ofOperand {content : Chain.Operand} {span : Span} {e : Expr}
    (h : ofOperand limit span content = .ok e) : .ofNode e.isRangeMark = content.rangeRole := by
  rcases ofOperand_cases h with ⟨a, rfl, rfl⟩ | ⟨hne, -, hatom⟩
  · cases a <;> rfl
  · rw [isRangeMark, hatom]
    cases content <;> first | rfl | exact absurd rfl (hne _)

/-- The slots of a chain have its roles. -/
theorem rolesOf_slotsOf {chain : Chain} {slots : List Slot} (h : slotsOf limit chain = .ok slots) :
    rolesOf slots = chain.map Chain.Link.rangeRole := by
  have hlower := slotsOf_ok h
  clear h
  induction hlower with
  | nil => rfl
  | cons hlowers _ ih =>
    rw [rolesOf, List.map_cons, List.map_cons, ← ih]
    cases hlowers with
    | operator => rfl
    | operand he => exact congrArg (· :: _) (rangeRole_of_ofOperand he)

/-- A chain that takes turns and is closed becomes a list whose ranges are normal. -/
theorem ranged_of_slotsOf {chain : Chain} {slots : List Slot} {span : Span}
    (hturns : chain.KeepsTurns) (hclosed : chain.IsClosed) (hshape : chain.checkShape = .ok span)
    (h : slotsOf limit chain = .ok slots) (hnormal : AllNormal slots) : Ranged slots where
  shaped := shaped_of_checkShape h hshape hclosed
  formed := allNodes_of_slotsOf (fun _ _ _ _ he => formed_of_isOperand (isOperand_of_ofOperand he)) h
  turns := by
    rw [rolesOf_slotsOf h]
    exact hturns
  normal := hnormal

/-- Ranges are normal at every depth, as reduction makes them. -/
theorem conveys_rangeNormal (limit : Nat) :
    Conveys limit (fun chain => chain.KeepsTurns ∧ chain.IsClosed) Chain.Operand.Encloses
      (fun e => e.isRangeMark = false) RangeNormal where
  operand he hparts := rangeNormal_of_not_run (isRangeRun_of_isOperand he) hparts
  hole hencloses he := by
    rcases ofOperand_cases he with ⟨a, rfl, -⟩ | ⟨-, -, hatom⟩
    · exact absurd rfl (hencloses a)
    · rw [isRangeMark, hatom]
      rfl
  reduce hp hshape hslots hs ht :=
    Reading.normal_of_reduce ht (ranged_of_slotsOf hp.1 hp.2 hshape hslots hs)

end Expr

/-! ## §7 Sources -/

/-- **Ranges have one normal form.** In every tree of a source, at every depth, a run of range joints is
a range mark between two bounds, and can be read as a range unless a bound is a list that is no pair; a
range mark stands nowhere else. -/
theorem Source.rangeNormal_of_parse {config : ParseConfig} {s : Source} {parsed : Parsed}
    (h : s.parse config = .ok parsed) :
    ∀ e ∈ parsed.items, e.isRangeMark = false ∧ e.Throughout Expr.RangeNormal := by
  obtain ⟨l, hl, h⟩ := bind_ok_iff.mp h
  obtain ⟨chains, hchains, h⟩ := bind_ok_iff.mp h
  obtain ⟨es, hes, h⟩ := bind_ok_iff.mp h
  cases h
  have hsound := Lexed.chains_sound hl hchains
  rw [Lexed.chains_eq] at hchains
  obtain ⟨settled, hsettled, hgrouped⟩ := bind_ok_iff.mp (mapError_ok_iff.mp hchains)
  have hlevels := Tree.everyLevel_of_ofSettled Tree.haveTurns_of_settleLevel (Lexed.allLexed hl) hsettled
  intro e he
  obtain ⟨chain, hchain, ht⟩ := Expr.exists_chain_of_ofAll (mapError_ok_iff.mp hes) e he
  have hfilled := (Chain.filled_of_ofTrees Chain.grants_keepsTurns hlevels hgrouped chain hchain).and
    (hsound chain hchain)
  obtain ⟨hnormal, hmark⟩ := (Expr.conveys_rangeNormal config.maxReadings).ofChain
    (hfilled.mono (fun _ h => ⟨h.1, h.2.closed⟩) fun _ h => h.1) ht
  exact ⟨hmark, hnormal⟩

/-- Marks without bounds in a block, and a pair in front of a mark. -/
theorem Source.rangeNormal_of_parse_of_pair :
    let s : Source := ⟨['[', '.', '.', ']', ' ', '0', ',', '2', '.', '.', '9'], none⟩
    ∃ parsed, s.parse default = .ok parsed ∧ parsed.items.length = 2 ∧
      ∀ e ∈ parsed.items, e.isRangeMark = false ∧ e.Throughout Expr.RangeNormal := by
  intro s
  have htwo : (s.parse default).toOption.map (·.items.length) = some 2 := by decide +kernel
  obtain ⟨parsed, hparsed, hlength⟩ := Option.map_eq_some_iff.mp htwo
  have hparsed := toOption_eq_some_iff.mp hparsed
  exact ⟨parsed, hparsed, hlength, Source.rangeNormal_of_parse hparsed⟩

end DewyFront
