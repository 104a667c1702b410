/-
# DewyFront.Proofs.Progress — a shaped list is reduced to one node

Read from the left, the first operand of a list is drawn to the right, and it stays so for the next
one until an operand is drawn to the left. The operator in front of that operand can be reduced: all
that it could wait for is drawn to the right. So a pass over a list that is decided makes it shorter,
as long as there is an operator.

* §1 operators beside a place;
* §2 operands that are not drawn;
* §3 reductions without faults;
* §4 an operator that can be reduced;
* §5 passes.
-/
import DewyFront.Proofs.Passes

namespace DewyFront

namespace Reduction

/-! ## §1 Neighbours -/

variable {t : Turn}

/-- Where an operand is wanted, an operator that binds to the right stands in front. -/
theorem eq_nil_or_operator_of_wants {front : List Slot} (h : turnOf front = some t)
    (ht : t.wants = true) :
    (front = [] ∧ t = .operand) ∨
      ∃ inner o, front = inner ++ [.operator o] ∧ o.op.rightPower ≠ .none ∧
        (t = .closing → o.op = .bond .semicolon) := by
  rcases List.eq_nil_or_concat' front with rfl | ⟨inner, s, rfl⟩
  · cases h
    exact .inl ⟨rfl, rfl⟩
  · rw [turnOf_concat, Option.bind_eq_some_iff] at h
    obtain ⟨u, -, h⟩ := h
    cases s with
    | node e =>
      obtain ⟨-, ⟨-, rfl⟩ | ⟨-, -, rfl⟩⟩ := Turn.wants_of_node h <;> cases ht
    | operator o =>
      refine .inr ⟨inner, o, rfl, ?_⟩
      cases u with
      | done => cases h
      | operand | closing =>
        obtain ⟨hbefore, rfl⟩ := (Turn.next_operator_of_wants rfl).mp h
        exact ⟨Op.rightPower_ne_none_of_isBefore hbefore, fun hc => by cases hc⟩
      | operator =>
        rcases Turn.next_operator h with ⟨hbinary, -⟩ | ⟨-, -, rfl⟩
        · refine ⟨Op.rightPower_ne_none_of_isBinary hbinary, ?_⟩
          rintro rfl
          simp only [Turn.next, hbinary, if_true, Option.some.injEq] at h
          split at h
          · assumption
          · cases h
        · cases ht

/-- Where no operand is wanted, an operator that binds to the left goes on, or nothing. -/
theorem eq_nil_or_operator_of_complete {back : List Slot} (h : Complete t back)
    (ht : t.wants = false) :
    back = [] ∨ ∃ o rest, back = .operator o :: rest ∧ t = .operator ∧
      (o.op.isBinary = true ∨ o.op.isAfter = true) ∧ o.op.leftPower ≠ .none := by
  cases back with
  | nil => exact .inl rfl
  | cons s rest =>
    obtain ⟨u, hu, -⟩ := complete_cons.mp h
    cases t with
    | operand | closing => cases ht
    | done => cases hu
    | operator =>
      cases s with
      | node e => cases hu
      | operator o =>
        rcases Turn.next_operator hu with ⟨hb, -⟩ | ⟨-, ha, -⟩
        · exact .inr ⟨o, rest, rfl, rfl, .inl hb, Op.leftPower_ne_none_of_isBinary hb⟩
        · exact .inr ⟨o, rest, rfl, rfl, .inr ha, Op.leftPower_ne_none_of_isAfter ha⟩

/-! ## §2 Idle operands -/

variable {drawn front back rest : List Drawn} {e : Expr} {o : Operator} {pull : Pull}

/-- The turns before and behind an operand of a shaped list. -/
theorem turns_of_shaped (hs : Shaped ((front ++ ⟨.node e, pull⟩ :: back).map (·.slot))) :
    ∃ t u, turnBehind front = some t ∧ t.next (.node e) = some u ∧
      Complete u (back.map (·.slot)) := by
  rw [List.map_append, List.map_cons] at hs
  obtain ⟨t, ht, hrest⟩ := complete_append.mp hs
  obtain ⟨u, hu, hback⟩ := complete_cons.mp hrest
  exact ⟨t, u, ht, hu, hback⟩

/-- **An operand that is not drawn stands alone.** -/
theorem eq_nil_of_stay (hsurveyed : Surveyed (front ++ ⟨.node e, .stay⟩ :: back))
    (hs : Shaped ((front ++ ⟨.node e, .stay⟩ :: back).map (·.slot))) : front = [] ∧ back = [] := by
  obtain ⟨t, u, ht, hu, hback⟩ := turns_of_shaped hs
  obtain ⟨hwants, hcases⟩ := Turn.wants_of_node hu
  have hend : u.wants = false := by
    obtain ⟨-, rfl⟩ | ⟨-, -, rfl⟩ := hcases <;> rfl
  have hfront := eq_nil_or_operator_of_wants ht hwants
  rcases pullOf_stay (hsurveyed front e .stay back rfl) with ⟨hsemi, hbond⟩ | ⟨hfrom, hto⟩
  · -- a semicolon stands behind its juxtaposition
    exfalso
    obtain ⟨hn, -⟩ | ⟨-, rfl, -⟩ := hcases
    · rw [hsemi] at hn
      cases hn
    · obtain ⟨-, h⟩ | ⟨inner, o, heq, -, ho⟩ := hfront
      · cases h
      · rw [heq, lastOperator_concat] at hbond
        simp [Slot.operator?, ho rfl] at hbond
  · constructor
    · obtain ⟨h, -⟩ | ⟨inner, o, heq, ho, -⟩ := hfront
      · exact List.map_eq_nil_iff.mp h
      · rw [heq, lastOperator_concat] at hfrom
        exact absurd (by simpa [reachFrom, Slot.operator?, Power.isNone] using hfrom) ho
    · rcases eq_nil_or_operator_of_complete hback hend with h | ⟨o, rest, heq, -, -, ho⟩
      · exact List.map_eq_nil_iff.mp h
      · rw [heq, headOperator_cons] at hto
        exact absurd (by simpa [reachTo, Slot.operator?, Power.isNone] using hto) ho

/-! ## §3 Faults -/

theorem gatherBefore_faultless {before : List Drawn}
    (h : ∀ d ∈ before, d.slot.node?.isSome → d.pull ≠ .stay) : Faultless (gatherBefore o before) := by
  fun_induction gatherBefore o before with
  | case1 p x n rest hp ih =>
    refine Faultless.bind (ih fun d hd => h d ?_) fun _ _ => Faultless.ok _
    exact List.mem_cons_of_mem _ (List.mem_cons_of_mem _ hd)
  | case2 => exact Faultless.ok _
  | case3 p x n rest => exact absurd rfl (h ⟨.node n, .stay⟩ (by simp) rfl)
  | case4 => exact Faultless.ok _
  | case5 => exact Faultless.refuse _
  | case6 => exact Faultless.ok _
  | case7 => exact Faultless.ok _

theorem checkNesting_faultless (o : Operator) (child : Expr) : Faultless (checkNesting o child) := by
  unfold checkNesting
  split
  · split
    · exact Faultless.refuse _
    · exact Faultless.ok _
  · exact Faultless.ok _

theorem checkRange_faultless (o : Operator) (operands : List Expr) :
    Faultless (checkRange o operands) := by
  unfold checkRange
  dsimp only
  split
  · exact Faultless.refuse _
  · exact Faultless.ok _

/-- In a shaped list with an operator every operand is drawn. -/
theorem pull_ne_stay (hsurveyed : Surveyed (front ++ ⟨.operator o, pull⟩ :: back))
    (hs : Shaped ((front ++ ⟨.operator o, pull⟩ :: back).map (·.slot))) :
    ∀ d ∈ front ++ ⟨.operator o, pull⟩ :: back, d.slot.node?.isSome → d.pull ≠ .stay := by
  rintro ⟨s, x⟩ hd hnode rfl
  cases s with
  | operator p => cases hnode
  | node e =>
    obtain ⟨a, b, heq⟩ := List.append_of_mem hd
    rw [heq] at hsurveyed hs
    obtain ⟨rfl, rfl⟩ := eq_nil_of_stay hsurveyed hs
    cases front with
    | nil => cases heq
    | cons c front => simp at heq

/-- A flat run waits for its left operands only. -/
theorem gatherAfter_of_drawn_left (hflat : o.op.isFlat = true)
    (hs : Surveyed (front ++ ⟨.operator o, pull⟩ :: ⟨.node e, .left⟩ :: back)) :
    gatherAfter o back = .ok (some []) := by
  refine gatherAfter_eq fun p hp => head_ne_of_drawn_left hflat hs p ?_
  cases back with
  | nil => exact hp
  | cons d back => exact hp

theorem flatForm_faultless (hflat : o.op.isFlat = true)
    (hsurveyed : Surveyed (front ++ ⟨.operator o, pull⟩ :: back))
    (hs : Shaped ((front ++ ⟨.operator o, pull⟩ :: back).map (·.slot))) :
    Faultless (flatForm ⟨front.reverse, o, front.length, back⟩) := by
  have hstay := pull_ne_stay hsurveyed hs
  unfold flatForm
  split
  · exact Faultless.ok _
  · rename_i l r hboth
    obtain ⟨back', hback⟩ := right?_eq_some (both?_eq_some hboth).2
    dsimp only at hback ⊢
    subst hback
    refine Faultless.bind (gatherBefore_faultless fun d hd => hstay d ?_) fun before _ => ?_
    · exact List.mem_append_left _ (List.mem_reverse.mp (List.mem_of_mem_tail hd))
    · cases before with
      | none => exact Faultless.ok _
      | some before =>
        refine Faultless.bind ?_ fun after _ => ?_
        · rw [List.tail_cons, gatherAfter_of_drawn_left hflat hsurveyed]
          exact Faultless.ok _
        · cases after with
          | none => exact Faultless.ok _
          | some after =>
            exact Faultless.bind (checkRange_faultless _ _) fun _ _ => Faultless.ok _

/-- **No operator of a shaped list is reduced in two ways**, and none finds an operand that is not
drawn. -/
theorem at?_faultless (hsurveyed : Surveyed (front ++ ⟨.operator o, pull⟩ :: back))
    (hs : Shaped ((front ++ ⟨.operator o, pull⟩ :: back).map (·.slot))) :
    Faultless (at? ⟨front.reverse, o, front.length, back⟩) := by
  have ha := Op.arranged_levels o.op
  generalize hls : o.op.levels = ls at ha
  cases ha with
  | none =>
    rw [at?_of_levels_nil hls]
    exact Faultless.ok _
  | one l =>
    rw [at?_of_levels_one hls]
    refine Faultless.map ?_ _
    unfold formsAt
    split
    · exact Faultless.ok _
    · exact Faultless.ok _
    · unfold aloneForm
      split
      · exact Faultless.bind (checkNesting_faultless _ _) fun _ _ =>
          Faultless.bind (checkNesting_faultless _ _) fun _ _ => Faultless.ok _
      · exact Faultless.ok _
    · exact flatForm_faultless (Op.isFlat_iff.mpr ⟨l, by simp [hls], by assumption⟩) hsurveyed hs
    · exact Faultless.ok _
    · exact Faultless.ok _
  | dual row =>
    rw [at?_of_levels_dual hls]
    exact Faultless.ok _
  | split =>
    rw [at?_of_holdsContested (Op.holdsContested_iff.mpr hls)]
    exact Faultless.ok _

theorem allFrom_faultless (front : List Drawn) (hsurveyed : Surveyed (front ++ rest))
    (hs : Shaped ((front ++ rest).map (·.slot))) :
    Faultless (allFrom front.reverse front.length rest) := by
  induction rest generalizing front with
  | nil => exact Faultless.ok _
  | cons d rest ih =>
    have hsplit : front ++ d :: rest = (front ++ [d]) ++ rest := by simp
    have hrev : (front ++ [d]).reverse = d :: front.reverse := by simp
    have hlen : (front ++ [d]).length = front.length + 1 := by simp
    have hrest := ih (front ++ [d]) (hsplit ▸ hsurveyed) (hsplit ▸ hs)
    rw [hrev, hlen] at hrest
    obtain ⟨s, pull⟩ := d
    cases s with
    | node e => exact hrest
    | operator o =>
      rw [allFrom]
      exact Faultless.bind (at?_faultless hsurveyed hs) fun _ _ =>
        Faultless.bind hrest fun _ _ => Faultless.ok _

/-- **A pass over a shaped list that is decided ends in no fault.** -/
theorem pass_faultless {slots : List Slot} {pulls : List Pull}
    (hd : survey slots = .ok (.decided pulls)) (hs : Shaped slots) :
    Faultless (pass slots pulls) := by
  obtain ⟨hlen, hsurveyed⟩ := survey_decided hd
  refine Faultless.bind (allFrom_faultless [] hsurveyed ?_) fun _ _ => Faultless.ok _
  have hslots := map_slot_drawnOf hlen
  simp only [drawnOf] at hslots
  rwa [List.nil_append, hslots]

/-! ## §4 Progress -/

/-- Whether an operator of a list can be reduced, or is refused when one tries. -/
def Reducible (drawn : List Drawn) : Prop :=
  ∃ front o pull back, drawn = front ++ ⟨.operator o, pull⟩ :: back ∧
    at? ⟨front.reverse, o, front.length, back⟩ ≠ .ok none

theorem left?_of_concat {inner : List Drawn} (hfront : front = inner ++ [⟨.node e, .right⟩])
    (back : List Drawn) : Site.left? ⟨front.reverse, o, front.length, back⟩ = some e := by
  simp [Site.left?, hfront]

theorem at?_ne_none_of_after {inner : List Drawn} (hafter : o.op.isAfter = true)
    (hfront : front = inner ++ [⟨.node e, .right⟩]) (back : List Drawn) :
    at? ⟨front.reverse, o, front.length, back⟩ ≠ .ok none := by
  obtain ⟨row, hls⟩ := Op.levels_of_isAfter hafter
  rw [at?_of_levels_one hls]
  simp [formsAt, afterForm, left?_of_concat hfront, Except.map]

theorem at?_ne_none_of_before {e : Expr} (hbefore : o.op.isBefore = true)
    (ht : turnBehind front = some t) (hwants : t.wants = true) (back : List Drawn) :
    at? ⟨front.reverse, o, front.length, ⟨.node e, .left⟩ :: back⟩ ≠ .ok none := by
  have hfree := not_attaches_of_wants ht hwants
  rcases Op.levels_of_isBefore hbefore with ⟨row, hls⟩ | ⟨row, hls⟩
  · rw [at?_of_levels_one hls]
    simp [formsAt, beforeForm, Site.right?, hfree, Except.map]
  · rw [at?_of_levels_dual hls]
    intro h
    have h := Except.ok.inj h
    rw [Option.orElse_eq_orElse, Option.orElse_eq_or, Option.or_eq_none_iff] at h
    simp [beforeForm, Site.right?, hfree] at h

theorem gatherBefore_ne_none {before : List Drawn}
    (h : ∀ d ∈ before, d.slot.node?.isSome → d.pull = .right) :
    gatherBefore o before ≠ .ok none := by
  fun_induction gatherBefore o before with
  | case1 p x n rest hp ih =>
    intro hnone
    rw [bind_ok_iff] at hnone
    obtain ⟨found, hfound, hnone⟩ := hnone
    cases found with
    | none =>
      exact ih (fun d hd => h d (List.mem_cons_of_mem _ (List.mem_cons_of_mem _ hd))) hfound
    | some es => cases hnone
  | case2 p x n rest => cases h ⟨.node n, .left⟩ (by simp) rfl
  | case3 => rintro ⟨⟩
  | case4 => rintro ⟨⟩
  | case5 => rintro ⟨⟩
  | case6 => rintro ⟨⟩
  | case7 => rintro ⟨⟩

/-- The operands of an operator that both are drawn to it. -/
theorem both?_of_concat {inner : List Drawn} {l r : Expr}
    (hfront : front = inner ++ [⟨.node l, .right⟩]) (back : List Drawn) :
    Site.both? ⟨front.reverse, o, front.length, ⟨.node r, .left⟩ :: back⟩ = some (l, r) := by
  simp [Site.both?, left?_of_concat hfront, Site.right?]

/-- A flat operator has nothing to wait for when all operands in front of it are drawn to the
right. -/
theorem at?_ne_none_of_flat {inner : List Drawn} {l r : Expr} (hflat : o.op.isFlat = true)
    (hfront : front = inner ++ [⟨.node l, .right⟩])
    (hright : ∀ d ∈ front, d.slot.node?.isSome → d.pull = .right)
    (hs : Surveyed (front ++ ⟨.operator o, pull⟩ :: ⟨.node r, .left⟩ :: back)) :
    at? ⟨front.reverse, o, front.length, ⟨.node r, .left⟩ :: back⟩ ≠ .ok none := by
  obtain ⟨row, hls⟩ := Op.levels_of_isFlat hflat
  rw [at?_of_levels_one hls, Ne, map_ok_iff]
  rintro ⟨found, hfound, hhead⟩
  have hbefore : gatherBefore o front.reverse.tail ≠ .ok none :=
    gatherBefore_ne_none fun d hd => hright d (List.mem_reverse.mp (List.mem_of_mem_tail hd))
  simp only [formsAt, flatForm, both?_of_concat hfront] at hfound
  obtain ⟨before, hb, hfound⟩ := bind_ok_iff.mp hfound
  cases before with
  | none => exact hbefore hb
  | some before =>
    obtain ⟨after, ha, hfound⟩ := bind_ok_iff.mp hfound
    rw [List.tail_cons, gatherAfter_of_drawn_left hflat hs] at ha
    cases ha
    obtain ⟨-, -, hfound⟩ := bind_ok_iff.mp hfound
    cases hfound
    cases hhead

theorem at?_ne_none_of_binary {inner : List Drawn} {l r : Expr} (hbinary : o.op.isBinary = true)
    (hfront : front = inner ++ [⟨.node l, .right⟩])
    (hright : ∀ d ∈ front, d.slot.node?.isSome → d.pull = .right)
    (hs : Surveyed (front ++ ⟨.operator o, pull⟩ :: ⟨.node r, .left⟩ :: back)) :
    at? ⟨front.reverse, o, front.length, ⟨.node r, .left⟩ :: back⟩ ≠ .ok none := by
  by_cases hflat : o.op.isFlat = true
  · exact at?_ne_none_of_flat hflat hfront hright hs
  · have hform : ∀ level, binaryForm ⟨front.reverse, o, front.length, ⟨.node r, .left⟩ :: back⟩ level ≠
        [] := by
      simp [binaryForm, both?_of_concat hfront]
    have ha := Op.arranged_levels o.op
    generalize hls : o.op.levels = ls at ha
    cases ha with
    | none => simp [Op.isBinary, hls] at hbinary
    | one level =>
      rw [at?_of_levels_one hls, Ne, map_ok_iff]
      rintro ⟨found, hfound, hhead⟩
      rw [List.head?_eq_none_iff] at hhead
      subst hhead
      have hlevel : level.isBinary = true := by simpa [Op.isBinary, hls] using hbinary
      unfold formsAt at hfound
      split at hfound
      · exact hform level (Except.ok.inj hfound)
      · exact hform level (Except.ok.inj hfound)
      · exact hform level (eq_of_aloneForm hfound).1.symm
      · exact hflat (Op.isFlat_iff.mpr ⟨level, by simp [hls], by assumption⟩)
      · simp [Level.isBinary, *] at hlevel
      · simp [Level.isBinary, *] at hlevel
    | dual row =>
      rw [at?_of_levels_dual hls]
      intro h
      have h := Except.ok.inj h
      rw [Option.orElse_eq_orElse, Option.orElse_eq_or, Option.or_eq_none_iff,
        List.head?_eq_none_iff] at h
      exact hform _ h.1
    | split =>
      rw [at?_of_holdsContested (Op.holdsContested_iff.mpr hls)]
      intro h
      exact hform _ (List.head?_eq_none_iff.mp (Except.ok.inj h))

/-- **`Ready`** — what the slots end with, up to which all operands are drawn to the right: nothing,
an operand, or an operator that can be reduced as soon as the operand behind it is drawn to the
left. -/
inductive Ready : List Drawn → Turn → Prop
  | start : Ready [] .operand
  | operand {inner : List Drawn} {e : Expr} {t : Turn} (ht : t.wants = false) :
      Ready (inner ++ [⟨.node e, .right⟩]) t
  | before {inner : List Drawn} {o : Operator} {pull : Pull} {t u : Turn}
      (hbefore : o.op.isBefore = true) (hu : turnBehind inner = some u) (hwants : u.wants = true)
      (ht : t.wants = true) : Ready (inner ++ [⟨.operator o, pull⟩]) t
  | binary {inner : List Drawn} {e : Expr} {o : Operator} {pull : Pull} {t : Turn}
      (hbinary : o.op.isBinary = true) (ht : t.wants = true) :
      Ready (inner ++ [⟨.node e, .right⟩] ++ [⟨.operator o, pull⟩]) t

/-- The operator behind which an operand is drawn to the left can be reduced. -/
theorem Ready.reducible (h : Ready front t) (ht : t.wants = true)
    (hright : ∀ d ∈ front, d.slot.node?.isSome → d.pull = .right)
    (hs : Surveyed (front ++ ⟨.node e, .left⟩ :: back)) :
    Reducible (front ++ ⟨.node e, .left⟩ :: back) := by
  cases h with
  | start =>
    -- nothing stands on the left of the operand
    rcases pullOf_left (hs [] e .left back rfl) with ⟨hc, -⟩ | hlt
    · cases hc
    · exact absurd hlt (Nat.not_lt_zero _)
  | operand hend =>
    rw [ht] at hend
    cases hend
  | @before inner o pull _ u hbefore hu hwants _ =>
    exact ⟨inner, o, pull, ⟨.node e, .left⟩ :: back, by simp,
      at?_ne_none_of_before hbefore hu hwants back⟩
  | @binary inner l o pull _ hbinary _ =>
    have hs' : Surveyed ((inner ++ [⟨.node l, .right⟩]) ++
        ⟨.operator o, pull⟩ :: ⟨.node e, .left⟩ :: back) := by simpa using hs
    exact ⟨inner ++ [⟨.node l, .right⟩], o, pull, ⟨.node e, .left⟩ :: back, by simp,
      at?_ne_none_of_binary hbinary rfl (fun d hd => hright d (List.mem_append_left _ hd)) hs'⟩

theorem exists_reducible_from (front : List Drawn) (hready : Ready front t)
    (ht : turnBehind front = some t)
    (hright : ∀ d ∈ front, d.slot.node?.isSome → d.pull = .right)
    (hsurveyed : Surveyed (front ++ rest)) (hs : Shaped ((front ++ rest).map (·.slot)))
    (hlen : 2 ≤ (front ++ rest).length) : Reducible (front ++ rest) := by
  induction rest generalizing front t with
  | nil =>
    rw [List.append_nil] at hsurveyed hs hlen
    cases hready with
    | start => simp at hlen
    | @operand inner e _ _ =>
      -- nothing stands on the right of the last operand
      exact absurd (pullOf_right (hsurveyed inner e .right [] rfl)) (Nat.not_lt_zero _)
    | before _ _ _ hwants | binary _ hwants =>
      obtain ⟨u, hu, hend⟩ := hs
      have hut : u = t := Option.some.inj (hu.symm.trans ht)
      rw [hut, hwants] at hend
      cases hend
  | cons d rest ih =>
    obtain ⟨s, pull⟩ := d
    have hsplit : front ++ ⟨s, pull⟩ :: rest = (front ++ [(⟨s, pull⟩ : Drawn)]) ++ rest := by simp
    have hcomplete : ∃ u, t.next s = some u := by
      rw [List.map_append, List.map_cons] at hs
      obtain ⟨t', ht', hrest⟩ := complete_append.mp hs
      obtain ⟨u, hu, -⟩ := complete_cons.mp hrest
      exact ⟨u, by rw [← Option.some.inj (ht'.symm.trans ht)]; exact hu⟩
    obtain ⟨u, hu⟩ := hcomplete
    have hturn : turnBehind (front ++ [⟨s, pull⟩]) = some u := by
      rw [turnBehind, List.map_append, List.map_singleton, turnOf_concat]
      exact (congrArg (·.bind (·.next s)) ht).trans hu
    -- Where what is ready takes in the slot, the search goes on behind it.
    have next : Ready (front ++ [⟨s, pull⟩]) u → (s.node?.isSome → pull = .right) →
        Reducible (front ++ ⟨s, pull⟩ :: rest) := by
      intro hready' hpull
      rw [hsplit]
      refine ih _ hready' hturn ?_ (hsplit ▸ hsurveyed) (hsplit ▸ hs) (hsplit ▸ hlen)
      intro d hd
      rcases List.mem_append.mp hd with hd | hd
      · exact hright d hd
      · rw [List.mem_singleton.mp hd]
        exact hpull
    cases s with
    | node e =>
      obtain ⟨hwants, hcases⟩ := Turn.wants_of_node hu
      have hend : u.wants = false := by
        obtain ⟨-, rfl⟩ | ⟨-, -, rfl⟩ := hcases <;> rfl
      cases pull with
      | stay =>
        obtain ⟨rfl, rfl⟩ := eq_nil_of_stay hsurveyed hs
        simp at hlen
      | left => exact hready.reducible hwants hright hsurveyed
      | right => exact next (.operand hend) fun _ => rfl
    | operator o =>
      cases hwants : t.wants with
      | true =>
        obtain ⟨hbefore, rfl⟩ := (Turn.next_operator_of_wants hwants).mp hu
        exact next (.before hbefore ht hwants rfl) fun h => by cases h
      | false =>
        cases hready with
        | start | before _ _ _ h | binary _ h => first | cases hwants | (rw [h] at hwants; cases hwants)
        | @operand inner e _ _ =>
          cases t with
          | operand | closing => cases hwants
          | done => cases hu
          | operator =>
            rcases Turn.next_operator hu with ⟨hbinary, hu'⟩ | ⟨-, hafter, -⟩
            · exact next (.binary hbinary hu') fun h => by cases h
            · exact ⟨_, o, pull, rest, rfl, at?_ne_none_of_after hafter rfl rest⟩

/-- **In a shaped list that is decided an operator can be reduced**, unless a node stands alone. -/
theorem exists_reducible (hsurveyed : Surveyed drawn) (hs : Shaped (drawn.map (·.slot)))
    (hlen : 2 ≤ drawn.length) : Reducible drawn :=
  exists_reducible_from [] .start rfl (fun _ hd => by cases hd) hsurveyed hs hlen

/-! ## §5 Passes -/

/-- A pass tries every operator. -/
theorem allFrom_ne_nil {before middle : List Drawn} {place : Nat} {rs : List Reduction}
    (h : allFrom before place (middle ++ ⟨.operator o, pull⟩ :: back) = .ok rs)
    (hne : at? ⟨middle.reverse ++ before, o, place + middle.length, back⟩ ≠ .ok none) : rs ≠ [] := by
  induction middle generalizing before place rs with
  | nil =>
    rw [List.nil_append, allFrom] at h
    obtain ⟨found, hfound, h⟩ := bind_ok_iff.mp h
    obtain ⟨others, -, h⟩ := bind_ok_iff.mp h
    cases h
    cases found with
    | none => exact absurd hfound hne
    | some r => simp
  | cons d middle ih =>
    have hplace : place + (d :: middle).length = place + 1 + middle.length := by
      rw [List.length_cons]
      omega
    rw [hplace, List.reverse_cons, List.append_assoc, List.singleton_append] at hne
    obtain ⟨s, x⟩ := d
    cases s with
    | node e => exact ih h hne
    | operator p =>
      rw [List.cons_append, allFrom] at h
      obtain ⟨found, -, h⟩ := bind_ok_iff.mp h
      obtain ⟨others, hothers, h⟩ := bind_ok_iff.mp h
      cases h
      simp [ih hothers hne]

theorem length_splice_lt {slots : List Slot} {rs : List Reduction}
    (hr : ∀ r ∈ rs, Replaces slots r) (hp : rs.Pairwise fun r t => r.stop ≤ t.start)
    (hne : rs ≠ []) : (rs.foldr splice slots).length < slots.length := by
  cases rs with
  | nil => exact absurd rfl hne
  | cons r rs =>
    rw [List.pairwise_cons] at hp
    obtain ⟨-, hrest⟩ := passes_of_splice (fun t ht => hr t (List.mem_cons_of_mem _ ht)) hp.2 hp.1
    obtain ⟨front, seg, back, heq, hstart, hstop, hjoins⟩ := hr r List.mem_cons_self
    have hle := hrest.length_le
    have htwo := hjoins.two_le_length
    have hlen : slots.length = front.length + seg.length + back.length := by
      rw [heq, List.length_append, List.length_append]
    simp only [List.length_drop] at hle
    simp only [List.foldr_cons, splice, List.length_append, List.length_take, List.length_cons,
      List.length_drop]
    omega

/-- **A pass over a shaped list that is decided makes it shorter**, unless a node stands alone. -/
theorem pass_shortens {slots next : List Slot} {pulls : List Pull} (hs : Shaped slots)
    (hd : survey slots = .ok (.decided pulls)) (h : pass slots pulls = .ok next)
    (hlen : 2 ≤ slots.length) : next.length < slots.length := by
  obtain ⟨hpulls, hsurveyed⟩ := survey_decided hd
  have hslots := map_slot_drawnOf hpulls
  obtain ⟨rs, hrs, h⟩ := bind_ok_iff.mp h
  cases h
  obtain ⟨hmade, hpair⟩ := allFrom_ok [] hsurveyed hrs
  refine length_splice_lt (replaces_of_made hpulls hsurveyed hmade) hpair ?_
  obtain ⟨front, o, pull, back, heq, hne⟩ := exists_reducible hsurveyed (hslots.symm ▸ hs)
    (by rw [← List.length_map (f := Drawn.slot), hslots]; exact hlen)
  rw [show slots.zipWith Drawn.mk pulls = _ from heq] at hrs
  exact allFrom_ne_nil hrs (by simpa using hne)

end Reduction

end DewyFront
