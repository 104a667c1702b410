/-
# DewyFront.Proofs.Passes — a pass as the joining of stretches

The reductions of a pass replace stretches of the list that do not overlap: an operand is drawn to
one side, and no operator of a flat run stands behind an operand. So the outcome of a pass is told
from the left, stretch by stretch, each between the operators that stand beside it before the pass.

* §1 stretches that are joined;
* §2 the stretch of a reduction;
* §3 stretches do not overlap;
* §4 joining stretches from the left;
* §5 the pass;
* §6 shapes that passes keep.
-/
import DewyFront.Proofs.Shape
import DewyFront.Proofs.Sites

namespace DewyFront

namespace Reduction

/-! ## §1 Stretches -/

/-- An operand is bound harder on its right. -/
def DrawnRight (left right : Option Operator) : Prop :=
  (reachFrom left).high < (reachTo right).low

/-- An operand is bound harder on its left, or contested juxtapositions stand on both sides. -/
def DrawnLeft (left right : Option Operator) : Prop :=
  (isContested left = true ∧ isContested right = true) ∨
    (reachTo right).high < (reachFrom left).low

/-- **`Joins`** — a stretch between `front` and `back` is joined to a node. -/
inductive Joins (front back : List Slot) : List Slot → Expr → Prop
  | binary {o : Operator} {l r : Expr} (hbinary : o.op.isBinary = true)
      (hflat : o.op.isFlat = false) (hleft : DrawnRight (lastOperator front) (some o))
      (hright : DrawnLeft (some o) (headOperator back)) :
      Joins front back [.node l, .operator o, .node r] (binaryNode o l r)
  /-- The operator stands where no other form of it can. -/
  | before {o : Operator} {e : Expr} (hbefore : o.op.isBefore = true)
      (hturn : turnOf front = some .operator → o.op.isBinary = false ∧ o.op.isAfter = false)
      (hright : DrawnLeft (some o) (headOperator back)) :
      Joins front back [.operator o, .node e] (.before o e (o.span.merge e.span))
  | after {o : Operator} {e : Expr} (hafter : o.op.isAfter = true)
      (hleft : DrawnRight (lastOperator front) (some o)) :
      Joins front back [.node e, .operator o] (.after o e (e.span.merge o.span))
  /-- The run is not part of a longer one. -/
  | flat {o : Operator} {first last : Expr} {links : List (Operator × Expr)}
      (hflat : o.op.isFlat = true) (hsame : ∀ q ∈ links, q.1.op = o.op)
      (hleft : DrawnRight (lastOperator front) (some o))
      (hright : DrawnLeft (some o) (headOperator back))
      (hfront : ∀ p, lastOperator front = some p → p.op ≠ o.op)
      (hback : ∀ p, headOperator back = some p → p.op ≠ o.op) :
      Joins front back (runSlots first links ++ [.operator o, .node last])
        (.flat o (first :: links.map Prod.snd ++ [last])
          (Expr.spanOfAll first (links.map Prod.snd ++ [last])))

theorem Joins.two_le_length {front back seg : List Slot} {e : Expr}
    (h : Joins front back seg e) : 2 ≤ seg.length := by
  cases h with
  | binary | before | after => simp
  | flat => simp only [List.length_append, List.length_cons]; omega

theorem Joins.not_semicolon {front back seg : List Slot} {e : Expr}
    (h : Joins front back seg e) : e.isSemicolon = false := by
  cases h <;> rfl

/-! ## §2 Reductions -/

/-- **`Replaces`** — a reduction replaces a stretch of the slots by the node it is joined to. -/
def Replaces (slots : List Slot) (r : Reduction) : Prop :=
  ∃ front seg back, slots = front ++ seg ++ back ∧ r.start = front.length ∧
    r.stop = front.length + seg.length ∧ Joins front back seg r.node

variable {front back : List Drawn} {o p : Operator} {pull : Pull} {r t : Reduction}

theorem drawnRight_of_surveyed (front : List Drawn) (e : Expr) (back : List Drawn)
    (hs : Surveyed (front ++ ⟨.node e, .right⟩ :: back)) :
    DrawnRight (lastOperator (front.map (·.slot))) (headOperator (back.map (·.slot))) :=
  pullOf_right (hs front e .right back rfl)

theorem drawnLeft_of_surveyed (front : List Drawn) (o : Operator) (e : Expr) (back : List Drawn)
    (hs : Surveyed (front ++ ⟨.operator o, pull⟩ :: ⟨.node e, .left⟩ :: back)) :
    DrawnLeft (some o) (headOperator (back.map (·.slot))) := by
  have h := pullOf_left (hs (front ++ [⟨.operator o, pull⟩]) e .left back (by simp))
  rw [List.map_append, List.map_singleton, lastOperator_concat] at h
  exact h

/-- The first operand of a run is drawn to an operator of the run. -/
theorem Run.drawnRight {first : Expr} {links : List (Operator × Expr)} {stretch : List Drawn}
    (hrun : Run o front first links stretch)
    (hs : Surveyed (front ++ stretch ++ ⟨.operator o, pull⟩ :: back)) :
    DrawnRight (lastOperator (front.map (·.slot))) (some o) := by
  obtain ⟨hslots, hsame, hdrawn, -⟩ := hrun
  cases stretch with
  | nil => simp [runSlots] at hslots
  | cons d stretch =>
    rw [List.map_cons, runSlots, List.cons.injEq] at hslots
    obtain ⟨hd, hrest⟩ := hslots
    obtain ⟨slot, dpull⟩ := d
    dsimp only at hd
    subst hd
    have hpull : dpull = .right := hdrawn _ List.mem_cons_self rfl
    subst hpull
    have h := drawnRight_of_surveyed front first (stretch ++ ⟨.operator o, pull⟩ :: back)
      (by simpa using hs)
    rw [List.map_append, hrest] at h
    cases links with
    | nil => exact h
    | cons q links =>
      have hq : q.1.op = o.op := hsame q List.mem_cons_self
      simpa [DrawnRight, reachTo, Slot.operator?, hq] using h

/-- **The reduction of an operator in a surveyed list replaces a stretch.** -/
theorem Made.replaces (hs : Surveyed (front ++ ⟨.operator o, pull⟩ :: back))
    (h : Made front o back r) :
    Replaces ((front ++ ⟨.operator o, pull⟩ :: back).map (·.slot)) r := by
  cases h with
  | @binary front' back' l e _ hbinary hflat hfront hback =>
    subst hfront hback
    refine ⟨front'.map (·.slot), [.node l, .operator o, .node e], back'.map (·.slot), by simp,
      by simp, by simp, .binary hbinary hflat ?_ ?_⟩
    · exact drawnRight_of_surveyed front' l (⟨.operator o, pull⟩ :: ⟨.node e, .left⟩ :: back')
        (by simpa using hs)
    · exact drawnLeft_of_surveyed (front' ++ [⟨.node l, .right⟩]) o e back' hs
  | @before back' e _ hbefore hfree hback =>
    subst hback
    refine ⟨front.map (·.slot), [.operator o, .node e], back'.map (·.slot), by simp, by simp,
      by simp, .before hbefore ?_ ?_⟩
    · intro hturn
      rw [attaches_of_operator hturn, Bool.and_true, Bool.or_eq_false_iff] at hfree
      exact hfree
    · exact drawnLeft_of_surveyed front o e back' hs
  | @after front' e _ hafter hfront =>
    subst hfront
    refine ⟨front'.map (·.slot), [.node e, .operator o], back.map (·.slot), by simp, by simp,
      by simp, .after hafter ?_⟩
    exact drawnRight_of_surveyed front' e (⟨.operator o, pull⟩ :: back) (by simpa using hs)
  | @flat front' stretch back' first last links _ hflat hfront hrun hback hmax =>
    subst hfront hback
    refine ⟨front'.map (·.slot), runSlots first links ++ [.operator o, .node last],
      back'.map (·.slot), ?_, by simp, ?_, .flat hflat hrun.same (hrun.drawnRight hs) ?_
        hrun.maximal hmax⟩
    · simp [← hrun.slots]
    · simp only [List.length_map, List.length_append, length_runSlots, List.length_cons,
        List.length_nil]
      omega
    · exact drawnLeft_of_surveyed (front' ++ stretch) o last back' hs

/-! ## §3 No overlap -/

/-- What an operator takes on its left are operands drawn to the right, with operators of a flat run
between them. -/
theorem Made.inner (h : Made front o back r) {i : Nat} {d : Drawn} (hi : r.start ≤ i)
    (hd : front[i]? = some d) :
    (d.slot.node?.isSome → d.pull = .right) ∧ ∀ p, d.slot = .operator p → p.op.isFlat = true := by
  cases h with
  | binary _ _ hfront _ | after _ hfront =>
    rw [hfront, List.getElem?_append_right hi, List.getElem?_singleton] at hd
    split at hd
    · cases hd
      exact ⟨fun _ => rfl, fun p hp => by cases hp⟩
    · cases hd
  | before =>
    rw [List.getElem?_eq_none hi] at hd
    cases hd
  | flat hflat hfront hrun _ _ =>
    rw [hfront, List.getElem?_append_right hi] at hd
    have hmem := List.mem_of_getElem? hd
    refine ⟨hrun.drawn d hmem, ?_⟩
    intro p hp
    have hslot := List.mem_map_of_mem (f := Drawn.slot) hmem
    rw [hp, hrun.slots] at hslot
    simp only [runSlots, List.mem_cons, reduceCtorEq, List.mem_flatMap, List.not_mem_nil, or_false,
      false_or, Slot.operator.injEq] at hslot
    obtain ⟨q, hq, rfl⟩ := hslot
    rw [hrun.same q hq]
    exact hflat

/-- What an operator takes on its right is one operand drawn to the left, or nothing. -/
theorem Made.stop_eq (h : Made front o back r) :
    (r.stop = front.length + 2 ∧ ∃ e back', back = ⟨.node e, .left⟩ :: back') ∨
      (r.stop = front.length + 1 ∧ o.op.isAfter = true) := by
  cases h with
  | binary _ _ hfront hback =>
    exact .inl ⟨by simp [hfront], _, _, hback⟩
  | before _ _ hback => exact .inl ⟨rfl, _, _, hback⟩
  | after hafter hfront => exact .inr ⟨by simp [hfront], hafter⟩
  | flat _ hfront hrun hback _ =>
    refine .inl ⟨?_, _, _, hback⟩
    rw [hfront, List.length_append, hrun.length_eq]
    rfl

/-- **The stretches of two operators do not overlap.** -/
theorem Made.stop_le_start {middle : List Drawn} {pull' : Pull}
    (hr : Made front o (middle ++ ⟨.operator p, pull'⟩ :: back) r)
    (ht : Made (front ++ ⟨.operator o, pull⟩ :: middle) p back t) : r.stop ≤ t.start := by
  by_contra hlt
  rw [Nat.not_le] at hlt
  rcases hr.stop_eq with ⟨hstop, e, back', hback⟩ | ⟨hstop, hafter⟩
  · -- the operand behind the left operator would be drawn to both sides
    cases middle with
    | nil => cases hback
    | cons d middle =>
      cases hback
      have h := (ht.inner (i := front.length + 1) (d := ⟨.node e, .left⟩) (by omega) (by simp)).1 rfl
      cases h
  · -- the left operator would stand in a flat run
    have h := (ht.inner (i := front.length) (d := ⟨.operator o, pull⟩) (by omega) (by simp)).2 o rfl
    rw [(Op.forms_of_isAfter hafter).2.2] at h
    cases h

/-- **The reductions of a pass**, from the left: each is that of an operator, and none overlaps the
next. -/
theorem allFrom_ok (front : List Drawn) {rest : List Drawn} {rs : List Reduction}
    (hs : Surveyed (front ++ rest)) (h : allFrom front.reverse front.length rest = .ok rs) :
    (∀ r ∈ rs, ∃ middle o pull back, rest = middle ++ ⟨.operator o, pull⟩ :: back ∧
      Made (front ++ middle) o back r) ∧ rs.Pairwise fun r t => r.stop ≤ t.start := by
  induction rest generalizing front rs with
  | nil =>
    cases h
    exact ⟨by simp, .nil⟩
  | cons d rest ih =>
    obtain ⟨s, pull⟩ := d
    have hs' : Surveyed ((front ++ [⟨s, pull⟩]) ++ rest) := by simpa using hs
    have hrev : (front ++ [(⟨s, pull⟩ : Drawn)]).reverse = ⟨s, pull⟩ :: front.reverse := by simp
    have hlen : (front ++ [(⟨s, pull⟩ : Drawn)]).length = front.length + 1 := by simp
    have lift : ∀ r : Reduction, (∃ middle o pull' back,
        rest = middle ++ ⟨.operator o, pull'⟩ :: back ∧
        Made ((front ++ [⟨s, pull⟩]) ++ middle) o back r) →
        ∃ middle o pull' back, (⟨s, pull⟩ : Drawn) :: rest = middle ++ ⟨.operator o, pull'⟩ :: back ∧
          Made (front ++ middle) o back r := by
      rintro r ⟨middle, o, pull', back, rfl, hmade⟩
      exact ⟨⟨s, pull⟩ :: middle, o, pull', back, rfl, by simpa using hmade⟩
    cases s with
    | node e =>
      rw [allFrom, ← hrev, ← hlen] at h
      obtain ⟨hmade, hpair⟩ := ih _ hs' h
      exact ⟨fun r hr => lift r (hmade r hr), hpair⟩
    | operator o =>
      rw [allFrom, bind_ok_iff] at h
      obtain ⟨found, hfound, h⟩ := h
      rw [bind_ok_iff] at h
      obtain ⟨others, hothers, h⟩ := h
      cases h
      rw [← hrev, ← hlen] at hothers
      obtain ⟨hmade, hpair⟩ := ih _ hs' hothers
      cases found with
      | none => exact ⟨fun r hr => lift r (hmade r hr), hpair⟩
      | some r =>
        have hr := made_of_at? hs hfound
        refine ⟨?_, List.pairwise_cons.mpr ⟨?_, hpair⟩⟩
        · intro t ht
          rcases List.mem_cons.mp ht with rfl | ht
          · exact ⟨[], o, pull, rest, rfl, by simpa using hr⟩
          · exact lift t (hmade t ht)
        · intro t ht
          obtain ⟨middle, p, pull', back, rfl, hp⟩ := hmade t ht
          exact hr.stop_le_start (by simpa using hp)

/-! ## §4 Joining -/

/-- **`Passes`** — what stands behind `front` becomes another list: slots are kept, and stretches
are joined. -/
inductive Passes : List Slot → List Slot → List Slot → Prop
  | nil {front : List Slot} : Passes front [] []
  | keep {front rest rest' : List Slot} {s : Slot} (h : Passes (front ++ [s]) rest rest') :
      Passes front (s :: rest) (s :: rest')
  | join {front seg rest rest' : List Slot} {e : Expr} (hjoins : Joins front rest seg e)
      (h : Passes (front ++ seg) rest rest') : Passes front (seg ++ rest) (.node e :: rest')

namespace Passes

variable {front slots slots' rest rest' : List Slot}

theorem keepAll (kept : List Slot) (h : Passes (front ++ kept) rest rest') :
    Passes front (kept ++ rest) (kept ++ rest') := by
  induction kept generalizing front with
  | nil => simpa using h
  | cons s kept ih => exact .keep (ih (by simpa using h))

theorem refl (front slots : List Slot) : Passes front slots slots := by
  have hend : Passes (front ++ slots) [] [] := .nil
  simpa using keepAll slots hend

theorem length_le (h : Passes front slots slots') : slots'.length ≤ slots.length := by
  induction h with
  | nil => exact Nat.le_refl _
  | keep _ ih => exact Nat.succ_le_succ ih
  | join hjoins _ ih =>
    have := hjoins.two_le_length
    simp only [List.length_append, List.length_cons]
    omega

/-- A pass that does not shorten the list joins nothing. -/
theorem eq_of_length_eq (h : Passes front slots slots') (hlen : slots'.length = slots.length) :
    slots' = slots := by
  induction h with
  | nil => rfl
  | keep _ ih => rw [ih (Nat.succ.inj hlen)]
  | join hjoins h _ =>
    have := hjoins.two_le_length
    have := h.length_le
    simp only [List.length_append, List.length_cons] at hlen
    omega

end Passes

/-- All nodes of a list have a property. -/
def AllNodes (P : Expr → Prop) (slots : List Slot) : Prop := ∀ e, .node e ∈ slots → P e

/-- **Passes keep what holds of the nodes of a list**, if what stretches are joined to has it. -/
theorem Passes.allNodes {P : Expr → Prop} {front slots next : List Slot} (h : Passes front slots next)
    (hP : ∀ {front back seg e}, Joins front back seg e → AllNodes P seg → P e)
    (hs : AllNodes P slots) : AllNodes P next := by
  induction h with
  | nil => exact hs
  | keep _ ih =>
    intro e he
    rcases List.mem_cons.mp he with rfl | he
    · exact hs e List.mem_cons_self
    · exact ih (fun c hc => hs c (List.mem_cons_of_mem _ hc)) e he
  | join hjoins _ ih =>
    intro e he
    rcases List.mem_cons.mp he with he | he
    · cases he
      exact hP hjoins fun c hc => hs c (List.mem_append_left _ hc)
    · exact ih (fun c hc => hs c (List.mem_append_right _ hc)) e he

/-- **Splicing from the right joins the stretches from the left.** -/
theorem passes_of_splice {slots : List Slot} {rs : List Reduction}
    (hr : ∀ r ∈ rs, Replaces slots r) (hp : rs.Pairwise fun r t => r.stop ≤ t.start)
    {k : Nat} (hk : ∀ r ∈ rs, k ≤ r.start) :
    (rs.foldr splice slots).take k = slots.take k ∧
      Passes (slots.take k) (slots.drop k) ((rs.foldr splice slots).drop k) := by
  induction rs generalizing k with
  | nil => exact ⟨rfl, .refl _ _⟩
  | cons r rs ih =>
    obtain ⟨front, seg, back, heq, hstart, hstop, hjoins⟩ := hr r List.mem_cons_self
    rw [List.pairwise_cons] at hp
    have htake : slots.take r.stop = front ++ seg := by
      rw [heq, hstop, ← List.length_append, List.take_left]
    have hdrop : slots.drop r.stop = back := by
      rw [heq, hstop, ← List.length_append, List.drop_left]
    obtain ⟨hfront, hrest⟩ := ih (fun t ht => hr t (List.mem_cons_of_mem _ ht)) hp.2 hp.1
    rw [htake] at hfront hrest
    rw [hdrop] at hrest
    have hprefix : (rs.foldr splice slots).take r.start = front := by
      have := congrArg (List.take r.start) hfront
      rwa [List.take_take, Nat.min_eq_left (by omega), hstart, List.take_left, ← hstart] at this
    rw [List.foldr_cons, splice, hprefix]
    have hk' : k ≤ front.length := hstart ▸ hk r List.mem_cons_self
    have hslots : slots = front ++ (seg ++ back) := by rw [heq, List.append_assoc]
    generalize (rs.foldr splice slots).drop r.stop = next at hrest ⊢
    rw [hslots]
    simp only [List.take_append_of_le_length hk', List.drop_append_of_le_length hk', true_and]
    refine .keepAll _ ?_
    rw [List.take_append_drop]
    exact .join hjoins hrest

/-! ## §5 The pass -/

theorem replaces_of_made {slots : List Slot} {pulls : List Pull} {rs : List Reduction}
    (hlen : pulls.length = slots.length) (hs : Surveyed (drawnOf slots pulls))
    (h : ∀ r ∈ rs, ∃ middle o pull back,
      drawnOf slots pulls = middle ++ ⟨.operator o, pull⟩ :: back ∧ Made ([] ++ middle) o back r) :
    ∀ r ∈ rs, Replaces slots r := by
  intro r hr
  obtain ⟨middle, o, pull, back, heq, hm⟩ := h r hr
  rw [List.nil_append] at hm
  rw [← map_slot_drawnOf hlen, heq]
  exact hm.replaces (heq ▸ hs)

/-- **A pass joins stretches**, each between the operators that stand beside it. -/
theorem passes_of_pass {slots next : List Slot} {pulls : List Pull}
    (hs : survey slots = .ok (.decided pulls)) (h : pass slots pulls = .ok next) :
    Passes [] slots next := by
  obtain ⟨hlen, hsurveyed⟩ := survey_decided hs
  obtain ⟨rs, hrs, h⟩ := bind_ok_iff.mp h
  cases h
  obtain ⟨hmade, hpair⟩ := allFrom_ok [] hsurveyed hrs
  have := (passes_of_splice (replaces_of_made hlen hsurveyed hmade) hpair (k := 0)
    (fun r _ => Nat.zero_le _)).2
  simpa using this

/-! ## §6 Shape -/

section

variable {front back seg slots slots' : List Slot} {e : Expr} {t u : Turn} {o : Operator}

/-- Behind a run of operands comes an operator. -/
theorem turnFrom_runSlots {first : Expr} (links : List (Operator × Expr)) {rest : List Slot}
    (hflat : ∀ q ∈ links, q.1.op.isBinary = true)
    (h : turnFrom t (runSlots first links ++ .operator o :: rest) = some u) :
    t.wants = true ∧ turnFrom .operator (.operator o :: rest) = some u := by
  induction links generalizing first t with
  | nil =>
    simp only [runSlots, List.flatMap_nil, List.cons_append, List.nil_append] at h
    rw [turnFrom, Option.bind_eq_some_iff] at h
    obtain ⟨v, hv, h⟩ := h
    obtain ⟨ht, ⟨-, rfl⟩ | ⟨-, -, rfl⟩⟩ := Turn.wants_of_node hv
    · exact ⟨ht, h⟩
    · cases h
  | cons q links ih =>
    simp only [runSlots, List.flatMap_cons, List.cons_append, List.nil_append] at h
    rw [turnFrom, Option.bind_eq_some_iff] at h
    obtain ⟨v, hv, h⟩ := h
    rw [turnFrom, Option.bind_eq_some_iff] at h
    obtain ⟨w, hw, h⟩ := h
    obtain ⟨ht, ⟨-, rfl⟩ | ⟨-, -, rfl⟩⟩ := Turn.wants_of_node hv
    · exact ⟨ht, (ih (fun p hp => hflat p (List.mem_cons_of_mem _ hp)) h).2⟩
    · cases hw

/-- Behind an operand no other is wanted. -/
theorem wants_eq_false_of_node {r : Expr} (h : turnFrom t [.operator o, .node r] = some u) :
    u.wants = false := by
  rw [turnFrom, Option.bind_eq_some_iff] at h
  obtain ⟨v, hv, h⟩ := h
  rw [turnFrom, Option.bind_eq_some_iff] at h
  obtain ⟨w, hw, h⟩ := h
  cases h
  obtain ⟨-, ⟨-, rfl⟩ | ⟨-, -, rfl⟩⟩ := Turn.wants_of_node hw <;> rfl

/-- **A stretch is joined where an operand is wanted**, and an operator may stand behind it. -/
theorem Joins.turn (h : Joins front back seg e) (ht : turnOf front = some t)
    (hu : turnFrom t seg = some u) : t.wants = true ∧ u.wants = false := by
  cases h with
  | @binary o l r =>
    obtain ⟨hwants, hrest⟩ := turnFrom_runSlots [] (by simp) hu
    exact ⟨hwants, wants_eq_false_of_node hrest⟩
  | @before o e hbefore hturn hright =>
    refine ⟨?_, wants_eq_false_of_node hu⟩
    rw [turnFrom, Option.bind_eq_some_iff] at hu
    obtain ⟨v, hv, hu⟩ := hu
    cases t with
    | operand | closing => rfl
    | done => cases hv
    | operator =>
      obtain ⟨hb, ha⟩ := hturn ht
      rcases Turn.next_operator hv with ⟨hb', -⟩ | ⟨-, ha', -⟩
      · rw [hb] at hb'
        cases hb'
      · rw [ha] at ha'
        cases ha'
  | @after o e hafter hleft =>
    obtain ⟨hwants, hrest⟩ := turnFrom_runSlots [] (by simp) hu
    refine ⟨hwants, ?_⟩
    rw [turnFrom, Option.bind_eq_some_iff] at hrest
    obtain ⟨v, hv, hrest⟩ := hrest
    cases hrest
    rcases Turn.next_operator hv with ⟨hb, -⟩ | ⟨-, -, rfl⟩
    · rw [(Op.forms_of_isAfter hafter).1] at hb
      cases hb
    · rfl
  | @flat o first last links hflat hsame =>
    have hbinary : ∀ p : Operator, p.op = o.op → p.op.isBinary = true := by
      intro p hp
      rw [hp]
      exact Op.isBinary_of_isFlat hflat
    obtain ⟨hwants, hrest⟩ := turnFrom_runSlots _ (fun q hq => hbinary q.1 (hsame q hq)) hu
    exact ⟨hwants, wants_eq_false_of_node hrest⟩

namespace Passes

/-- **Passes keep the shape of a list.** -/
theorem complete (h : Passes front slots slots') (ht : turnOf front = some t)
    (hc : Complete t slots) : Complete t slots' := by
  induction h generalizing t with
  | nil => exact hc
  | keep _ ih =>
    obtain ⟨u, hu, hrest⟩ := complete_cons.mp hc
    exact complete_cons.mpr ⟨u, hu, ih (by rw [turnOf_concat, ht]; exact hu) hrest⟩
  | @join front seg rest rest' e hjoins h ih =>
    obtain ⟨u, hu, hrest⟩ := complete_append.mp hc
    obtain ⟨hwants, hend⟩ := hjoins.turn ht hu
    refine complete_cons.mpr ⟨.operator, Turn.next_node hwants hjoins.not_semicolon, ?_⟩
    have hrest' := ih (by rw [turnOf_append, ht]; exact hu) hrest
    cases u with
    | operand | closing => cases hend
    | operator => exact hrest'
    | done =>
      rw [eq_nil_of_complete_done hrest']
      exact .nil rfl

/-- **What stands behind an operand is kept.** -/
theorem head?_eq (h : Passes front slots slots') (ht : turnOf front = some t)
    (hwants : t.wants = false) (hc : Complete t slots) : slots'.head? = slots.head? := by
  cases h with
  | nil => rfl
  | keep _ => rfl
  | join hjoins _ =>
    obtain ⟨u, hu, -⟩ := complete_append.mp hc
    rw [(hjoins.turn ht hu).1] at hwants
    cases hwants

theorem headOperator_eq (h : Passes front slots slots') (ht : turnOf front = some t)
    (hwants : t.wants = false) (hc : Complete t slots) :
    headOperator slots' = headOperator slots := by
  rw [headOperator, headOperator, h.head?_eq ht hwants hc]

/-- Passes make no operators. -/
theorem mem_of_operator (h : Passes front slots slots') (ho : .operator o ∈ slots') :
    .operator o ∈ slots := by
  induction h with
  | nil => exact ho
  | keep _ ih =>
    rcases List.mem_cons.mp ho with rfl | ho
    · exact List.mem_cons_self
    · exact List.mem_cons_of_mem _ (ih ho)
  | join _ _ ih =>
    rcases List.mem_cons.mp ho with ho | ho
    · cases ho
    · exact List.mem_append_right _ (ih ho)

theorem countP_le {p : Slot → Bool} (h : Passes front slots slots')
    (hp : ∀ e, p (.node e) = false) : slots'.countP p ≤ slots.countP p := by
  induction h with
  | nil => exact Nat.le_refl _
  | keep _ ih =>
    rw [List.countP_cons, List.countP_cons]
    exact Nat.add_le_add_right ih _
  | join _ _ ih =>
    rw [List.countP_cons_of_neg (by simp [hp]), List.countP_append]
    exact Nat.le_trans ih (Nat.le_add_left _ _)

end Passes

end

end Reduction

end DewyFront
