/-
# DewyFront.Proofs.Mirroring — passes over a settled list

The operands of a settled list are drawn where those of the list are drawn. So every operator is
reduced in the settled list where it was reduced before, to what its node stands for, and no step of
a run is missed.

* §1 the surroundings of an operator;
* §2 nodes and unary forms;
* §3 flat runs;
* §4 the form of an operator;
* §5 passes and runs.
-/
import DewyFront.Proofs.Narrowing

namespace DewyFront

namespace Reduction

variable {slots settled : List Slot}

/-! ## §1 Surroundings -/

/-- **`Mirrors`** — a reduction in a settled list, for one in the list. -/
structure Mirrors (r r' : Reduction) : Prop where
  start : r'.start = r.start
  stop : r'.stop = r.stop
  node : Settles (.node r.node) (.node r'.node)

/-- A slot and its settled slot are drawn to the same side. -/
inductive Alike : Drawn → Drawn → Prop
  | mk {s s' : Slot} (h : Settles s s') (pull : Pull) : Alike ⟨s, pull⟩ ⟨s', pull⟩

/-- **`Site.Alike`** — the surroundings of an operator in a settled list. -/
structure Site.Alike (s s' : Site) : Prop where
  before : List.Forall₂ Reduction.Alike s.before s'.before
  operator : Settles (.operator s.operator) (.operator s'.operator)
  place : s'.place = s.place
  after : List.Forall₂ Reduction.Alike s.after s'.after

variable {s s' : Site} {l l' : Level}

/-- An operand that is drawn to an operator, and the settled one. -/
abbrev SettlesNode (e e' : Expr) : Prop := Settles (.node e) (.node e')

theorem Site.Alike.left? (h : s.Alike s') : Option.Rel SettlesNode s.left? s'.left? := by
  obtain ⟨before, o, place, after⟩ := s
  obtain ⟨before', o', place', after'⟩ := s'
  obtain ⟨hbefore, -, -, -⟩ := h
  dsimp only [Site.left?] at hbefore ⊢
  cases hbefore with
  | nil => exact .none
  | cons hd _ =>
    obtain ⟨hs, pull⟩ := hd
    cases hs with
    | operator => exact .none
    | node he heven =>
      cases pull with
      | right => exact .some (.node he heven)
      | stay | left => exact .none

theorem Site.Alike.right? (h : s.Alike s') : Option.Rel SettlesNode s.right? s'.right? := by
  obtain ⟨before, o, place, after⟩ := s
  obtain ⟨before', o', place', after'⟩ := s'
  obtain ⟨-, -, -, hafter⟩ := h
  dsimp only [Site.right?] at hafter ⊢
  cases hafter with
  | nil => exact .none
  | cons hd _ =>
    obtain ⟨hs, pull⟩ := hd
    cases hs with
    | operator => exact .none
    | node he heven =>
      cases pull with
      | left => exact .some (.node he heven)
      | stay | right => exact .none

/-- Both operands are drawn to an operator exactly if both settled ones are. -/
theorem Site.Alike.both? (h : s.Alike s') :
    (s.both? = none ∧ s'.both? = none) ∨
      ∃ l r l' r', s.both? = some (l, r) ∧ s'.both? = some (l', r') ∧ SettlesNode l l' ∧
        SettlesNode r r' := by
  have hleft := h.left?
  have hright := h.right?
  unfold Site.both?
  generalize s.left? = left, s'.left? = left', s.right? = right, s'.right? = right'
    at hleft hright ⊢
  cases hleft with
  | none => exact .inl ⟨rfl, rfl⟩
  | some hl =>
    cases hright with
    | none => exact .inl ⟨rfl, rfl⟩
    | some hr => exact .inr ⟨_, _, _, _, rfl, rfl, hl, hr⟩

theorem attaches_alike {before before' : List Drawn} (h : List.Forall₂ Alike before before') :
    attaches before' = attaches before := by
  induction h with
  | nil => rfl
  | cons hd _ ih =>
    obtain ⟨hs, pull⟩ := hd
    cases hs with
    | operator hp =>
      obtain ⟨hbinary, hbefore, hafter, -⟩ := Op.forms_of_mem_narrowings hp
      simp only [attaches, hbinary, hbefore, hafter, ih]
    | node he heven => simp only [attaches, heven.isSemicolon_eq he]

/-! ## §2 Nodes -/

variable {o o' : Operator} {e e' f f' : Expr}

theorem SettlesNode.span_eq (h : SettlesNode e e') : e'.span = e.span := by
  cases h with
  | node he heven => exact (heven e' he).1

theorem settles_binaryNode (ho : Settles (.operator o) (.operator o')) (he : SettlesNode e e')
    (hf : SettlesNode f f') : SettlesNode (binaryNode o e f) (binaryNode o' e' f') := by
  have hspan : binaryNode o' e' f' = .binary o' e' f' (e.span.merge f.span) := by
    rw [binaryNode, he.span_eq, hf.span_eq]
  rw [hspan]
  cases ho with
  | operator hp =>
    cases he with
    | node he =>
      cases hf with
      | node hf =>
        exact .node (Expr.mem_variants_binary.mpr ⟨_, hp, _, he, _, hf, rfl⟩)
          (even_of_combines (.binary _ _ _ _))

theorem settles_before (ho : Settles (.operator o) (.operator o')) (he : SettlesNode e e') :
    SettlesNode (.before o e (o.span.merge e.span)) (.before o' e' (o'.span.merge e'.span)) := by
  rw [he.span_eq]
  cases ho with
  | operator hp =>
    cases he with
    | node he =>
      exact .node (Expr.mem_variants_before.mpr ⟨_, hp, _, he, rfl⟩)
        (even_of_combines (.before _ _ _))

theorem settles_after (ho : Settles (.operator o) (.operator o')) (he : SettlesNode e e') :
    SettlesNode (.after o e (e.span.merge o.span)) (.after o' e' (e'.span.merge o'.span)) := by
  rw [he.span_eq]
  cases ho with
  | operator hp =>
    cases he with
    | node he =>
      exact .node (Expr.mem_variants_after.mpr ⟨_, hp, _, he, rfl⟩)
        (even_of_combines (.after _ _ _))

theorem binaryForm_alike (h : s.Alike s') (l l' : Level) :
    List.Forall₂ Mirrors (binaryForm s l) (binaryForm s' l') := by
  unfold binaryForm
  rcases h.both? with ⟨hnone, hnone'⟩ | ⟨e, f, e', f', hboth, hboth', he, hf⟩
  · rw [hnone, hnone']
    exact .nil
  · rw [hboth, hboth']
    refine .cons ⟨?_, ?_, settles_binaryNode h.operator he hf⟩ .nil
    · show s'.place - 1 = s.place - 1
      rw [h.place]
    · show s'.place + 2 = s.place + 2
      rw [h.place]

theorem Site.Alike.forms (h : s.Alike s') :
    s'.operator.op.isBinary = s.operator.op.isBinary ∧
      s'.operator.op.isAfter = s.operator.op.isAfter := by
  obtain ⟨before, o, place, after⟩ := s
  obtain ⟨before', o', place', after'⟩ := s'
  obtain ⟨-, hop, -, -⟩ := h
  cases hop with
  | operator hp =>
    obtain ⟨hbinary, -, hafter, -⟩ := Op.forms_of_mem_narrowings hp
    exact ⟨hbinary, hafter⟩

theorem beforeForm_alike (h : s.Alike s') (l l' : Level) :
    List.Forall₂ Mirrors (beforeForm s l) (beforeForm s' l') := by
  unfold beforeForm
  have hright := h.right?
  obtain ⟨hbinary, hafter⟩ := h.forms
  generalize s.right? = right, s'.right? = right' at hright ⊢
  cases hright with
  | none => exact .nil
  | some he =>
    dsimp only
    rw [hbinary, hafter, attaches_alike h.before]
    split
    · exact .nil
    · refine .cons ⟨h.place, ?_, settles_before h.operator he⟩ .nil
      show s'.place + 2 = s.place + 2
      rw [h.place]

theorem afterForm_alike (h : s.Alike s') (l l' : Level) :
    List.Forall₂ Mirrors (afterForm s l) (afterForm s' l') := by
  unfold afterForm
  have hleft := h.left?
  generalize s.left? = left, s'.left? = left' at hleft ⊢
  cases hleft with
  | none => exact .nil
  | some he =>
    refine .cons ⟨?_, ?_, settles_after h.operator he⟩ .nil
    · show s'.place - 1 = s.place - 1
      rw [h.place]
    · show s'.place + 1 = s.place + 1
      rw [h.place]

/-! ## §3 Flat runs -/

theorem not_juxtapose_of_isFlat {op : Op} (h : op.isFlat = true) (m : Meanings) :
    op ≠ .juxtapose m := by
  rintro rfl
  obtain ⟨l, hl, hassoc⟩ := Op.isFlat_iff.mp h
  obtain ⟨r, -, rfl⟩ := List.mem_map.mp hl
  cases hassoc

theorem gatherBefore_eq {before : List Drawn}
    (h : ∀ p, before.head?.bind (·.slot.operator?) = some p → p.op ≠ o.op) :
    gatherBefore o before = .ok (some []) := by
  unfold gatherBefore
  split
  · next p x n pull rest => rw [if_neg (h p rfl)]
  · next p x rest _ => rw [if_neg (h p rfl)]
  · rfl

/-- **A settled run gathers the same operands**, settled, to the left. -/
theorem gatherBefore_alike (hflat : o.op.isFlat = true) {before before' : List Drawn}
    (h : List.Forall₂ Alike before before') {found : Option (List Expr)}
    (hok : gatherBefore o before = .ok found) :
    ∃ found', gatherBefore o before' = .ok found' ∧
      Option.Rel (List.Forall₂ SettlesNode) found found' := by
  -- an operator is of the run after settling exactly if it was before
  have hsame : ∀ {p : Operator} {q : Op}, q ∈ p.op.narrowings → (q = o.op ↔ p.op = o.op) :=
    fun hq => Op.eq_iff_of_mem_narrowings hq (not_juxtapose_of_isFlat hflat)
  -- Before and after settling, operators and operands stand at the same places, so one induction follows
  -- both.
  fun_induction gatherBefore o before generalizing before' found with
  | case1 p x n rest hp ih =>
    cases h with
    | cons h₁ h =>
      obtain ⟨⟨hq⟩, x⟩ := h₁
      cases h with
      | cons h₂ h =>
        obtain ⟨hn, _⟩ := h₂
        cases hn with
        | @node _ n' hn heven =>
          obtain ⟨more, hmore, hok⟩ := bind_ok_iff.mp hok
          obtain ⟨more', hmore', hrel⟩ := ih h hmore
          cases hok
          refine ⟨more'.map (n' :: ·), ?_, ?_⟩
          · rw [gatherBefore, if_pos ((hsame hq).mpr hp)]
            exact bind_ok_iff.mpr ⟨_, hmore', rfl⟩
          · cases hrel with
            | none => exact .none
            | some hes => exact .some (.cons (.node hn heven) hes)
  | case2 p x n rest hp =>
    cases h with
    | cons h₁ h =>
      obtain ⟨⟨hq⟩, x⟩ := h₁
      cases h with
      | cons h₂ h =>
        obtain ⟨⟨_, _⟩, _⟩ := h₂
        cases hok
        refine ⟨none, ?_, .none⟩
        rw [gatherBefore, if_pos ((hsame hq).mpr hp)]
  | case3 p x n rest hp => cases hok
  | case4 p x n pull rest hp =>
    cases h with
    | cons h₁ h =>
      obtain ⟨⟨hq⟩, x⟩ := h₁
      cases hok
      refine ⟨some [], gatherBefore_eq ?_, .some .nil⟩
      rintro q ⟨⟩
      exact fun heq => hp ((hsame hq).mp heq)
  | case5 => cases hok
  | case6 p x rest hnode hp =>
    cases h with
    | cons h₁ h =>
      obtain ⟨⟨hq⟩, x⟩ := h₁
      cases hok
      refine ⟨some [], gatherBefore_eq ?_, .some .nil⟩
      rintro q ⟨⟩
      exact fun heq => hp ((hsame hq).mp heq)
  | case7 before hnode hop =>
    cases hok
    refine ⟨some [], gatherBefore_eq ?_, .some .nil⟩
    intro q hq
    cases h with
    | nil => cases hq
    | cons h₁ h =>
      obtain ⟨hs, pull⟩ := h₁
      cases hs with
      | operator => exact absurd rfl (hop _ _ _)
      | node => cases hq

/-- A settled range has as many range marks. -/
theorem checkRange_alike {operands operands' : List Expr}
    (h : List.Forall₂ SettlesNode operands operands')
    (hok : checkRange o operands = .ok ()) : checkRange o operands' = .ok () := by
  have hlen : ∀ {n m : Nat} {es es' : List Expr}, List.Forall₂ SettlesNode es es' →
      ((es'.zipIdx n).filter (·.1.isRangeMark)).length =
        ((es.zipIdx m).filter (·.1.isRangeMark)).length := by
    intro n m es es' hes
    induction hes generalizing n m with
    | nil => rfl
    | cons he _ ih =>
      cases he with
      | node he heven =>
        simp only [List.zipIdx_cons, List.filter_cons, heven.isRangeMark_eq he]
        split
        · exact congrArg Nat.succ ih
        · exact ih
  unfold checkRange at hok ⊢
  dsimp only [rangeMarks] at hok ⊢
  rw [List.length_map] at hok ⊢
  rw [hlen h (m := 0)]
  split at hok
  · cases hok
  · next hfree => rw [if_neg hfree]

theorem spanOfAll_settled {es es' : List Expr} (h : SettlesNode e e')
    (hes : List.Forall₂ SettlesNode es es') : Expr.spanOfAll e' es' = Expr.spanOfAll e es := by
  have hspans : es'.map Expr.span = es.map Expr.span := by
    induction hes with
    | nil => rfl
    | cons h _ ih => rw [List.map_cons, List.map_cons, h.span_eq, ih]
  rw [Expr.spanOfAll, Expr.spanOfAll, h.span_eq, hspans]

/-- A flat operator is no juxtaposition, so it stays what it is. -/
theorem Site.Alike.operator_eq (h : s.Alike s') (hc : s.operator.op.isContested = false) :
    s'.operator = s.operator := by
  obtain ⟨before, ⟨op, span⟩, place, after⟩ := s
  obtain ⟨before', o', place', after'⟩ := s'
  obtain ⟨-, hop, -, -⟩ := h
  dsimp only at hop hc ⊢
  cases hop with
  | operator hp =>
    rw [Op.narrowings_of_isContested_eq_false hc, List.mem_singleton] at hp
    rw [hp]

/-- The head of what is behind an operand, if it is an operator, is none of a flat run before it is
settled. -/
theorem gatherAfter_alike (hflat : o.op.isFlat = true) {after after' : List Drawn}
    (h : List.Forall₂ Alike after after')
    (hmax : ∀ p, after.head?.bind (·.slot.operator?) = some p → p.op ≠ o.op) :
    gatherAfter o after' = .ok (some []) := by
  refine gatherAfter_eq fun q hq => ?_
  cases h with
  | nil => cases hq
  | cons hd _ =>
    obtain ⟨hs, pull⟩ := hd
    cases hs with
    | node => cases hq
    | @operator p q' hp =>
      cases hq
      rw [Ne, Op.eq_iff_of_mem_narrowings hp (not_juxtapose_of_isFlat hflat)]
      exact hmax _ rfl

theorem settles_flat {operands operands' : List Expr} (hc : o.op.isContested = false)
    (h : List.Forall₂ SettlesNode operands operands') (span : Span) :
    SettlesNode (.flat o operands span) (.flat o operands' span) := by
  have hop : o.op ∈ o.op.narrowings := by
    rw [Op.narrowings_of_isContested_eq_false hc]
    exact List.mem_singleton_self _
  refine .node (Expr.mem_variants_flat.mpr ⟨o.op, hop, operands', h.imp ?_, rfl⟩) ?_
  · intro e e' he
    cases he with
    | node he => exact he
  · intro e' he
    obtain ⟨_, -, _, -, rfl⟩ := Expr.mem_variants_flat.mp he
    exact ⟨rfl, rfl⟩

/-- **A settled run is reduced as the run is.** -/
theorem flatForm_alike (h : s.Alike s') (hflat : s.operator.op.isFlat = true)
    (hmax : ∀ e rest, s.after = ⟨.node e, .left⟩ :: rest →
      ∀ p, rest.head?.bind (·.slot.operator?) = some p → p.op ≠ s.operator.op)
    {found : List Reduction} (hok : flatForm s = .ok found) :
    ∃ found', flatForm s' = .ok found' ∧ List.Forall₂ Mirrors found found' := by
  have hc := Op.isContested_of_holdsContested_eq_false (Op.holdsContested_of_isFlat hflat)
  unfold flatForm at hok ⊢
  rw [h.operator_eq hc]
  rcases h.both? with ⟨hnone, hnone'⟩ | ⟨l, r, l', r', hboth, hboth', hl, hr⟩
  · rw [hnone] at hok
    cases hok
    exact ⟨[], by rw [hnone'], .nil⟩
  · rw [hboth] at hok
    rw [hboth']
    obtain ⟨before, hbefore, hok⟩ := bind_ok_iff.mp hok
    obtain ⟨before', hbefore', hrel⟩ :=
      gatherBefore_alike hflat (List.forall₂_drop 1 h.before) (by rwa [List.drop_one])
    rw [List.drop_one] at hbefore'
    cases hrel with
    | none =>
      cases hok
      exact ⟨[], bind_ok_iff.mpr ⟨_, hbefore', rfl⟩, .nil⟩
    | @some es es' hes =>
      -- the operand on the right is drawn to the left, so no operator of the run stands behind it
      obtain ⟨back, hback⟩ := right?_eq_some (both?_eq_some hboth).2
      have hhead := hmax r back hback
      have hafter' := gatherAfter_alike hflat (List.forall₂_drop 1 h.after)
        (by rw [List.drop_one, hback]; exact hhead)
      rw [List.drop_one] at hafter'
      rw [hback, List.tail_cons] at hok
      dsimp only at hok
      rw [gatherAfter_eq hhead] at hok
      obtain ⟨_, ⟨⟩, hok⟩ := bind_ok_iff.mp hok
      obtain ⟨⟨⟩, hrange, hok⟩ := bind_ok_iff.mp hok
      cases hok
      have hoperands : List.Forall₂ SettlesNode (es.reverse ++ [l, r]) (es'.reverse ++ [l', r']) :=
        List.rel_append (List.rel_reverse hes) (.cons hl (.cons hr .nil))
      have hspan : Expr.spanOfAll l' (es' ++ [r']) = Expr.spanOfAll l (es ++ [r]) :=
        spanOfAll_settled hl (List.rel_append hes (.cons hr .nil))
      refine ⟨_, bind_ok_iff.mpr ⟨_, hbefore', bind_ok_iff.mpr ⟨_, hafter',
        bind_ok_iff.mpr ⟨_, checkRange_alike hoperands hrange, rfl⟩⟩⟩, .cons ⟨?_, ?_, ?_⟩ .nil⟩
      · show s'.place - 1 - 2 * es'.length = s.place - 1 - 2 * es.length
        rw [h.place, hes.length_eq]
      · show s'.place + 2 + 2 * 0 = s.place + 2 + 2 * 0
        rw [h.place]
      · show SettlesNode (.flat s.operator (es.reverse ++ [l, r]) _) (.flat s.operator _ _)
        rw [hspan]
        exact settles_flat hc hoperands _

/-! ## §4 Forms -/

/-- **`NoneAlone`** — every operator may stand in itself. -/
def NoneAlone (slots : List Slot) : Prop :=
  ∀ o, .operator o ∈ slots → ∀ l ∈ o.op.levels, l.assoc ≠ .alone

/-- The form of a level is taken in a settled list where it was taken before. -/
theorem formsAt_alike (h : s.Alike s') (hls : s.operator.op.levels = [l])
    (hl : l.assoc ≠ .alone)
    (hmax : s.operator.op.isFlat = true → ∀ e rest, s.after = ⟨.node e, .left⟩ :: rest →
      ∀ p, rest.head?.bind (·.slot.operator?) = some p → p.op ≠ s.operator.op)
    {found : List Reduction} (hok : formsAt s l = .ok found) :
    ∃ found', formsAt s' l = .ok found' ∧ List.Forall₂ Mirrors found found' := by
  unfold formsAt at hok ⊢
  split at hok
  · cases hok
    exact ⟨_, rfl, binaryForm_alike h l l⟩
  · cases hok
    exact ⟨_, rfl, binaryForm_alike h l l⟩
  · next halone => exact absurd halone hl
  · next hassoc =>
    have hflat : s.operator.op.isFlat = true := Op.isFlat_iff.mpr ⟨l, by simp [hls], hassoc⟩
    exact flatForm_alike h hflat (hmax hflat) hok
  · cases hok
    exact ⟨_, rfl, beforeForm_alike h l l⟩
  · cases hok
    exact ⟨_, rfl, afterForm_alike h l l⟩

/-- **An operator is reduced in a settled list where it was reduced before.** -/
theorem at?_alike (h : s.Alike s') (halone : ∀ l ∈ s.operator.op.levels, l.assoc ≠ .alone)
    (hmax : s.operator.op.isFlat = true → ∀ e rest, s.after = ⟨.node e, .left⟩ :: rest →
      ∀ p, rest.head?.bind (·.slot.operator?) = some p → p.op ≠ s.operator.op)
    {found : Option Reduction} (hok : at? s = .ok found) :
    ∃ found', at? s' = .ok found' ∧ Option.Rel Mirrors found found' := by
  cases hc : s.operator.op.isContested with
  | true =>
    -- the levels of a contested juxtaposition agree, and a settled one has one of them
    have hop := h.operator
    generalize heq : s'.operator = o' at hop
    have hls : ∃ row, s'.operator.op.levels = [⟨row, .left⟩] := by
      rw [heq]
      cases hop with
      | operator hp =>
        obtain ⟨⟨row, assoc⟩, -, hls, rfl⟩ := Op.levels_of_mem_narrowings hp hc
        exact ⟨row, hls⟩
    obtain ⟨row, hls⟩ := hls
    rw [at?_of_holdsContested (Op.holdsContested_of_isContested hc)] at hok
    cases hok
    refine ⟨_, ?_, head?_rel (binaryForm_alike h _ ⟨row, .left⟩)⟩
    rw [at?_of_levels_one hls]
    rfl
  | false =>
    have hop := h.operator_eq hc
    have ha := Op.arranged_levels s.operator.op
    generalize hls : s.operator.op.levels = ls at ha halone
    have hls' : s'.operator.op.levels = ls := by rw [hop, hls]
    cases ha with
    | none =>
      rw [at?_of_levels_nil hls] at hok
      cases hok
      exact ⟨none, at?_of_levels_nil hls', .none⟩
    | one l =>
      rw [at?_of_levels_one hls] at hok
      obtain ⟨rs, hrs, rfl⟩ := map_ok_iff.mp hok
      obtain ⟨rs', hrs', hrel⟩ := formsAt_alike h hls (halone l (List.mem_singleton_self l)) hmax hrs
      exact ⟨_, (at?_of_levels_one hls').trans (map_ok_iff.mpr ⟨_, hrs', rfl⟩), head?_rel hrel⟩
    | dual row =>
      rw [at?_of_levels_dual hls] at hok
      cases hok
      refine ⟨_, at?_of_levels_dual hls', ?_⟩
      have hbinary := head?_rel (binaryForm_alike h ⟨row, .left⟩ ⟨row, .left⟩)
      have hbefore := head?_rel (beforeForm_alike h ⟨row + 1, .before⟩ ⟨row + 1, .before⟩)
      revert hbinary
      generalize (binaryForm s ⟨row, .left⟩).head? = b, (binaryForm s' ⟨row, .left⟩).head? = b'
      rintro (hb | _)
      · exact .some hb
      · exact hbefore
    | split =>
      rw [at?_of_holdsContested (Op.holdsContested_iff.mpr hls)] at hok
      cases hok
      exact ⟨_, at?_of_holdsContested (Op.holdsContested_iff.mpr hls'),
        head?_rel (binaryForm_alike h _ _)⟩

/-! ## §5 Passes and runs -/

/-- **A pass makes the same reductions in a settled list**; `front` is what stands before. -/
theorem allFrom_alike (front : List Drawn) {before' rest rest' : List Drawn}
    (hbefore : List.Forall₂ Alike front.reverse before') (hrest : List.Forall₂ Alike rest rest')
    (hs : Surveyed (front ++ rest)) (halone : NoneAlone (rest.map (·.slot)))
    {rs : List Reduction} (h : allFrom front.reverse front.length rest = .ok rs) :
    ∃ rs', allFrom before' front.length rest' = .ok rs' ∧ List.Forall₂ Mirrors rs rs' := by
  induction hrest generalizing front before' rs with
  | nil =>
    cases h
    exact ⟨[], rfl, .nil⟩
  | @cons d d' rest rest' hd hrest ih =>
    have hs' : Surveyed ((front ++ [d]) ++ rest) := by simpa using hs
    have hrev : (front ++ [d]).reverse = d :: front.reverse := by simp
    have hlen : (front ++ [d]).length = front.length + 1 := by simp
    have hbefore' : List.Forall₂ Alike (front ++ [d]).reverse (d' :: before') := by
      rw [hrev]
      exact .cons hd hbefore
    have hnext : ∀ {rs}, allFrom (front ++ [d]).reverse (front ++ [d]).length rest = .ok rs →
        ∃ rs', allFrom (d' :: before') (front ++ [d]).length rest' = .ok rs' ∧
          List.Forall₂ Mirrors rs rs' :=
      fun h => ih (front ++ [d]) hbefore' hs' (fun o ho => halone o (List.mem_cons_of_mem _ ho)) h
    rw [hrev, hlen] at hnext
    obtain ⟨hslot, pull⟩ := hd
    cases hslot with
    | node he heven =>
      rw [allFrom] at h ⊢
      exact hnext h
    | @operator o p hp =>
      rw [allFrom] at h ⊢
      obtain ⟨found, hfound, h⟩ := bind_ok_iff.mp h
      obtain ⟨others, hothers, h⟩ := bind_ok_iff.mp h
      cases h
      have halike : Site.Alike ⟨front.reverse, o, front.length, rest⟩
          ⟨before', ⟨p, o.span⟩, front.length, rest'⟩ := ⟨hbefore, .operator hp, rfl, hrest⟩
      obtain ⟨found', hfound', hrel⟩ := at?_alike halike (halone o (by simp)) (by
        rintro hflat e back rfl q hq
        refine head_ne_of_drawn_left hflat hs q ?_
        cases back with
        | nil => exact hq
        | cons d back => exact hq) hfound
      obtain ⟨others', hothers', hall⟩ := hnext hothers
      refine ⟨_, bind_ok_iff.mpr ⟨_, hfound', bind_ok_iff.mpr ⟨_, hothers', rfl⟩⟩, ?_⟩
      cases hrel with
      | none => exact hall
      | some hr => exact .cons hr hall

theorem foldr_splice_settled {rs rs' : List Reduction} (hrs : List.Forall₂ Mirrors rs rs')
    (h : SettlesAll slots settled) :
    SettlesAll (rs.foldr splice slots) (rs'.foldr splice settled) := by
  induction hrs with
  | nil => exact h
  | cons hr _ ih =>
    rw [List.foldr_cons, List.foldr_cons, splice, splice, hr.start, hr.stop]
    exact List.rel_append (List.forall₂_take _ ih) (.cons hr.node (List.forall₂_drop _ ih))

theorem drawnOf_settled (h : SettlesAll slots settled) (pulls : List Pull) :
    List.Forall₂ Alike (drawnOf slots pulls) (drawnOf settled pulls) := by
  unfold drawnOf
  induction h generalizing pulls with
  | nil => exact .nil
  | cons hs _ ih =>
    cases pulls with
    | nil => exact .nil
    | cons pull pulls => exact .cons (.mk hs pull) (ih pulls)

/-- **A pass over a settled list leads to a settled list.** -/
theorem pass_settled {next : List Slot} {pulls : List Pull} (hv : SettlesAll slots settled)
    (halone : NoneAlone slots) (hd : survey slots = .ok (.decided pulls))
    (h : pass slots pulls = .ok next) :
    ∃ next', pass settled pulls = .ok next' ∧ SettlesAll next next' := by
  obtain ⟨hlen, hsurveyed⟩ := survey_decided hd
  obtain ⟨rs, hrs, h⟩ := bind_ok_iff.mp h
  cases h
  obtain ⟨rs', hrs', hall⟩ := allFrom_alike [] .nil (drawnOf_settled hv pulls) hsurveyed
    (by rwa [map_slot_drawnOf hlen]) hrs
  exact ⟨_, bind_ok_iff.mpr ⟨rs', hrs', rfl⟩, foldr_splice_settled hall hv⟩

end Reduction

namespace Reading

open Reduction

variable {slots next narrowed : List Slot}

/-- **A step of a list is a step of the settled list.** -/
theorem Shortens.settled (h : Shortens slots next) (hv : SettlesAll slots narrowed)
    (hspaced : Spaced slots) (halone : NoneAlone slots) :
    ∃ next', Shortens narrowed next' ∧ SettlesAll next next' := by
  obtain ⟨pulls, hd, hpass, hlen⟩ := h
  obtain ⟨next', hpass', hall⟩ := pass_settled hv halone hd hpass
  refine ⟨next', ⟨pulls, survey_settled hv hspaced hd, hpass', ?_⟩, hall⟩
  rw [← hall.length_eq, ← hv.length_eq]
  exact hlen

end Reading

end DewyFront
