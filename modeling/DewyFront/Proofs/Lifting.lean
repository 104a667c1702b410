/-
# DewyFront.Proofs.Lifting — a settled list comes from one that was settled before

Settling may be put off: what a list settles to after a pass is what a pass makes of the list when it
is settled before. A node of the settled list is taken apart again, and its parts are joined for the
same reasons as those of the node it settles. How the juxtapositions inside a node are settled may be
fixed. That matters where contested ones stand on both sides of an operand: the operand went to the
left, and it goes there still if the left one is settled to bind at least as hard as any other.

* §1 shapes and neighbours of settled lists;
* §2 lists whose nodes are settled in a fixed way;
* §3 stretches;
* §4 passes and runs.
-/
import DewyFront.Proofs.Climbing
import DewyFront.Proofs.Spacing

namespace DewyFront

namespace Reduction

/-! ## §1 Neighbours -/

variable {front front' back back' slots slots' narrowed : List Slot} {o : Operator} {p : Op}
  {left left' : Option Operator} {e e' : Expr}

theorem next_settled {s s' : Slot} (h : Settles s s') (t : Turn) : t.next s' = t.next s := by
  cases h with
  | @operator o p hp =>
    obtain ⟨hbinary, hbefore, hafter, -⟩ := Op.forms_of_mem_narrowings hp
    have hbond : p = .bond .semicolon ↔ o.op = .bond .semicolon :=
      Op.eq_iff_of_mem_narrowings hp (by simp)
    cases t <;> simp only [Turn.next, hbinary, hbefore, hafter, hbond]
  | node he heven =>
    cases t <;> simp only [Turn.next, heven.isSemicolon_eq he]

/-- **A settled list has the shape of the list.** -/
theorem turnFrom_settled (h : SettlesAll slots narrowed) (t : Turn) :
    turnFrom t narrowed = turnFrom t slots := by
  induction h generalizing t with
  | nil => rfl
  | cons hs _ ih =>
    rw [turnFrom, turnFrom, next_settled hs]
    exact Option.bind_congr fun u _ => ih u

theorem SettlesAll.lastOperator (h : SettlesAll slots narrowed) :
    SettlesTo (lastOperator slots) (Reduction.lastOperator narrowed) := by
  have hrel := head?_rel (List.rel_reverse h)
  rw [List.head?_reverse, List.head?_reverse] at hrel
  exact .of_slot hrel

theorem SettlesAll.headOperator (h : SettlesAll slots narrowed) :
    SettlesTo (headOperator slots) (Reduction.headOperator narrowed) :=
  .of_slot (head?_rel h)

/-- A neighbour that is settled is of a flat run only if it was before. -/
theorem SettlesTo.ne_of_isFlat (h : SettlesTo left left') (hflat : o.op.isFlat = true)
    (hne : ∀ q, left = Option.some q → q.op ≠ o.op) : ∀ q, left' = Option.some q → q.op ≠ o.op := by
  rintro q rfl
  cases h with
  | some hp =>
    rw [Ne, Op.eq_iff_of_mem_narrowings hp (not_juxtapose_of_isFlat hflat)]
    exact hne _ rfl

theorem DrawnRight.settled (h : DrawnRight left (some o)) (hl : SettlesTo left left')
    (hp : p ∈ o.op.narrowings) : DrawnRight left' (some ⟨p, o.span⟩) :=
  calc (reachFrom left').high ≤ (reachFrom left).high := hl.reachFrom_within.high
    _ < o.op.leftPower.low := h
    _ ≤ p.leftPower.low := (Op.leftPower_within hp).low

theorem SettlesTo.reachTo_high_le {right right' : Option Operator} (h : SettlesTo right right') :
    (reachTo right').high ≤ 63 := by
  cases h with
  | none => exact Nat.zero_le _
  | some => exact Op.leftPower_high_le _

theorem DrawnLeft.settled {right right' : Option Operator} (h : DrawnLeft (some o) right)
    (hr : SettlesTo right right') (hp : p ∈ o.op.narrowings)
    (hheld : o.op.isContested = true → isContested right = false ∨ 63 < p.rightPower.low) :
    DrawnLeft (some ⟨p, o.span⟩) right' := by
  refine .inr ?_
  rcases h with ⟨hc, hright⟩ | hlt
  · rcases hheld (by simpa [isContested] using hc) with hspaced | hfirm
    · rw [hspaced] at hright
      cases hright
    · exact Nat.lt_of_le_of_lt hr.reachTo_high_le hfirm
  · calc (reachTo right').high ≤ (reachTo right).high := hr.reachTo_within.high
      _ < o.op.rightPower.low := hlt
      _ ≤ p.rightPower.low := (Op.rightPower_within hp).low

/-! ## §2 Nodes settled in a fixed way -/

variable {f : Op → List Op}

/-- **`Fixes`** — a slot with its juxtapositions settled; those inside a node as `f` says. -/
inductive Fixes (f : Op → List Op) : Slot → Slot → Prop
  | operator {o : Operator} {p : Op} (h : p ∈ o.op.narrowings) :
      Fixes f (.operator o) (.operator ⟨p, o.span⟩)
  | node {e e' : Expr} (h : e' ∈ e.variants f) : Fixes f (.node e) (.node e')

/-- The slots of two lists settle, one by one, and what is inside of nodes as `f` says. -/
abbrev FixesAll (f : Op → List Op) : List Slot → List Slot → Prop := List.Forall₂ (Fixes f)

/-- **`Firm`** — contested juxtapositions are settled to bind harder to the right than anything binds
to the left. -/
def Firm (f : Op → List Op) : Prop :=
  ∀ op, ∀ p ∈ f op, op.isContested = true → 63 < p.rightPower.low

/-- What `f` says about the inside of nodes may be said about operators as well. -/
theorem fixesAll_of_varies (hf : ∀ op, f op ⊆ op.narrowings) (h : VariesAll f slots narrowed) :
    FixesAll f slots narrowed := by
  induction h with
  | nil => exact .nil
  | cons hs _ ih =>
    refine .cons ?_ ih
    cases hs with
    | operator hp => exact .operator (hf _ hp)
    | node he => exact .node he

theorem FixesAll.settles (hf : ∀ op, f op ⊆ op.narrowings) (heven : ∀ n, .node n ∈ slots → Even n)
    (h : FixesAll f slots narrowed) : SettlesAll slots narrowed := by
  induction h with
  | nil => exact .nil
  | cons hs _ ih =>
    refine .cons ?_ (ih fun n hn => heven n (List.mem_cons_of_mem _ hn))
    cases hs with
    | operator hp => exact .operator hp
    | node he => exact .node (Expr.variants_mono hf he) (heven _ List.mem_cons_self)

/-! ## §3 Stretches -/

/-- Behind an operator and its operand stands no contested juxtaposition, if the operator is one. -/
theorem Spaced.not_isContested (h : Spaced (.operator o :: .node e :: back)) :
    o.op.isContested = true → isContested (headOperator back) = false := by
  intro hc
  obtain ⟨n, more, heq, hmore⟩ := h.1 hc
  cases heq
  exact hmore

theorem settlesNode_of_variants {es es' : List Expr} (hf : ∀ op, f op ⊆ op.narrowings)
    (heven : ∀ n ∈ es, Even n) (h : List.Forall₂ (fun n n' => n' ∈ n.variants f) es es') :
    List.Forall₂ SettlesNode es es' := by
  induction h with
  | nil => exact .nil
  | cons hn _ ih =>
    exact .cons (.node (Expr.variants_mono hf hn) (heven _ List.mem_cons_self))
      (ih fun n hn => heven n (List.mem_cons_of_mem _ hn))

/-- **A variant of a node is joined from variants of its parts**, between settled neighbours. -/
theorem Joins.unsettled {seg : List Slot} (hf : ∀ op, f op ⊆ op.narrowings)
    (h : Joins front back seg e) (heven : ∀ n, .node n ∈ seg → Even n)
    (hheld : Spaced (seg ++ back) ∨ Firm f) (hfront : SettlesAll front front')
    (he : e' ∈ e.variants f) :
    ∃ seg', VariesAll f seg seg' ∧ ∀ back', SettlesAll back back' → Joins front' back' seg' e' := by
  have hleft : SettlesTo (lastOperator front) (lastOperator front') := hfront.lastOperator
  have hspan : ∀ {n n' : Expr}, Even n → n' ∈ n.variants f → n'.span = n.span :=
    fun hn hn' => (hn _ (Expr.variants_mono hf hn')).1
  -- A variant of the node has variants of its operator and of its operands, which are the segment that it
  -- comes from.
  cases h with
  | @binary o l r hbinary hflat hl hr =>
    obtain ⟨p, hp, l', hl', r', hr', rfl⟩ := Expr.mem_variants_binary.mp he
    refine ⟨[.node l', .operator ⟨p, o.span⟩, .node r'],
      .cons (.node hl') (.cons (.operator hp) (.cons (.node hr') .nil)), ?_⟩
    intro back' hback
    obtain ⟨hb, -, -, hfl⟩ := Op.forms_of_mem_narrowings (hf _ hp)
    rw [← hspan (heven l (by simp)) hl', ← hspan (heven r (by simp)) hr']
    refine .binary (hb.trans hbinary) (hfl.trans hflat) (hl.settled hleft (hf _ hp))
      (hr.settled hback.headOperator (hf _ hp) fun hc => ?_)
    exact hheld.imp (fun hs => Spaced.not_isContested hs hc) fun hfirm => hfirm _ p hp hc
  | @before o n hbefore hturn hr =>
    obtain ⟨p, hp, n', hn', rfl⟩ := Expr.mem_variants_before.mp he
    refine ⟨[.operator ⟨p, o.span⟩, .node n'], .cons (.operator hp) (.cons (.node hn') .nil), ?_⟩
    intro back' hback
    obtain ⟨hb, hbe, ha, -⟩ := Op.forms_of_mem_narrowings (hf _ hp)
    rw [← hspan (heven n (by simp)) hn']
    refine .before (hbe.trans hbefore) (fun ht => ?_)
      (hr.settled hback.headOperator (hf _ hp) fun hc => ?_)
    · rw [hb, ha]
      rw [turnOf, turnFrom_settled hfront] at ht
      exact hturn ht
    · exact hheld.imp (fun hs => Spaced.not_isContested hs hc) fun hfirm => hfirm _ p hp hc
  | @after o n hafter hl =>
    obtain ⟨p, hp, n', hn', rfl⟩ := Expr.mem_variants_after.mp he
    refine ⟨[.node n', .operator ⟨p, o.span⟩], .cons (.node hn') (.cons (.operator hp) .nil), ?_⟩
    intro back' hback
    obtain ⟨-, -, ha, -⟩ := Op.forms_of_mem_narrowings (hf _ hp)
    rw [← hspan (heven n (by simp)) hn']
    exact .after (ha.trans hafter) (hl.settled hleft (hf _ hp))
  | @flat o first last links hflat hsame hl hr hfrontne hbackne =>
    obtain ⟨p, hp, es, hes, rfl⟩ := Expr.mem_variants_flat.mp he
    have hc := Op.isContested_of_holdsContested_eq_false (Op.holdsContested_of_isFlat hflat)
    -- The operator of a run is not contested, and stays what it is.
    have hpo : p = o.op := by
      have hp := hf _ hp
      rw [Op.narrowings_of_isContested_eq_false hc] at hp
      exact List.mem_singleton.mp hp
    subst hpo
    have hnodes := settlesNode_of_variants hf (fun n hn => heven n (node_mem_run o hn)) hes
    cases hes with
    | @cons _ first' _ _ hfirst hes =>
      obtain ⟨inner, lasts, rfl, hinner, hlast⟩ := exists_append_of_forall₂ hes
      cases hlast with
      | @cons _ last' _ _ hlast hnil =>
        cases hnil
        obtain ⟨links', rfl, hops, hall⟩ := variesAll_runSlots (p := o.op) hfirst
          (fun q hq => by rw [hsame q hq]; exact hp) hinner
        refine ⟨_, hall.append (.cons (.operator hp) (.cons (.node hlast) .nil)),
          fun back' hback => ?_⟩
        have hspans : Expr.spanOfAll first' (links'.map Prod.snd ++ [last']) =
            Expr.spanOfAll first (links.map Prod.snd ++ [last]) := by
          cases hnodes with
          | cons hfirst hrest => exact spanOfAll_settled hfirst hrest
        rw [← hspans]
        exact .flat hflat hops (hl.settled hleft (hf _ hp))
          (hr.settled hback.headOperator (hf _ hp) fun ho => by rw [hc] at ho; cases ho)
          (hleft.ne_of_isFlat hflat hfrontne)
          (SettlesTo.ne_of_isFlat hback.headOperator hflat hbackne)

/-! ## §4 Passes -/

/-- **A settled list that a pass leads to is led to from a settled list.** -/
theorem Passes.unsettled (hf : ∀ op, f op ⊆ op.narrowings) (h : Passes front slots slots')
    (heven : ∀ n, .node n ∈ slots → Even n) (hheld : Spaced slots ∨ Firm f)
    (hfront : SettlesAll front front') (hv : FixesAll f slots' narrowed) :
    ∃ origin, FixesAll f slots origin ∧ Passes front' origin narrowed := by
  induction h generalizing front' narrowed with
  | nil =>
    cases hv
    exact ⟨[], .nil, .nil⟩
  | @keep front rest rest' s _ ih =>
    cases hv with
    | @cons _ s' _ _ hslot hv =>
      have hone : FixesAll f [s] [s'] := .cons hslot .nil
      have hsettles := hone.settles hf fun n hn => heven n (by simp_all)
      obtain ⟨origin, horigin, hpasses⟩ := ih (fun n hn => heven n (List.mem_cons_of_mem _ hn))
        (hheld.imp_left fun hs => Spaced.of_append (List.singleton_append ▸ hs))
        (List.rel_append hfront hsettles) hv
      exact ⟨_, List.rel_append hone horigin, .keep hpasses⟩
  | @join front seg rest rest' e hjoins _ ih =>
    have hseg : ∀ n, .node n ∈ seg → Even n := fun n hn => heven n (List.mem_append_left _ hn)
    have hrest : ∀ n, .node n ∈ rest → Even n := fun n hn => heven n (List.mem_append_right _ hn)
    cases hv with
    | cons hslot hv =>
      cases hslot with
      | node he =>
        obtain ⟨seg', hvaries, hjoins'⟩ := hjoins.unsettled hf hseg hheld hfront he
        have hfixes := fixesAll_of_varies hf hvaries
        obtain ⟨origin, horigin, hpasses⟩ := ih hrest (hheld.imp_left Spaced.of_append)
          (List.rel_append hfront (hfixes.settles hf hseg)) hv
        exact ⟨seg' ++ origin, List.rel_append hfixes horigin,
          .join (hjoins' origin (horigin.settles hf hrest)) hpasses⟩

end Reduction

namespace Reading

open Reduction Climbing

variable {slots next narrowed : List Slot}

/-- **A settled list that a run leads to is led to from a settled list.** -/
theorem Runs.unsettled (h : Runs slots next) (ht : Tidy slots)
    (hv : VariesAll Op.narrowings next narrowed) :
    ∃ origin, VariesAll Op.narrowings slots origin ∧ Joined origin narrowed := by
  have hself : ∀ op : Op, op.narrowings ⊆ op.narrowings := fun _ => List.Subset.refl _
  induction h generalizing narrowed with
  | refl => exact ⟨narrowed, hv, .refl⟩
  | @tail middle _ hruns hstep ih =>
    have hmiddle : Tidy middle := Runs.tidy hruns ht
    have heven : ∀ n, .node n ∈ middle → Reduction.Even n := fun n hn => (hmiddle.formed n hn).even
    obtain ⟨between, hbetween, hpasses⟩ := hstep.passes.unsettled hself heven
      (.inl hmiddle.spaced) .nil (fixesAll_of_varies hself hv)
    obtain ⟨origin, horigin, hjoined⟩ := ih (hbetween.settles hself heven).varies
    exact ⟨origin, horigin, hjoined.tail hpasses⟩

/-- It is so without spaces between contested juxtapositions, too, if those inside nodes are firm. -/
theorem Runs.unsettled_of_firm {f : Op → List Op} (hf : ∀ op, f op ⊆ op.narrowings) (hfirm : Firm f)
    (h : Runs slots next) (hformed : FormedAll slots) (hv : FixesAll f next narrowed) :
    ∃ origin, FixesAll f slots origin ∧ Joined origin narrowed := by
  induction h generalizing narrowed with
  | refl => exact ⟨narrowed, hv, .refl⟩
  | @tail middle _ hruns hstep ih =>
    have hmiddle : FormedAll middle := Runs.formed hruns hformed
    obtain ⟨between, hbetween, hpasses⟩ := hstep.passes.unsettled hf
      (fun n hn => (hmiddle n hn).even) (.inr hfirm) .nil hv
    obtain ⟨origin, horigin, hjoined⟩ := ih hbetween
    exact ⟨origin, horigin, hjoined.tail hpasses⟩

end Reading

end DewyFront
