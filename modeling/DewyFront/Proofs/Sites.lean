/-
# DewyFront.Proofs.Sites — what an operator makes of its surroundings

The levels of an operator and the operands drawn to it leave one form at most. This module says which:
first as an equation for each list of levels that an operator may have, then as the stretch of slots
that the form replaces.

* §1 the choice among few forms;
* §2 the form of an operator, by its levels;
* §3 the operands of a flat run;
* §4 the stretch that a form replaces.
-/
import DewyFront.Proofs.Pulls
import Mathlib.Data.List.Induction
import Mathlib.Data.List.Perm.Basic

namespace DewyFront

namespace Reduction

/-! ## §1 The choice -/

theorem choose_nil : choose [] = .ok none := rfl

theorem preferBinary_singleton (r : Reduction) : preferBinary [r] = [r] := by
  obtain ⟨n, a, b, form, p⟩ := r
  cases form <;> rfl

theorem preferTight_singleton (r : Reduction) : preferTight [r] = [r] := by
  unfold preferTight
  split
  · simp
  · rfl

theorem choose_singleton (r : Reduction) : choose [r] = .ok (some r) := by
  have hd : distinct [r] = [r] := rfl
  rw [choose, hd, preferBinary_singleton, preferTight_singleton]

theorem choose_of_length_le {rs : List Reduction} (h : rs.length ≤ 1) :
    choose rs = .ok rs.head? := by
  match rs, h with
  | [], _ => rfl
  | [r], _ => exact choose_singleton r

/-- A form that agrees with the one before it is dropped. -/
theorem choose_agreeing {r t : Reduction} (h : agrees r t = true) : choose [r, t] = .ok (some r) := by
  have hd : distinct [r, t] = [r] := by simp [distinct, h]
  rw [choose, hd, preferBinary_singleton, preferTight_singleton]

/-- A form between operands is chosen before one in front of an operand. -/
theorem choose_binary_before {r t : Reduction} (hr : r.form = .binary) (ht : t.form = .before)
    (h : agrees r t = false) : choose [r, t] = .ok (some r) := by
  have hd : distinct [r, t] = [r, t] := by simp [distinct, h]
  have hb : preferBinary [r, t] = [r] := by simp [preferBinary, hr, ht]
  rw [choose, hd, hb, preferTight_singleton]

/-! ## §2 The form of an operator -/

variable {s : Site} {o : Operator} {l : Level}

theorem binaryForm_length (s : Site) (l : Level) : (binaryForm s l).length ≤ 1 := by
  unfold binaryForm
  split <;> simp

theorem beforeForm_length (s : Site) (l : Level) : (beforeForm s l).length ≤ 1 := by
  unfold beforeForm
  split
  · split <;> simp
  · simp

theorem afterForm_length (s : Site) (l : Level) : (afterForm s l).length ≤ 1 := by
  unfold afterForm
  split <;> simp

/-- **An operator that stands alone is made to what any operator between operands is**, and none of its
level stands inside them. -/
theorem eq_of_aloneForm {found : List Reduction} (h : aloneForm s l = .ok found) :
    found = binaryForm s l ∧ ∀ left right, s.both? = some (left, right) →
      checkNesting s.operator left = .ok () ∧ checkNesting s.operator right = .ok () := by
  unfold aloneForm at h
  split at h
  · next left right hboth =>
    obtain ⟨⟨⟩, hleft, h⟩ := bind_ok_iff.mp h
    obtain ⟨⟨⟩, hright, h⟩ := bind_ok_iff.mp h
    cases h
    refine ⟨rfl, fun left' right' hboth' => ?_⟩
    cases hboth.symm.trans hboth'
    exact ⟨hleft, hright⟩
  · next hnone =>
    cases h
    refine ⟨by rw [binaryForm, hnone], fun left right hboth => ?_⟩
    cases hnone.symm.trans hboth

/-- **What a run is made to**: nothing, or one node with its operands, which were checked. -/
theorem cases_of_flatForm {found : List Reduction} (h : flatForm s = .ok found) :
    found = [] ∨ ∃ left right before after, s.both? = some (left, right) ∧
      gatherBefore s.operator s.before.tail = .ok (some before) ∧
      gatherAfter s.operator s.after.tail = .ok (some after) ∧
      checkRange s.operator (before.reverse ++ left :: right :: after) = .ok () ∧
      found = [⟨.flat s.operator (before.reverse ++ left :: right :: after)
        (Expr.spanOfAll left (before ++ right :: after)), s.place - 1 - 2 * before.length,
        s.place + 2 + 2 * after.length, .flat, 0⟩] := by
  unfold flatForm at h
  split at h
  · cases h
    exact .inl rfl
  · next left right hboth =>
    obtain ⟨before, hbefore, h⟩ := bind_ok_iff.mp h
    cases before with
    | none =>
      cases h
      exact .inl rfl
    | some before =>
      obtain ⟨after, hafter, h⟩ := bind_ok_iff.mp h
      cases after with
      | none =>
        cases h
        exact .inl rfl
      | some after =>
        obtain ⟨⟨⟩, hcheck, h⟩ := bind_ok_iff.mp h
        cases h
        exact .inr ⟨left, right, before, after, hboth, hbefore, hafter, hcheck, rfl⟩

theorem formsAt_length {found : List Reduction} (h : formsAt s l = .ok found) :
    found.length ≤ 1 := by
  unfold formsAt at h
  split at h
  · cases h
    exact binaryForm_length s l
  · cases h
    exact binaryForm_length s l
  · rw [(eq_of_aloneForm h).1]
    exact binaryForm_length s l
  · obtain rfl | ⟨_, _, _, _, -, -, -, -, rfl⟩ := cases_of_flatForm h
    · exact Nat.zero_le 1
    · exact Nat.le_refl 1
  · cases h
    exact beforeForm_length s l
  · cases h
    exact afterForm_length s l

theorem at?_of_levels_nil (h : s.operator.op.levels = []) : at? s = .ok none := by
  rw [at?, h]
  rfl

/-- **An operator with one level takes the form of that level**, if it can. -/
theorem at?_of_levels_one (h : s.operator.op.levels = [l]) :
    at? s = (formsAt s l).map List.head? := by
  rw [at?, h, formsOf]
  cases hf : formsAt s l with
  | error failure => rfl
  | ok found =>
    have := choose_of_length_le (formsAt_length hf)
    simpa [formsOf, bind, Except.bind, Except.map, pure, Except.pure] using this

/-- **A juxtaposition in two rows stands between its operands in either.** -/
theorem at?_of_holdsContested (h : s.operator.op.holdsContested = true) :
    at? s = .ok (binaryForm s ⟨Precedence.callRow, .left⟩).head? := by
  rw [at?, Op.holdsContested_iff.mp h]
  simp only [formsOf, formsAt, bind, Except.bind, pure, Except.pure, List.append_nil]
  unfold binaryForm
  cases hb : s.both? with
  | none => exact choose_nil
  | some both => exact choose_agreeing (by simp [agrees])

/-- **An operator in two rows stands between its operands**, and else in front of one. -/
theorem at?_of_levels_dual {row : Nat}
    (h : s.operator.op.levels = [⟨row, .left⟩, ⟨row + 1, .before⟩]) :
    at? s = .ok ((binaryForm s ⟨row, .left⟩).head? <|>
      (beforeForm s ⟨row + 1, .before⟩).head?) := by
  rw [at?, h]
  simp only [formsOf, formsAt, bind, Except.bind, pure, Except.pure, List.append_nil]
  have hlen := beforeForm_length s ⟨row + 1, .before⟩
  unfold binaryForm
  cases hb : s.both? with
  | none =>
    rw [List.nil_append]
    exact choose_of_length_le hlen
  | some both =>
    unfold beforeForm
    cases hr : s.right? with
    | none => exact choose_singleton _
    | some e =>
      dsimp only
      split
      · exact choose_singleton _
      · exact choose_binary_before rfl rfl (by simp [agrees, binaryNode])

/-! ## §3 Flat runs -/

/-- **`runSlots`** — a run of operands with an operator in front of each but the first. -/
def runSlots (first : Expr) (links : List (Operator × Expr)) : List Slot :=
  .node first :: links.flatMap fun q => [.operator q.1, .node q.2]

theorem runSlots_concat (first : Expr) (links : List (Operator × Expr)) (o : Operator) (e : Expr) :
    runSlots first (links ++ [(o, e)]) = runSlots first links ++ [.operator o, .node e] := by
  simp [runSlots]

theorem length_runSlots (first : Expr) (links : List (Operator × Expr)) :
    (runSlots first links).length = 2 * links.length + 1 := by
  rw [runSlots, List.length_cons, List.length_flatMap]
  congr 1
  induction links with
  | nil => rfl
  | cons q links ih =>
    rw [List.map_cons, List.sum_cons, ih, List.length_cons]
    simp only [List.length_cons, List.length_nil]
    omega

/-- The operands of a run, and one behind its last operator, are nodes of it. -/
theorem node_mem_run {first last e : Expr} {links : List (Operator × Expr)} (o : Operator)
    (h : e ∈ first :: links.map Prod.snd ++ [last]) :
    .node e ∈ runSlots first links ++ [.operator o, .node last] := by
  rcases List.mem_append.mp h with h | h
  · refine List.mem_append_left _ ?_
    rcases List.mem_cons.mp h with rfl | h
    · exact List.mem_cons_self
    · obtain ⟨q, hq, rfl⟩ := List.mem_map.mp h
      exact List.mem_cons_of_mem _ (List.mem_flatMap.mpr ⟨q, hq, by simp⟩)
  · rw [List.mem_singleton.mp h]
    exact List.mem_append_right _ (by simp)

/-- **`Run`** — the slots of a flat run up to its last operator: the operands are drawn to the
right, and no operator of the run stands in front. -/
structure Run (o : Operator) (front : List Drawn) (first : Expr) (links : List (Operator × Expr))
    (stretch : List Drawn) : Prop where
  slots : stretch.map (·.slot) = runSlots first links
  same : ∀ q ∈ links, q.1.op = o.op
  drawn : ∀ d ∈ stretch, d.slot.node?.isSome → d.pull = .right
  maximal : ∀ p, lastOperator (front.map (·.slot)) = some p → p.op ≠ o.op

theorem Run.length_eq {front stretch : List Drawn} {first : Expr} {links : List (Operator × Expr)}
    (h : Run o front first links stretch) : stretch.length = 2 * links.length + 1 := by
  rw [← length_runSlots first links, ← h.slots, List.length_map]

/-- **`Gathered`** — the operands `es` to the left of `e`, nearest first, and `e` itself are the run
that ends with it. -/
def Gathered (o : Operator) (before : List Drawn) (es : List Expr) (e : Expr) : Prop :=
  ∃ front first links stretch,
    before.reverse ++ [⟨.node e, .right⟩] = front ++ stretch ∧
    Run o front first links stretch ∧ es.reverse ++ [e] = first :: links.map Prod.snd

theorem Gathered.nil {before : List Drawn} (e : Expr)
    (h : ∀ p, before.head?.bind (·.slot.operator?) = some p → p.op ≠ o.op) :
    Gathered o before [] e := by
  refine ⟨before.reverse, e, [], [⟨.node e, .right⟩], rfl, ⟨rfl, by simp, by simp, ?_⟩, rfl⟩
  intro p hp
  refine h p ?_
  cases before with
  | nil => exact hp
  | cons d before => simpa using hp

/-- An operand that is drawn to the right lengthens the run behind it. -/
theorem Gathered.cons {before : List Drawn} {es : List Expr} {p : Operator} {x : Pull} {n : Expr}
    (h : Gathered o before es n) (hp : p.op = o.op) (e : Expr) :
    Gathered o (⟨.operator p, x⟩ :: ⟨.node n, .right⟩ :: before) (n :: es) e := by
  obtain ⟨front, first, links, stretch, heq, hrun, hes⟩ := h
  refine ⟨front, first, links ++ [(p, e)], stretch ++ [⟨.operator p, x⟩, ⟨.node e, .right⟩],
    ?_, ⟨?_, ?_, ?_, hrun.maximal⟩, ?_⟩
  · rw [← List.append_assoc, ← heq]
    simp
  · rw [List.map_append, hrun.slots, runSlots_concat]
    rfl
  · intro q hq
    rcases List.mem_append.mp hq with hq | hq
    · exact hrun.same q hq
    · rw [List.mem_singleton.mp hq]
      exact hp
  · intro d hd hnode
    rcases List.mem_append.mp hd with hd | hd
    · exact hrun.drawn d hd hnode
    · simp only [List.mem_cons, List.not_mem_nil, or_false] at hd
      rcases hd with rfl | rfl
      · cases hnode
      · rfl
  · rw [List.reverse_cons, hes]
    simp

/-- **What is gathered to the left of an operand is the run that ends with it.** -/
theorem gatherBefore_ok {before : List Drawn} {es : List Expr}
    (h : gatherBefore o before = .ok (some es)) (e : Expr) : Gathered o before es e := by
  fun_induction gatherBefore o before generalizing es e with
  | case1 p x n rest hp ih =>
    rw [bind_ok_iff] at h
    obtain ⟨found, hfound, h⟩ := h
    cases found with
    | none => cases h
    | some es' =>
      cases h
      exact (ih hfound n).cons hp e
  | case2 => cases h
  | case3 => cases h
  | case4 p x n pull rest hp =>
    cases h
    refine .nil e ?_
    rintro q ⟨⟩
    exact hp
  | case5 => cases h
  | case6 p x rest hp hp' =>
    cases h
    refine .nil e ?_
    rintro q ⟨⟩
    exact hp'
  | case7 before hnode hop =>
    cases h
    refine .nil e ?_
    intro q hq
    cases before with
    | nil => cases hq
    | cons d before =>
      obtain ⟨s, pull⟩ := d
      cases s with
      | node n => cases hq
      | operator p => exact absurd rfl (hop p pull before)

/-- **Nothing is gathered to the right**: the operand behind the last operator of a run that is
reduced is drawn to that operator, and would be drawn to a further one. -/
theorem gatherAfter_eq {after : List Drawn}
    (h : ∀ p, after.head?.bind (·.slot.operator?) = some p → p.op ≠ o.op) :
    gatherAfter o after = .ok (some []) := by
  unfold gatherAfter
  split
  · rename_i p x n pull rest
    rw [if_neg (h p rfl)]
  · rename_i p x rest hp
    rw [if_neg (h p rfl)]
  · rfl

/-- What is drawn, with other expressions and operators in its place. -/
def Drawn.map (g : Expr → Expr) (h : Operator → Operator) : Drawn → Drawn
  | ⟨.node e, pull⟩ => ⟨.node (g e), pull⟩
  | ⟨.operator o, pull⟩ => ⟨.operator (h o), pull⟩

section

variable {g : Expr → Expr} {h : Operator → Operator} {c : ParseError → ParseError} {o o' : Operator}

theorem refuse_missingFlatOperand (hc : c (.missingFlatOperand o) = .missingFlatOperand o') :
    (refuse (.missingFlatOperand o') : Except (Failure ParseError) (Option (List Expr))) =
      .error ((Failure.refused (.missingFlatOperand o)).map c) := by
  rw [Failure.map, hc]
  rfl

variable (hsame : ∀ p : Operator, (h p).op = o'.op ↔ p.op = o.op)
  (hc : c (.missingFlatOperand o) = .missingFlatOperand o')
include hsame hc

/-- **A flat run is gathered from what stands in its place**, if the same operators belong to it. -/
theorem gatherBefore_map (before : List Drawn) : gatherBefore o' (before.map (Drawn.map g h)) =
    ((gatherBefore o before).map (Option.map (List.map g))).mapError (.map c) := by
  have hrefused := refuse_missingFlatOperand hc
  induction before using List.twoStepInduction with
  | nil => rfl
  | singleton d =>
    obtain ⟨_ | p, pull⟩ := d
    · rfl
    · simp only [List.map_cons, List.map_nil, Drawn.map, gatherBefore, hsame, hrefused]
      split <;> rfl
  | cons_cons d d' rest ih _ =>
    obtain ⟨_ | p, pull⟩ := d
    · rfl
    · obtain ⟨e | q, pull'⟩ := d'
      · simp only [List.map_cons, Drawn.map, gatherBefore, hsame]
        split
        · cases pull' with
          | right =>
            simp only [ih]
            rcases gatherBefore o rest with _ | _ | found <;> rfl
          | _ => rfl
        · rfl
      · simp only [List.map_cons, Drawn.map, gatherBefore, hsame, hrefused]
        split <;> rfl

theorem gatherAfter_map (after : List Drawn) : gatherAfter o' (after.map (Drawn.map g h)) =
    ((gatherAfter o after).map (Option.map (List.map g))).mapError (.map c) := by
  have hrefused := refuse_missingFlatOperand hc
  induction after using List.twoStepInduction with
  | nil => rfl
  | singleton d =>
    obtain ⟨_ | p, pull⟩ := d
    · rfl
    · simp only [List.map_cons, List.map_nil, Drawn.map, gatherAfter, hsame, hrefused]
      split <;> rfl
  | cons_cons d d' rest ih _ =>
    obtain ⟨_ | p, pull⟩ := d
    · rfl
    · obtain ⟨e | q, pull'⟩ := d'
      · simp only [List.map_cons, Drawn.map, gatherAfter, hsame]
        split
        · cases pull' with
          | left =>
            simp only [ih]
            rcases gatherAfter o rest with _ | _ | found <;> rfl
          | _ => rfl
        · rfl
      · simp only [List.map_cons, Drawn.map, gatherAfter, hsame, hrefused]
        split <;> rfl

end

/-! ## §4 Stretches -/

theorem left?_eq_some {e : Expr} (h : s.left? = some e) :
    ∃ rest, s.before = ⟨.node e, .right⟩ :: rest := by
  unfold Site.left? at h
  split at h
  · cases h
    exact ⟨_, by assumption⟩
  · cases h

theorem right?_eq_some {e : Expr} (h : s.right? = some e) :
    ∃ rest, s.after = ⟨.node e, .left⟩ :: rest := by
  unfold Site.right? at h
  split at h
  · cases h
    exact ⟨_, by assumption⟩
  · cases h

theorem both?_eq_some {e f : Expr} (h : s.both? = some (e, f)) :
    s.left? = some e ∧ s.right? = some f := by
  simp only [Site.both?, bind, Option.bind_eq_some_iff, pure, Option.some.injEq, Prod.mk.injEq] at h
  obtain ⟨a, ha, b, hb, rfl, rfl⟩ := h
  exact ⟨ha, hb⟩

/-- **`Made`** — the reductions of an operator between the slots `front` and `back`, form by form. -/
inductive Made (front : List Drawn) (o : Operator) (back : List Drawn) : Reduction → Prop
  | binary {front' back' : List Drawn} {l r : Expr} {power : Nat}
      (hbinary : o.op.isBinary = true) (hflat : o.op.isFlat = false)
      (hfront : front = front' ++ [⟨.node l, .right⟩]) (hback : back = ⟨.node r, .left⟩ :: back') :
      Made front o back
        ⟨binaryNode o l r, front'.length, front'.length + 3, .binary, power⟩
  | before {back' : List Drawn} {e : Expr} {power : Nat}
      (hbefore : o.op.isBefore = true)
      (hfree : ((o.op.isBinary || o.op.isAfter) && attaches front.reverse) = false)
      (hback : back = ⟨.node e, .left⟩ :: back') :
      Made front o back
        ⟨.before o e (o.span.merge e.span), front.length, front.length + 2, .before, power⟩
  | after {front' : List Drawn} {e : Expr} {power : Nat}
      (hafter : o.op.isAfter = true) (hfront : front = front' ++ [⟨.node e, .right⟩]) :
      Made front o back
        ⟨.after o e (e.span.merge o.span), front'.length, front'.length + 2, .after, power⟩
  | flat {front' stretch back' : List Drawn} {first last : Expr}
      {links : List (Operator × Expr)} {power : Nat}
      (hflat : o.op.isFlat = true) (hfront : front = front' ++ stretch)
      (hrun : Run o front' first links stretch) (hback : back = ⟨.node last, .left⟩ :: back')
      (hmax : ∀ p, headOperator (back'.map (·.slot)) = some p → p.op ≠ o.op) :
      Made front o back
        ⟨.flat o (first :: links.map Prod.snd ++ [last])
          (Expr.spanOfAll first (links.map Prod.snd ++ [last])),
          front'.length, front'.length + 2 * links.length + 3, .flat, power⟩

variable {front back : List Drawn} {r : Reduction}

theorem Span.merge_comm (s t : Span) : s.merge t = t.merge s := by
  simp only [Span.merge, Nat.min_comm, Nat.max_comm]

theorem Span.merge_assoc (s t u : Span) : (s.merge t).merge u = s.merge (t.merge u) := by
  simp only [Span.merge, Nat.min_assoc, Nat.max_assoc]

/-- The span of a run does not depend on the end from which its operands are gathered. -/
theorem spanOfAll_reverse {e first : Expr} {es rest : List Expr} (last : Expr)
    (h : es.reverse ++ [e] = first :: rest) :
    Expr.spanOfAll e (es ++ [last]) = Expr.spanOfAll first (rest ++ [last]) := by
  have : Std.Commutative Span.merge := ⟨Span.merge_comm⟩
  have : Std.Associative Span.merge := ⟨Span.merge_assoc⟩
  rcases List.eq_nil_or_concat' es with rfl | ⟨inner, f, rfl⟩
  · cases h
    rfl
  · rw [List.reverse_append, List.reverse_singleton, List.singleton_append,
      List.cons_append, List.cons.injEq] at h
    obtain ⟨rfl, rfl⟩ := h
    have hleft : (inner ++ [f] ++ [last]).Perm (f :: (inner ++ [last])) := by
      rw [List.append_assoc]
      exact List.perm_middle
    have hright : (inner.reverse ++ [e] ++ [last]).Perm (e :: (inner ++ [last])) := by
      rw [List.append_assoc]
      exact List.perm_middle.trans ((inner.reverse_perm.append_right [last]).cons e)
    calc Expr.spanOfAll e (inner ++ [f] ++ [last])
        = e.span.mergeAll ((f :: (inner ++ [last])).map Expr.span) :=
          (hleft.map Expr.span).foldl_op_eq
      _ = f.span.mergeAll ((e :: (inner ++ [last])).map Expr.span) := by
          simp only [List.map_cons, Span.mergeAll, List.foldl_cons, Span.merge_comm]
      _ = Expr.spanOfAll f (inner.reverse ++ [e] ++ [last]) :=
          ((hright.map Expr.span).foldl_op_eq).symm

theorem eq_concat_of_reverse {d : Drawn} {rest : List Drawn} (h : front.reverse = d :: rest) :
    front = rest.reverse ++ [d] := by
  rw [← List.reverse_reverse front, h, List.reverse_cons]

theorem made_binaryForm (hbinary : o.op.isBinary = true) (hflat : o.op.isFlat = false)
    (h : (binaryForm ⟨front.reverse, o, front.length, back⟩ l).head? = some r) :
    Made front o back r := by
  unfold binaryForm at h
  split at h
  · rename_i e f hboth
    obtain ⟨hl, hr⟩ := both?_eq_some hboth
    obtain ⟨before', hbefore⟩ := left?_eq_some hl
    obtain ⟨back', hback⟩ := right?_eq_some hr
    have hfront := eq_concat_of_reverse hbefore
    have hlen : front.length = before'.reverse.length + 1 := by
      rw [hfront]
      simp
    cases h
    simp only [hlen, Nat.add_sub_cancel]
    exact .binary hbinary hflat hfront hback
  · cases h

theorem made_beforeForm (hbefore : o.op.isBefore = true)
    (h : (beforeForm ⟨front.reverse, o, front.length, back⟩ l).head? = some r) :
    Made front o back r := by
  unfold beforeForm at h
  split at h
  · rename_i e hr
    obtain ⟨back', hback⟩ := right?_eq_some hr
    split at h
    · cases h
    · rename_i hfree
      cases h
      exact .before hbefore (by simpa using hfree) hback
  · cases h

theorem made_afterForm (hafter : o.op.isAfter = true)
    (h : (afterForm ⟨front.reverse, o, front.length, back⟩ l).head? = some r) :
    Made front o back r := by
  unfold afterForm at h
  split at h
  · rename_i e hl
    obtain ⟨before', hbefore⟩ := left?_eq_some hl
    have hfront := eq_concat_of_reverse hbefore
    have hlen : front.length = before'.reverse.length + 1 := by
      rw [hfront]
      simp
    cases h
    simp only [hlen, Nat.add_sub_cancel]
    exact .after hafter hfront
  · cases h

/-- No operator of a run stands behind the operand that its last operator draws. -/
theorem head_ne_of_drawn_left {pull : Pull} {e : Expr} {back' : List Drawn} (hflat : o.op.isFlat = true)
    (hs : Surveyed (front ++ ⟨.operator o, pull⟩ :: ⟨.node e, .left⟩ :: back')) :
    ∀ p, headOperator (back'.map (·.slot)) = some p → p.op ≠ o.op := by
  intro p hp heq
  have h := hs (front ++ [⟨.operator o, pull⟩]) e .left back' (by simp)
  rw [List.map_append, List.map_cons, List.map_nil, lastOperator_concat, hp] at h
  rcases pullOf_left h with ⟨hc, -⟩ | hlt
  · have := Op.holdsContested_of_isContested (show o.op.isContested = true by
      simpa [isContested, Slot.operator?] using hc)
    rw [Op.holdsContested_of_isFlat hflat] at this
    cases this
  · simp only [reachTo, reachFrom, Slot.operator?, Option.elim, heq] at hlt
    exact Op.not_leftPower_lt_of_isFlat hflat hlt

/-- **The run that ends with both operands of a flat operator is what the operator makes a node
of**, once what stands before them is gathered. -/
theorem made_of_gathered {pull : Pull} {e f : Expr} {es : List Expr} (hflat : o.op.isFlat = true)
    (hs : Surveyed (front ++ ⟨.operator o, pull⟩ :: back))
    (hboth : Site.both? ⟨front.reverse, o, front.length, back⟩ = some (e, f))
    (hg : gatherBefore o front.reverse.tail = .ok (some es)) :
    gatherAfter o back.tail = .ok (some []) ∧
      Made front o back ⟨.flat o (es.reverse ++ [e, f]) (Expr.spanOfAll e (es ++ [f])),
        front.length - 1 - 2 * es.length, front.length + 2, .flat, 0⟩ := by
  obtain ⟨hl, hr⟩ := both?_eq_some hboth
  obtain ⟨before', hbefore⟩ := left?_eq_some hl
  obtain ⟨back', hback⟩ := right?_eq_some hr
  dsimp only at hbefore hback
  subst hback
  have hmax := head_ne_of_drawn_left hflat hs
  rw [hbefore, List.tail_cons] at hg
  constructor
  · refine gatherAfter_eq fun p hp => hmax p ?_
    cases back' with
    | nil => exact hp
    | cons d back' => exact hp
  · obtain ⟨front', first, links, stretch, hstretch, hrun, hes⟩ := gatherBefore_ok hg e
    have hfront : front = front' ++ stretch := (eq_concat_of_reverse hbefore).trans hstretch
    have hlen : es.length = links.length := by
      have := congrArg List.length hes
      simpa using this
    have hstart : front.length - 1 - 2 * es.length = front'.length := by
      rw [hfront, List.length_append, hrun.length_eq, hlen]
      omega
    have hstop : front.length + 2 = front'.length + 2 * links.length + 3 := by
      rw [hfront, List.length_append, hrun.length_eq]
      omega
    have hoperands : es.reverse ++ [e, f] = first :: links.map Prod.snd ++ [f] := by
      rw [← hes]
      simp
    rw [hstart, hstop, hoperands, spanOfAll_reverse f hes]
    exact .flat hflat hfront hrun rfl hmax

theorem made_flatForm {pull : Pull} {found : List Reduction} (hflat : o.op.isFlat = true)
    (hs : Surveyed (front ++ ⟨.operator o, pull⟩ :: back))
    (h : flatForm ⟨front.reverse, o, front.length, back⟩ = .ok found) (hr : found.head? = some r) :
    Made front o back r := by
  obtain rfl | ⟨left, right, before, after, hboth, hbefore, hafter, -, rfl⟩ := cases_of_flatForm h
  · cases hr
  · obtain ⟨hnil, hmade⟩ := made_of_gathered hflat hs hboth hbefore
    -- Nothing of the run stands behind the operator.
    cases hnil.symm.trans hafter
    cases hr
    exact hmade

/-- **Every reduction of an operator replaces a stretch of slots that are drawn to it.** -/
theorem made_of_at? {pull : Pull} (hs : Surveyed (front ++ ⟨.operator o, pull⟩ :: back))
    (h : at? ⟨front.reverse, o, front.length, back⟩ = .ok (some r)) : Made front o back r := by
  have ha := Op.arranged_levels o.op
  generalize hls : o.op.levels = ls at ha
  cases ha with
  | none =>
    rw [at?_of_levels_nil hls] at h
    cases h
  | one l =>
    rw [at?_of_levels_one hls] at h
    obtain ⟨found, hfound, hhead⟩ := map_ok_iff.mp h
    have hbinary : l.isBinary = true → o.op.isBinary = true := fun hl =>
      Op.isBinary_iff.mpr ⟨l, by simp [hls], hl⟩
    have hflat : l.assoc ≠ .flat → o.op.isFlat = false := by
      intro hl
      refine Bool.eq_false_iff.mpr fun ht => ?_
      obtain ⟨m, hm, hmflat⟩ := Op.isFlat_iff.mp ht
      rw [hls, List.mem_singleton] at hm
      exact hl (hm ▸ hmflat)
    unfold formsAt at hfound
    split at hfound
    · cases hfound
      exact made_binaryForm (hbinary (by simp [Level.isBinary, *])) (hflat (by simp [*])) hhead
    · cases hfound
      exact made_binaryForm (hbinary (by simp [Level.isBinary, *])) (hflat (by simp [*])) hhead
    · rw [(eq_of_aloneForm hfound).1] at hhead
      exact made_binaryForm (hbinary (by simp [Level.isBinary, *])) (hflat (by simp [*])) hhead
    · exact made_flatForm (Op.isFlat_iff.mpr ⟨l, by simp [hls], by assumption⟩) hs hfound hhead
    · cases hfound
      exact made_beforeForm (Op.isBefore_iff.mpr ⟨l, by simp [hls], by assumption⟩) hhead
    · cases hfound
      exact made_afterForm (Op.isAfter_iff.mpr ⟨l, by simp [hls], by assumption⟩) hhead
  | dual row =>
    rw [at?_of_levels_dual hls] at h
    have hbinary : o.op.isBinary = true := by simp [Op.isBinary, Level.isBinary, hls]
    have hbefore : o.op.isBefore = true := by simp [Op.isBefore, hls]
    have hflat : o.op.isFlat = false := by simp [Op.isFlat, hls]
    have h := Except.ok.inj h
    rw [Option.orElse_eq_orElse, Option.orElse_eq_or, Option.or_eq_some_iff] at h
    rcases h with hb | ⟨-, hu⟩
    · exact made_binaryForm hbinary hflat hb
    · exact made_beforeForm hbefore hu
  | split =>
    have hc := Op.holdsContested_iff.mpr hls
    rw [at?_of_holdsContested hc] at h
    have hbinary : o.op.isBinary = true := by simp [Op.isBinary, Level.isBinary, hls]
    exact made_binaryForm hbinary (by simp [Op.isFlat, hls]) (Except.ok.inj h)

end Reduction

end DewyFront
