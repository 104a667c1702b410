/-
# DewyFront.Proofs.PlacedSlots — reduction keeps slots in order

A node that is made of a stretch of slots covers the stretch and nothing more, and its parts are in order
as the slots were. Where copies are merged, the candidates stand in the same gap, and so does the node
that they become. So the nodes of every list that is reached are in order, and whatever is inside of a
node stands within it. What is refused is refused for an operator or a node of such a list.

* §1 expressions with their parts in place;
* §2 slots in order;
* §3 passes;
* §4 forks and mergers;
* §5 readings.
-/
import DewyFront.Proofs.Places
import DewyFront.Proofs.Rejection

namespace DewyFront

variable {p : Nat → Prop} {lo hi : Nat}

/-! ## §1 Expressions -/

namespace Expr

/-- What is inside of a piece of a string. -/
def Piece.content? : Piece → Option Expr
  | text _ => none
  | hole e => some e

/-- The condition and the clause of an arm. -/
def Arm.parts : Arm → List Expr
  | mk _ condition clause => [condition, clause]

/-- **`parts`** — the expressions that stand directly in an expression: operands, candidates, the items
of a block, the contents of holes, conditions and clauses, targets. -/
def parts : Expr → List Expr
  | atom .. | keyword _ none _ => []
  | binary _ l r _ => [l, r]
  | before _ e _ | after _ e _ | declare _ e _ | keyword _ (some e) _ => [e]
  | flat _ es _ | ambiguous es _ | block _ _ es _ | escape es _ => es
  | istring pieces _ => pieces.filterMap Piece.content?
  | flow arms otherwise _ => arms.flatMap Arm.parts ++ otherwise.toList

/-- The operator that an expression is made with. -/
def operator? : Expr → Option Operator
  | binary o _ _ _ | before o _ _ | after o _ _ | flat o _ _ => some o
  | _ => none

/-- **`Ordered`** — an operator stands between its operands, in front of its operand or behind it; the
operands of a run and the items of a block stand one behind the other. -/
def Ordered (p : Nat → Prop) : Expr → Prop
  | binary o l r _ => l.span.stop ≤ o.span.start ∧ o.span.stop ≤ r.span.start
  | before o e _ => o.span.stop ≤ e.span.start
  | after o e _ => e.span.stop ≤ o.span.start
  | flat _ es s | block _ _ es s | escape es s => Span.Ascends p s.start s.stop (es.map span)
  | _ => True

/-- **`Fits`** — an expression stands on some of the places, its operator and its parts stand within it,
and they are in order. -/
structure Fits (p : Nat → Prop) (e : Expr) : Prop where
  on : e.span.On p
  operator : ∀ o ∈ e.operator?, o.span.On p ∧ e.span.Covers o.span
  parts : ∀ part ∈ e.parts, e.span.Covers part.span
  ordered : e.Ordered p

/-- **`Placed`** — everything fits at every depth of an expression. -/
inductive Placed (p : Nat → Prop) : Expr → Prop
  | intro {e : Expr} (fits : e.Fits p) (inside : ∀ part ∈ e.parts, Placed p part) : Placed p e

variable {e : Expr} {es : List Expr}

theorem Placed.fits (h : e.Placed p) : e.Fits p := by
  cases h
  assumption

theorem Placed.inside (h : e.Placed p) : ∀ part ∈ e.parts, part.Placed p := by
  cases h
  assumption

theorem Placed.on (h : e.Placed p) : e.span.On p := h.fits.on

end Expr

/-! ## §2 Slots -/

/-- What is in a slot is in place at every depth. -/
def Slot.Placed (p : Nat → Prop) : Slot → Prop
  | .node e => e.Placed p
  | .operator _ => True

/-- **`SlotsIn`** — slots in order, with everything inside of the nodes. -/
abbrev SlotsIn (p : Nat → Prop) (lo hi : Nat) (slots : List Slot) : Prop :=
  InOrder p Slot.span (Slot.Placed p) lo hi slots

namespace Reduction

variable {front back seg slots next rest : List Slot} {e l r : Expr} {o : Operator}

theorem slotsIn_node : SlotsIn p lo hi (.node e :: rest) ↔
    lo ≤ e.span.start ∧ e.Placed p ∧ SlotsIn p e.span.stop hi rest :=
  InOrder.cons_iff.trans ⟨fun h => ⟨h.1, h.2.2⟩, fun h => ⟨h.1, h.2.1.on, h.2⟩⟩

theorem slotsIn_operator : SlotsIn p lo hi (.operator o :: rest) ↔
    lo ≤ o.span.start ∧ o.span.On p ∧ SlotsIn p o.span.stop hi rest :=
  InOrder.cons_iff.trans ⟨fun h => ⟨h.1, h.2.1, h.2.2.2⟩, fun h => ⟨h.1, h.2.1, trivial, h.2.2⟩⟩

/-- A node in place between two offsets. -/
def Between (p : Nat → Prop) (lo hi : Nat) (e : Expr) : Prop :=
  e.Placed p ∧ (Span.mk lo hi).Covers e.span

theorem between_of_mem (h : SlotsIn p lo hi slots) (he : .node e ∈ slots) : Between p lo hi e :=
  ⟨(h.of_mem he).2.2, (h.of_mem he).2.1⟩

theorem slotsIn_of_between {hi' : Nat} (h : Between p lo hi e) (hrest : SlotsIn p hi hi' rest) :
    SlotsIn p lo hi' (.node e :: rest) :=
  slotsIn_node.mpr ⟨h.2.start, h.1, hrest.mono h.2.stop le_rfl⟩

/-! ## §3 Passes -/

/-- A node whose parts are its operands, with the operator of the node. -/
theorem between_of_operands {node : Expr} (es : List Expr) (hparts : node.parts = es)
    (hall : ∀ e ∈ es, Between p lo hi e) (hnode : node.span.On p)
    (hcovers : (Span.mk lo hi).Covers node.span)
    (hoperator : ∀ o ∈ node.operator?, o.span.On p ∧ node.span.Covers o.span)
    (hspans : ∀ e ∈ es, node.span.Covers e.span) (hordered : node.Ordered p) :
    Between p lo hi node := by
  refine ⟨.intro ⟨hnode, hoperator, ?_, hordered⟩ ?_, hcovers⟩
  · rwa [hparts]
  · rw [hparts]
    exact fun e he => (hall e he).1

theorem between_binaryNode (h : SlotsIn p lo hi [.node l, .operator o, .node r]) :
    Between p lo hi (binaryNode o l r) := by
  have hl := between_of_mem h (List.mem_cons_self ..)
  have hr := between_of_mem h (List.mem_cons_of_mem _ (List.mem_cons_of_mem _ (List.mem_cons_self ..)))
  obtain ⟨-, -, h⟩ := slotsIn_node.mp h
  obtain ⟨hlo, ho, h⟩ := slotsIn_operator.mp h
  obtain ⟨hro, -, -⟩ := slotsIn_node.mp h
  have hleft := Span.covers_merge_left l.span r.span
  have hright := Span.covers_merge_right l.span r.span
  refine between_of_operands [l, r] rfl ?_ (hl.1.on.merge hr.1.on) (hl.2.merge hr.2) ?_ ?_
    ⟨hlo, hro⟩
  · exact List.forall_mem_cons.mpr ⟨hl, List.forall_mem_singleton.mpr hr⟩
  · rintro o ⟨⟩
    exact ⟨ho, hleft.start.trans (hl.1.on.le.trans hlo), hro.trans (hr.1.on.le.trans hright.stop)⟩
  · exact List.forall_mem_cons.mpr ⟨hleft, List.forall_mem_singleton.mpr hright⟩

theorem between_before (h : SlotsIn p lo hi [.operator o, .node e]) :
    Between p lo hi (.before o e (o.span.merge e.span)) := by
  have he := between_of_mem h (List.mem_cons_of_mem _ (List.mem_cons_self ..))
  have hcovers := (h.of_mem (List.mem_cons_self ..)).2.1
  obtain ⟨-, ho, h⟩ := slotsIn_operator.mp h
  obtain ⟨hlo, -, -⟩ := slotsIn_node.mp h
  refine between_of_operands [e] rfl (List.forall_mem_singleton.mpr he) (ho.merge he.1.on)
    (hcovers.merge he.2) ?_ (List.forall_mem_singleton.mpr (Span.covers_merge_right ..)) hlo
  rintro o ⟨⟩
  exact ⟨ho, Span.covers_merge_left ..⟩

theorem between_after (h : SlotsIn p lo hi [.node e, .operator o]) :
    Between p lo hi (.after o e (e.span.merge o.span)) := by
  have he := between_of_mem h (List.mem_cons_self ..)
  have hcovers := (h.of_mem (List.mem_cons_of_mem _ (List.mem_cons_self ..))).2.1
  obtain ⟨-, -, h⟩ := slotsIn_node.mp h
  obtain ⟨hlo, ho, -⟩ := slotsIn_operator.mp h
  refine between_of_operands [e] rfl (List.forall_mem_singleton.mpr he) (he.1.on.merge ho)
    (he.2.merge hcovers) ?_ (List.forall_mem_singleton.mpr (Span.covers_merge_left ..)) hlo
  rintro o ⟨⟩
  exact ⟨ho, Span.covers_merge_right ..⟩

theorem sublist_runSlots (first : Expr) (links : List (Operator × Expr)) :
    ((first :: links.map Prod.snd).map Slot.node).Sublist (runSlots first links) := by
  refine .cons_cons _ ?_
  induction links with
  | nil => exact .slnil
  | cons q links ih => exact .cons _ (.cons_cons _ ih)

/-- The operands of a run are in order, and the last operator stands between the first and the last. -/
theorem between_flat {first last : Expr} {links : List (Operator × Expr)}
    (h : SlotsIn p lo hi (runSlots first links ++ [.operator o, .node last])) :
    Between p lo hi (.flat o (first :: links.map Prod.snd ++ [last])
      (Expr.spanOfAll first (links.map Prod.snd ++ [last]))) := by
  have hoperands : SlotsIn p lo hi ((first :: links.map Prod.snd ++ [last]).map Slot.node) := by
    rw [List.map_append]
    exact h.sublist ((sublist_runSlots first links).append (.cons _ (.refl _)))
  have hall : ∀ e ∈ first :: links.map Prod.snd ++ [last], Between p lo hi e :=
    fun e he => between_of_mem hoperands (List.mem_map_of_mem he)
  have hascends := hoperands.ascends
  rw [List.map_map, show Slot.span ∘ Slot.node = Expr.span from rfl] at hascends
  obtain ⟨hfirst, hrest⟩ := List.forall_mem_cons.mp hall
  obtain ⟨hcoversFirst, hcoversRest⟩ := Span.covers_mergeAll first.span
    ((links.map Prod.snd ++ [last]).map Expr.span)
  have hspans : ∀ e ∈ first :: (links.map Prod.snd ++ [last]),
      (Expr.spanOfAll first (links.map Prod.snd ++ [last])).Covers e.span :=
    List.forall_mem_cons.mpr ⟨hcoversFirst, fun e he => hcoversRest _ (List.mem_map_of_mem he)⟩
  have hon := hfirst.1.on.mergeAll (List.forall_mem_map.mpr fun e he => (hrest e he).1.on)
  have hcovers := hfirst.2.mergeAll (List.forall_mem_map.mpr fun e he => (hrest e he).2)
  refine between_of_operands _ rfl hall hon hcovers ?_ hspans
    (hascends.within hon.le (List.forall_mem_map.mpr hspans))
  rintro o ⟨⟩
  -- The operator stands behind the run, which holds the first operand, and in front of the last one.
  obtain ⟨middle, hrun, hend⟩ := InOrder.append_iff.mp h
  have hstop := (hrun.of_mem (List.mem_cons_self ..)).2.1.stop
  obtain ⟨hlo, ho, hlast⟩ := slotsIn_operator.mp hend
  obtain ⟨hle, hon', -⟩ := slotsIn_node.mp hlast
  have hlast := hspans last (List.mem_cons_of_mem _ List.mem_concat_self)
  exact ⟨ho, hcoversFirst.start.trans (hfirst.1.on.le.trans (hstop.trans hlo)),
    hle.trans (hon'.on.le.trans hlast.stop)⟩

/-- **A stretch is joined to a node that stands where the stretch does.** -/
theorem Joins.between (hj : Joins front back seg e) (h : SlotsIn p lo hi seg) : Between p lo hi e := by
  cases hj with
  | binary => exact between_binaryNode h
  | before => exact between_before h
  | after => exact between_after h
  | flat => exact between_flat h

theorem Passes.slotsIn (hp : Passes front slots next) (h : SlotsIn p lo hi slots) :
    SlotsIn p lo hi next := by
  induction hp generalizing lo with
  | nil => exact h
  | keep _ ih =>
    obtain ⟨hle, hon, hs, hrest⟩ := InOrder.cons_iff.mp h
    exact InOrder.cons_iff.mpr ⟨hle, hon, hs, ih hrest⟩
  | join hjoins _ ih =>
    obtain ⟨middle, hseg, hrest⟩ := InOrder.append_iff.mp h
    exact slotsIn_of_between (hjoins.between hseg) (ih hrest)

/-- A node that an operator of a list in order would make is in place. -/
theorem Made.between {front back : List Drawn} {pull : Pull} {made : Reduction}
    (hm : Made front o back made) (h : Stands slots front o pull back) (hs : SlotsIn p lo hi slots) :
    Between p lo hi made.node := by
  obtain ⟨inner, seg, behind, hslots, -, -, hjoins⟩ := hm.replaces h.surveyed
  rw [h.slots_eq] at hslots
  subst hslots
  obtain ⟨middle, hfront, hbehind⟩ := InOrder.append_iff.mp hs
  obtain ⟨start, hinner, hseg⟩ := InOrder.append_iff.mp hfront
  obtain ⟨hnode, hcovers⟩ := hjoins.between hseg
  exact ⟨hnode, hinner.le.trans hcovers.start, hcovers.stop.trans hbehind.le⟩

/-- **An operator is refused for places of the list**: its own, or those of what is in a node. -/
theorem Refused.on {front back : List Drawn} {pull : Pull} {cause : ParseError}
    (hr : Refused front o back cause) (h : Stands slots front o pull back)
    (hs : SlotsIn p lo hi slots) : cause.On p := by
  have ho : o.span.On p := (hs.of_mem h.mem).1
  cases hr with
  -- The operator inside is that of a child of the node that would be made, which is in place.
  | nested halone hmade hnode hchild hinner hsame =>
    next made left right child inner =>
    have hinside := (hmade.between h hs).1.inside
    rw [hnode] at hinside
    have hchild : child.Placed p := by
      rcases hchild with rfl | rfl
      · exact hinside _ (List.mem_cons_self ..)
      · exact hinside _ (List.mem_cons_of_mem _ (List.mem_cons_self ..))
    have hinner : inner.span.On p := by
      cases child <;> cases hinner
      exact (hchild.fits.operator _ rfl).1
    exact ⟨List.forall_mem_cons.mpr ⟨ho, List.forall_mem_singleton.mpr hinner⟩, List.cons_ne_nil _ _⟩
  | marks hrange hmade hnode hmarks =>
    next made operands span =>
    have hinside := (hmade.between h hs).1.inside
    rw [hnode] at hinside
    refine ⟨fun s hspan => ?_, fun hnil => ?_⟩
    · obtain ⟨mark, hmark, rfl⟩ := List.mem_map.mp hspan
      obtain ⟨⟨e, i⟩, he, rfl⟩ := List.mem_map.mp hmark
      exact (hinside e (List.fst_mem_of_mem_zipIdx (List.mem_filter.mp he).1)).on
    · rw [ParseError.spans, List.map_eq_nil_iff] at hnil
      rw [hnil] at hmarks
      cases hmarks
  | pending => exact ParseError.on_of_spans_eq rfl ho

/-- **`Stood`** — a list of slots that is shaped and in order. -/
structure Stood (p : Nat → Prop) (lo hi : Nat) (slots : List Slot) : Prop where
  shaped : Shaped slots
  slotsIn : SlotsIn p lo hi slots

theorem stood_pass {pulls : List Pull} (hd : survey slots = .ok (.decided pulls))
    (h : Stood p lo hi slots) : EndsOn p (Stood p lo hi) (pass slots pulls) := by
  refine .intro (fun next hnext => ?_) fun cause hcause => ?_
  · have hpasses := passes_of_pass hd hnext
    exact ⟨hpasses.complete rfl h.shaped, hpasses.slotsIn h.slotsIn⟩
  · obtain ⟨front, o, pull, back, hstands, hrefused⟩ := refused_of_pass h.shaped hd hcause
    exact hrefused.on hstands h.slotsIn

end Reduction

namespace Reading

open Reduction

variable {slots last copy merged : List Slot} {limit n place : Nat} {f : Fork}

theorem stood_runFor (h : Stood p lo hi slots) :
    EndsOn p (fun r => Stood p lo hi r.slots) (runFor n slots) := by
  induction n generalizing slots with
  | zero => trivial
  | succ n ih =>
    have hsurvey : EndsOn p (fun _ => True) (survey slots) :=
      .intro (fun _ _ => trivial) fun _ hcause => absurd hcause (surveyFrom_ne_refuse none 0 slots)
    rw [runFor]
    refine hsurvey.attach.bind fun found hfound => ?_
    cases found with
    | contested place => exact h
    | decided pulls =>
      refine (stood_pass hfound.2 h).bind fun next hnext => ?_
      split
      · exact hnext
      · exact ih hnext

/-- **Passes keep slots in order until nothing changes.** -/
theorem stood_run (h : Stood p lo hi slots) :
    EndsOn p (fun r => Stood p lo hi r.slots ∧ Ends r.slots r.contested) (run slots) :=
  (stood_runFor h).attach.mono fun _ ⟨hstood, hrun⟩ => ⟨hstood, (run_ok hrun).2⟩

/-! ## §4 Forks and mergers -/

/-- **A copy of a fork is in order as the list is**, and the fork is made at a place of the list. -/
theorem stood_fork (hs : survey slots = .ok (.contested place)) (h : Stood p lo hi slots) :
    EndsOn p (fun f => f.site.On p ∧ ∀ copy ∈ f.copies, Stood p lo hi copy) (fork slots place) := by
  refine .intro (fun f hf => ?_) fun cause hcause => ?_
  · obtain ⟨front, back, m, hslots, -, hcopies⟩ := fork_of_contested hs hf
    have hlist := h.slotsIn
    rw [hslots] at hlist
    obtain ⟨middle, hfront, hback⟩ := InOrder.append_iff.mp hlist
    obtain ⟨hle, hon, hrest⟩ := slotsIn_operator.mp hback
    refine ⟨hon, fun copy hcopy => ⟨(copy_of_contested hs hf hcopy).1 h.shaped, ?_⟩⟩
    rw [hcopies] at hcopy
    obtain ⟨r, -, rfl⟩ := List.mem_map.mp hcopy
    exact hfront.append (slotsIn_operator.mpr ⟨hle, hon, hrest⟩)
  · obtain ⟨f, hf⟩ := fork_ok hs
    rw [hf] at hcause
    cases hcause

theorem stood_runAll {copies : List (List Slot)} (h : ∀ copy ∈ copies, Stood p lo hi copy) :
    EndsOn p (fun lasts => ∀ last ∈ lasts, Stood p lo hi last) (runAll copies) := by
  induction copies with
  | nil => exact fun _ hlast => nomatch hlast
  | cons copy copies ih =>
    obtain ⟨hcopy, hcopies⟩ := List.forall_mem_cons.mp h
    rw [runAll]
    exact (stood_run hcopy).bind fun done hdone => (ih hcopies).bind fun lasts hlasts =>
      List.forall_mem_cons.mpr ⟨hdone.1, hlasts⟩

/-- Candidates in place are a node in place, which covers all of them. -/
theorem placed_ambiguous {e : Expr} {rest : List Expr} (h : ∀ n ∈ e :: rest, n.Placed p) :
    (Expr.ambiguous (e :: rest) (Expr.spanOfAll e rest)).Placed p := by
  obtain ⟨he, hrest⟩ := List.forall_mem_cons.mp h
  obtain ⟨hcoversFirst, hcoversRest⟩ := Span.covers_mergeAll e.span (rest.map Expr.span)
  refine .intro ⟨?_, (fun o ho => nomatch ho), ?_, trivial⟩ h
  · exact he.on.mergeAll (List.forall_mem_map.mpr fun n hn => (hrest n hn).on)
  · exact List.forall_mem_cons.mpr ⟨hcoversFirst, fun n hn => hcoversRest _ (List.mem_map_of_mem hn)⟩

/-- **Candidates for one gap between slots are one node in the gap.** -/
theorem slotsIn_ambiguousOf {front back : List Slot} {nodes : List Expr} (site : Span)
    (hne : nodes ≠ []) (h : ∀ e ∈ nodes, SlotsIn p lo hi (front ++ .node e :: back)) :
    SlotsIn p lo hi (front ++ .node (ambiguousOf site nodes) :: back) := by
  rcases ambiguousOf_cases site hne with ⟨e, hnodes, heq⟩ | ⟨e, rest, hnodes, heq⟩
  · rw [heq]
    exact h e (hnodes ▸ List.mem_singleton_self e)
  · rw [heq]
    subst hnodes
    have hgap : ∀ n ∈ e :: rest, n.Placed p ∧ SlotsIn p lo n.span.start front ∧
        SlotsIn p n.span.stop hi back := by
      intro n hn
      obtain ⟨middle, hfront, hback⟩ := InOrder.append_iff.mp (h n hn)
      obtain ⟨hle, hplaced, hrest⟩ := slotsIn_node.mp hback
      exact ⟨hplaced, hfront.mono le_rfl hle, hrest⟩
    -- The node begins where one of the candidates begins, and ends where one of them ends.
    obtain ⟨⟨s, hs, hstart⟩, t, ht, hstop⟩ := Span.exists_mergeAll_eq e.span (rest.map Expr.span)
    rw [← List.map_cons] at hs ht
    obtain ⟨n₁, hn₁, rfl⟩ := List.mem_map.mp hs
    obtain ⟨n₂, hn₂, rfl⟩ := List.mem_map.mp ht
    refine (hgap n₁ hn₁).2.1.append (slotsIn_node.mpr ⟨hstart.ge, ?_, ?_⟩)
    · exact placed_ambiguous fun n hn => (hgap n hn).1
    · exact (hgap n₂ hn₂).2.2.mono hstop.le le_rfl

/-- **Merged copies are in order as each of them is.** -/
theorem stood_merge {site : Span} {copies : List (List Slot)} (hsite : site.On p)
    (h : ∀ copy ∈ copies, Stood p lo hi copy) :
    EndsOn p (fun found => ∀ merged ∈ found, Stood p lo hi merged) (merge limit site copies) := by
  refine .intro (fun found hfound merged hmerged => ?_) fun cause hcause => ?_
  · cases hmerged
    obtain ⟨hne, hcases⟩ := merge_ok hfound
    refine ⟨(merged_keeps hfound).1 fun copy hcopy => (h copy hcopy).shaped, ?_⟩
    rcases hcases with hsame | ⟨front, nodes, back, rfl, rfl⟩
    · obtain ⟨copy, hcopy⟩ := List.exists_mem_of_ne_nil copies hne
      exact hsame copy hcopy ▸ (h copy hcopy).slotsIn
    · have hnodes : nodes ≠ [] := fun hnil => hne (by rw [hnil, List.map_nil])
      refine slotsIn_ambiguousOf site (foldl_addNew_ne_nil hnodes) fun n hn => ?_
      exact (h _ (List.mem_map_of_mem (mem_foldl_addNew_nil.mp hn))).slotsIn
  · rw [merge_refused hcause]
    exact ParseError.on_of_spans_eq rfl hsite

/-! ## §5 Readings -/

/-- **The readings of a list in order are in place**, between the offsets that the list is between. -/
theorem between_readingsFor (h : Stood p lo hi slots) :
    EndsOn p (fun found => ∀ e ∈ found, Between p lo hi e) (readingsFor limit n slots) := by
  induction n generalizing slots with
  | zero => trivial
  | succ n ih =>
    rw [readingsFor]
    refine (stood_run h).bind fun ended ⟨hended, hends⟩ => ?_
    obtain ⟨last, contested⟩ := ended
    cases contested with
    | none =>
      dsimp only at hended ⊢
      have honly : EndsOn p (fun e => Between p lo hi e) (onlyNode last) := by
        unfold onlyNode
        split
        · exact between_of_mem hended.slotsIn (List.mem_singleton_self _)
        · trivial
      exact honly.bind fun e he => List.forall_mem_singleton.mpr he
    | some place =>
      cases hends with
      | contested hcontested =>
        refine (stood_fork hcontested hended).bind fun f ⟨hsite, hcopies⟩ => ?_
        refine (stood_runAll hcopies).bind fun copies hcopies => ?_
        refine (stood_merge hsite hcopies).bind fun found hfound => ?_
        cases found with
        | some merged => exact ih (hfound merged rfl)
        | none =>
          refine EndsOn.foldlM (fun e he => nomatch he) fun copy hcopy earlier hearlier => ?_
          refine (ih (hcopies copy hcopy)).bind fun more hmore => ?_
          dsimp only
          split
          · exact ParseError.on_of_spans_eq rfl hsite
          · exact fun e he => (mem_foldl_addNew.mp he).elim (hearlier e) (hmore e)

/-- **A list in order is reduced to an expression in place.** -/
theorem between_reduce {span : Span} (hspan : span.On p) (h : Stood p span.start span.stop slots) :
    EndsOn p (Between p span.start span.stop) (reduce limit span slots) := by
  unfold reduce readings
  refine (between_readingsFor h).bind fun candidates hcandidates => ?_
  split
  · exact hcandidates _ (List.mem_singleton_self _)
  · refine ⟨.intro ⟨hspan, (fun o ho => nomatch ho), ?_, trivial⟩ ?_, .refl span⟩
    · exact fun e he => (hcandidates e he).2
    · exact fun e he => (hcandidates e he).1

end Reading

end DewyFront
