/-
# DewyFront.Proofs.Unforked — juxtapositions that nothing contests

Where all other operators sit in looser rows, a juxtaposition that may be a call or a product is in one
place either way. Reduction does not fork then: it makes one tree, or fails in one way, and it is the tree
that comes out when the juxtapositions are settled beforehand, all on the upper tier or all on the
lower, but for the meanings. In that tree a run of juxtapositions nests to the left.

* §1 runs;
* §2 reductions;
* §3 meanings;
* §4 nesting;
* §5 chains.
-/
import DewyFront.Proofs.Climbing
import DewyFront.Proofs.TieredPasses

namespace DewyFront

namespace Reading

open Reduction

variable {tier : Tier} {slots next : List Slot} {limit : Nat} {span : Span} {e : Expr}

/-! ## §1 Runs -/

/-- The end of a run with its juxtapositions on one tier. -/
def Run.narrow (tier : Tier) (r : Run) : Run := ⟨r.slots.map (Slot.narrow tier), r.contested⟩

theorem Runs.yielding (h : Runs slots next) (hy : Yielding slots) : Yielding next :=
  fun o ho => hy o (h.mem_of_operator ho)

/-- **A run goes as it goes on one tier.** -/
theorem runFor_narrow (tier : Tier) (n : Nat) (h : Yielding slots) :
    runFor n (slots.map (Slot.narrow tier)) = (runFor n slots).map (Run.narrow tier) := by
  induction n generalizing slots with
  | zero => rfl
  | succ n ih =>
    obtain ⟨pulls, hd, hd'⟩ := survey_narrow tier h
    rw [runFor, runFor, hd, hd']
    show (pass (slots.map (Slot.narrow tier)) pulls >>= fun _ => _) =
      (pass slots pulls >>= fun _ => _).map _
    rw [pass_narrow tier h]
    cases hpass : pass slots pulls with
    | error failure => rfl
    | ok next =>
      show (if (next.map (Slot.narrow tier)).length = (slots.map (Slot.narrow tier)).length then _ else _) =
        Except.map _ (if next.length = slots.length then _ else _)
      have hnext : Yielding next := fun o ho => h o ((passes_of_pass hd hpass).mem_of_operator ho)
      rw [List.length_map, List.length_map, ih hnext]
      split <;> rfl

theorem run_narrow (tier : Tier) (h : Yielding slots) :
    run (slots.map (Slot.narrow tier)) = (run slots).map (Run.narrow tier) := by
  rw [run, run, List.length_map, runFor_narrow tier _ h]

/-! ## §2 Reductions -/

/-- **`Undisputed`** — on the way of the passes over a list no operand is ever contested. -/
def Undisputed (slots : List Slot) : Prop :=
  ∀ next, Runs slots next → ∃ pulls, survey next = .ok (.decided pulls)

/-- **A list that is undisputed is not forked.** -/
theorem Undisputed.reduce_eq (h : Undisputed slots) :
    reduce limit span slots = run slots >>= fun ended => onlyNode ended.slots := by
  rw [reduce, readings, readingsFor]
  cases hrun : run slots with
  | error failure => rfl
  | ok ended =>
    obtain ⟨slots', contested⟩ := ended
    obtain ⟨hruns, hends⟩ := run_ok hrun
    obtain ⟨pulls, hd⟩ := h slots' hruns
    cases hends with
    | contested hcontested =>
      rw [hd] at hcontested
      cases hcontested
    | settled =>
      show ((onlyNode slots' >>= fun _ => _) >>= fun _ => _) = onlyNode slots'
      cases onlyNode slots' <;> rfl

/-- An undisputed list that is reduced to a node is joined to it by passes. -/
theorem Undisputed.runs (h : Undisputed slots) (he : reduce limit span slots = .ok e) :
    Runs slots [.node e] := by
  rw [h.reduce_eq] at he
  obtain ⟨ended, hrun, honly⟩ := bind_ok_iff.mp he
  rw [← onlyNode_ok honly]
  exact (run_ok hrun).1

theorem undisputed_of_yielding (h : Yielding slots) : Undisputed slots := by
  intro next hruns
  obtain ⟨pulls, hd, -⟩ := survey_narrow .upper (hruns.yielding h)
  exact ⟨pulls, hd⟩

/-- A list whose juxtapositions are all on one tier is contested nowhere. -/
theorem uncontested_narrow (tier : Tier) (h : Yielding slots) :
    Climbing.Uncontested (slots.map (Slot.narrow tier)) := by
  rintro o ho
  obtain ⟨s, hs, heq⟩ := List.mem_map.mp ho
  cases s with
  | node e => cases heq
  | operator p =>
    cases heq
    have hyields := h p hs
    refine Op.not_holdsContested_of_mem_narrowings (fun hholds => ?_) (hyields.narrow_mem tier)
    by_contra hc
    rw [hyields.holdsContested_eq_false (by simpa using hc)] at hholds
    cases hholds

theorem onlyNode_narrow (tier : Tier) (slots : List Slot) :
    onlyNode (slots.map (Slot.narrow tier)) = (onlyNode slots).map (Expr.narrow tier) := by
  rcases slots with _ | ⟨s, _ | ⟨s', rest⟩⟩
  · rfl
  · cases s <;> rfl
  · cases s <;> cases s' <;> rfl

theorem undisputed_narrow (tier : Tier) (h : Yielding slots) :
    Undisputed (slots.map (Slot.narrow tier)) := by
  intro next hruns
  exact survey_of_uncontested fun o ho => uncontested_narrow tier h o (hruns.mem_of_operator ho)

/-- **A list is reduced as it is reduced on one tier.** -/
theorem reduce_narrow (tier : Tier) (h : Yielding slots) :
    reduce limit span (slots.map (Slot.narrow tier)) = (reduce limit span slots).map (Expr.narrow tier) := by
  rw [(undisputed_narrow tier h).reduce_eq, (undisputed_of_yielding h).reduce_eq, run_narrow tier h]
  cases run slots with
  | error failure => rfl
  | ok ended => exact onlyNode_narrow tier ended.slots

end Reading

/-! ## §3 Meanings -/

/-- A juxtaposition stands between two operands wherever it sits. -/
theorem Op.assoc_of_isJuxtaposition {op : Op} {l : Level} (h : op.isJuxtaposition = true)
    (hl : l ∈ op.levels) : l.assoc = .left := by
  cases op with
  | juxtapose m =>
    obtain ⟨r, -, rfl⟩ := List.mem_map.mp hl
    rfl
  | _ => cases h

namespace Reduction

variable {tier : Tier} {front back seg slots slots' : List Slot} {o : Operator} {e : Expr}

theorem isJuxtaposition_of_assoc {p : Level → Bool} (hp : ∀ l : Level, l.assoc = .left → p l = false)
    (h : o.op.levels.any p = true) : o.op.isJuxtaposition = false := by
  rw [Bool.eq_false_iff]
  intro hjux
  obtain ⟨l, hl, hpl⟩ := List.any_eq_true.mp h
  rw [hp l (Op.assoc_of_isJuxtaposition hjux hl)] at hpl
  cases hpl

theorem meanings_operator (h : o.op.isJuxtaposition = false) : (Slot.operator o).meanings = [] := by
  obtain ⟨op, place⟩ := o
  cases op <;> first | rfl | cases h

theorem meanings_binaryNode (o : Operator) (l r : Expr) :
    (binaryNode o l r).meanings = l.meanings ++ ((Slot.operator o).meanings ++ r.meanings) := by
  obtain ⟨op, place⟩ := o
  cases op <;> simp [binaryNode, Expr.meanings, Slot.meanings]

theorem Expr.meaningsAll_eq_flatMap (es : List Expr) : Expr.meaningsAll es = es.flatMap Expr.meanings := by
  induction es with
  | nil => rw [Expr.meaningsAll, List.flatMap_nil]
  | cons e es ih => rw [Expr.meaningsAll, List.flatMap_cons, ih]

theorem meanings_runSlots (first : Expr) {links : List (Operator × Expr)}
    (h : ∀ q ∈ links, q.1.op.isJuxtaposition = false) :
    (runSlots first links).flatMap Slot.meanings = (first :: links.map Prod.snd).flatMap Expr.meanings := by
  rw [runSlots, List.flatMap_cons, List.flatMap_cons]
  congr 1
  induction links with
  | nil => rfl
  | cons q links ih =>
    obtain ⟨hq, hlinks⟩ := List.forall_mem_cons.mp h
    rw [List.flatMap_cons, List.flatMap_append, ih hlinks]
    simp [meanings_operator hq]

/-- **A node has the juxtapositions of the stretch that it is made of.** -/
theorem Joins.meanings (h : Joins front back seg e) : e.meanings = seg.flatMap Slot.meanings := by
  cases h with
  | binary => simp [meanings_binaryNode]
  | before hbefore =>
    have hplain := isJuxtaposition_of_assoc (fun l hl => by rw [hl]; rfl) hbefore
    simp [Expr.meanings, meanings_operator hplain]
  | after hafter =>
    have hplain := isJuxtaposition_of_assoc (fun l hl => by rw [hl]; rfl) hafter
    simp [Expr.meanings, meanings_operator hplain]
  | @flat o first last links hflat hsame =>
    have hplain := isJuxtaposition_of_assoc (fun l hl => by rw [hl]; rfl) hflat
    have hlinks : ∀ q ∈ links, q.1.op.isJuxtaposition = false := fun q hq => by rw [hsame q hq, hplain]
    rw [Expr.meanings, Expr.meaningsAll_eq_flatMap, List.flatMap_append, List.flatMap_append,
      meanings_runSlots first hlinks]
    simp [meanings_operator hplain]

theorem Passes.meanings (h : Passes front slots slots') :
    slots'.flatMap Slot.meanings = slots.flatMap Slot.meanings := by
  induction h with
  | nil => rfl
  | keep _ ih => rw [List.flatMap_cons, List.flatMap_cons, ih]
  | join hjoins _ ih =>
    rw [List.flatMap_cons, List.flatMap_append, ih, ← hjoins.meanings]
    rfl

end Reduction

/-- **Reduction keeps the juxtapositions of a list in order.** -/
theorem Reading.Runs.meanings {slots next : List Slot} (h : Reading.Runs slots next) :
    next.flatMap Slot.meanings = slots.flatMap Slot.meanings := by
  induction h with
  | refl => rfl
  | tail _ hstep ih => rw [(Reading.Shortens.passes hstep).meanings, ih]

/-! ## §4 Nesting -/

namespace Expr

/-- Whether an expression is a juxtaposition. -/
def isJuxtaposition : Expr → Bool
  | .binary o _ _ _ => o.op.isJuxtaposition
  | _ => false

mutual
/-- **`nestsLeft`** — outside of operands nothing is ambiguous, and no juxtaposition stands on the right
of another. -/
def nestsLeft : Expr → Bool
  | .binary o l r _ => nestsLeft l && nestsLeft r && !(o.op.isJuxtaposition && r.isJuxtaposition)
  | .before _ e _ | .after _ e _ => nestsLeft e
  | .flat _ es _ => nestsLeftAll es
  | .ambiguous .. => false
  | .atom .. | .block .. | .escape .. | .istring .. | .flow .. | .declare .. | .keyword .. => true
/-- Whether all of some expressions nest to the left. -/
def nestsLeftAll : List Expr → Bool
  | [] => true
  | e :: es => nestsLeft e && nestsLeftAll es
end

theorem isJuxtaposition_narrow (tier : Tier) (e : Expr) :
    (e.narrow tier).isJuxtaposition = e.isJuxtaposition := by
  cases e <;> simp [narrow, isJuxtaposition, Op.isJuxtaposition_narrow]

mutual
theorem nestsLeft_narrow (tier : Tier) : ∀ e : Expr, (e.narrow tier).nestsLeft = e.nestsLeft
  | .binary o l r s => by
    rw [narrow, nestsLeft, nestsLeft, nestsLeft_narrow tier l, nestsLeft_narrow tier r,
      isJuxtaposition_narrow, Operator.op_narrow, Op.isJuxtaposition_narrow]
  | .before o e s | .after o e s => by rw [narrow, nestsLeft, nestsLeft, nestsLeft_narrow tier e]
  | .flat o es s => by rw [narrow, nestsLeft, nestsLeft, nestsLeftAll_narrow tier es]
  | .ambiguous .. | .atom .. | .block .. | .escape .. | .istring .. | .flow .. | .declare ..
  | .keyword .. => by rw [narrow]
theorem nestsLeftAll_narrow (tier : Tier) : ∀ es : List Expr,
    nestsLeftAll (narrowAll tier es) = nestsLeftAll es
  | [] => by rw [narrowAll]
  | e :: es => by
    rw [narrowAll, nestsLeftAll, nestsLeftAll, nestsLeft_narrow tier e, nestsLeftAll_narrow tier es]
end

theorem nestsLeft_of_isOperand {e : Expr} (h : e.IsOperand) :
    e.nestsLeft = true ∧ e.isJuxtaposition = false := by
  cases e <;> first | (simp only [nestsLeft, isJuxtaposition, and_self]; done) | cases h

end Expr

namespace Climbing

/-- **`OnTier`** — the nodes of a list are operands, and its juxtapositions are all on one tier. -/
structure OnTier (tier : Tier) (slots : List Slot) : Prop where
  operands : ∀ e, .node e ∈ slots → e.IsOperand
  levels : ∀ o, .operator o ∈ slots → o.op.isJuxtaposition = true → o.op.levels = [⟨tier.row, .left⟩]

theorem OnTier.append_left {tier : Tier} {front back : List Slot} (h : OnTier tier (front ++ back)) :
    OnTier tier front :=
  ⟨fun e he => h.operands e (List.mem_append_left _ he), fun o ho => h.levels o (List.mem_append_left _ ho)⟩

theorem OnTier.append_right {tier : Tier} {front back : List Slot} (h : OnTier tier (front ++ back)) :
    OnTier tier back :=
  ⟨fun e he => h.operands e (List.mem_append_right _ he), fun o ho => h.levels o (List.mem_append_right _ ho)⟩

mutual
/-- **What reads a list on one tier nests to the left**: behind a juxtaposition no other can be read, since
it would bind no harder. -/
theorem nestsLeft_of_reads {tier : Tier} : ∀ {left right : Option Op} {s : List Slot} {e : Expr},
    Reads left s e right → OnTier tier s → e.nestsLeft = true ∧
      ∀ p, left = some p → p.levels = [⟨tier.row, .left⟩] → e.isJuxtaposition = false
  | _, _, _, _, .operand e, h => by
    obtain ⟨hnests, hplain⟩ := Expr.nestsLeft_of_isOperand (h.operands e List.mem_cons_self)
    exact ⟨hnests, fun _ _ _ => hplain⟩
  | left, _, _, _, @Reads.binary _ _ s t l r o hbinary hflat hl hr hleft hright, h => by
    have ho := h.append_right.levels o List.mem_cons_self
    have ht : OnTier tier ([.operator o] ++ t) := h.append_right
    obtain ⟨hnestsl, -⟩ := nestsLeft_of_reads hl h.append_left
    obtain ⟨hnestsr, hplain⟩ := nestsLeft_of_reads hr ht.append_right
    constructor
    · rw [Reduction.binaryNode, Expr.nestsLeft, hnestsl, hnestsr]
      cases hjux : o.op.isJuxtaposition with
      | false => rfl
      | true => rw [hplain o.op rfl (ho hjux)]; rfl
    · rintro p rfl hp
      rw [Reduction.binaryNode, Expr.isJuxtaposition, Bool.eq_false_iff]
      intro hjux
      have hfrom : (powerFrom (some p)).high = 2 * tier.row + 2 := by
        rw [powerFrom, Option.elim, Op.rightPower_of_levels_one hp]
        rfl
      rw [Op.leftPower_of_levels_one (ho hjux), hfrom] at hleft
      exact absurd hleft (by simp [Level.powers])
  | _, _, _, _, @Reads.before _ _ s _ o _ he _, h => by
    have hs : OnTier tier ([.operator o] ++ s) := h
    refine ⟨?_, fun _ _ _ => rfl⟩
    rw [Expr.nestsLeft]
    exact (nestsLeft_of_reads he hs.append_right).1
  | _, _, _, _, .after _ he _, h => by
    refine ⟨?_, fun _ _ _ => rfl⟩
    rw [Expr.nestsLeft]
    exact (nestsLeft_of_reads he h.append_left).1
  | _, _, _, _, @Reads.flat _ _ s t _ _ o _ _ _ he _ hrun, h => by
    have ht : OnTier tier ([.operator o] ++ t) := h.append_right
    refine ⟨?_, fun _ _ _ => rfl⟩
    rw [Expr.nestsLeft, Expr.nestsLeftAll, (nestsLeft_of_reads he h.append_left).1,
      nestsLeftAll_of_readsRun hrun ht.append_right]
    rfl
theorem nestsLeftAll_of_readsRun {tier : Tier} : ∀ {o last : Operator} {s : List Slot} {es : List Expr}
    {right : Option Op}, ReadsRun o s last es right → OnTier tier s → Expr.nestsLeftAll es = true
  | _, _, _, _, _, .last he _ _, h => by
    rw [Expr.nestsLeftAll, Expr.nestsLeftAll, (nestsLeft_of_reads he h).1]
    rfl
  | _, _, _, _, _, @ReadsRun.more _ s t _ _ _ p _ he _ hrun, h => by
    have ht : OnTier tier ([.operator p] ++ t) := h.append_right
    rw [Expr.nestsLeftAll, (nestsLeft_of_reads he h.append_left).1,
      nestsLeftAll_of_readsRun hrun ht.append_right]
    rfl
end

end Climbing

/-! ## §5 Chains -/

namespace Reduction

variable {tier : Tier} {slots : List Slot}

theorem next_narrow (tier : Tier) {s : Slot} (h : ∀ o, s = .operator o → o.op.Yields) (t : Turn) :
    t.next (s.narrow tier) = t.next s := by
  cases s with
  | node e => cases t <;> simp only [Slot.narrow, Turn.next, Expr.isSemicolon_narrow]
  | operator o => exact next_settled (.operator ((h o rfl).narrow_mem tier)) t

theorem turnFrom_narrow (tier : Tier) (h : Yielding slots) (t : Turn) :
    turnFrom t (slots.map (Slot.narrow tier)) = turnFrom t slots := by
  induction slots generalizing t with
  | nil => rfl
  | cons s rest ih =>
    have hs : ∀ o, s = .operator o → o.op.Yields := fun o ho => h o (ho ▸ List.mem_cons_self)
    rw [List.map_cons, turnFrom, turnFrom, next_narrow tier hs]
    exact Option.bind_congr fun u _ => ih (fun o ho => h o (List.mem_cons_of_mem _ ho)) u

theorem Shaped.narrow (tier : Tier) (hs : Shaped slots) (h : Yielding slots) :
    Shaped (slots.map (Slot.narrow tier)) := by
  obtain ⟨u, hu, hwants⟩ := hs
  exact ⟨u, (turnFrom_narrow tier h .operand).trans hu, hwants⟩

/-- A list of operands is on one tier when its juxtapositions are brought there. -/
theorem onTier_narrow (tier : Tier) (h : Yielding slots) (he : ∀ e, .node e ∈ slots → e.IsOperand) :
    Climbing.OnTier tier (slots.map (Slot.narrow tier)) where
  operands e hmem := by
    obtain ⟨s, hs, heq⟩ := List.mem_map.mp hmem
    cases s with
    | operator o => cases heq
    | node n =>
      cases heq
      rw [Expr.narrow_of_isOperand (he n hs)]
      exact he n hs
  levels o hmem hjux := by
    obtain ⟨s, hs, heq⟩ := List.mem_map.mp hmem
    cases s with
    | node n => cases heq
    | operator p =>
      cases heq
      rw [Operator.op_narrow, Op.isJuxtaposition_narrow] at hjux
      refine Op.levels_narrow tier ?_
      by_contra hc
      rw [(h p hs).isJuxtaposition_eq_false (by simpa using hc)] at hjux
      cases hjux

end Reduction

namespace Expr

open Reading Reduction

variable {config : ParseConfig} {chain : Chain} {span : Span} {t : Expr}

theorem yielding_of_slotsOf {limit : Nat} {slots : List Slot} (h : chain.Yields)
    (hslots : slotsOf limit chain = .ok slots) : Yielding slots :=
  fun o ho => h o (mem_of_operator_slot (slotsOf_ok hslots) ho)

/-- A chain is reduced as it is reduced on one tier. -/
theorem ofChain_narrow (tier : Tier) (config : ParseConfig) (hshape : chain.checkShape = .ok span)
    (h : chain.Yields) :
    ofChain config (chain.narrow tier) = (ofChain config chain).map (narrow tier) := by
  rw [ofChain, ofChain, assemble, assemble, hshape, Chain.checkShape_narrow tier h hshape,
    slotsOf_narrow]
  cases hslots : slotsOf config.maxReadings chain with
  | error failure => rfl
  | ok slots => exact reduce_narrow tier (yielding_of_slotsOf h hslots)

/-- The tree of a chain has the juxtapositions of the chain, and they nest to the left. -/
theorem nestsLeft_of_ofChain (hclosed : chain.IsClosed) (h : chain.Yields)
    (ht : ofChain config chain = .ok t) : t.meanings = chain.meanings ∧ t.nestsLeft = true := by
  obtain ⟨span, slots, hshape, hslots, hreduce⟩ := assemble_ok ht
  have hyields := yielding_of_slotsOf h hslots
  constructor
  · have hruns := (undisputed_of_yielding hyields).runs hreduce
    rw [← meanings_slotsOf hslots, ← hruns.meanings]
    simp
  · -- On one tier, the tree is the one that precedence climbing reads.
    have hnarrow : reduce config.maxReadings span (slots.map (Slot.narrow .lower)) =
        .ok (t.narrow .lower) := by
      rw [reduce_narrow .lower hyields, hreduce]
      rfl
    have hreads := Climbing.reads_of_joined
      ((shaped_of_checkShape hslots hshape hclosed).narrow .lower hyields)
      (uncontested_narrow .lower hyields)
      (Climbing.joined_of_runs ((undisputed_narrow .lower hyields).runs hnarrow))
    have hoperands : ∀ e, .node e ∈ slots → e.IsOperand := by
      intro e he
      obtain ⟨link, -, hlowers⟩ := exists_of_mem_right (slotsOf_ok hslots) he
      cases hlowers with
      | operand h => exact isOperand_of_ofOperand h
    rw [← nestsLeft_narrow .lower t]
    exact (Climbing.nestsLeft_of_reads hreads (onTier_narrow .lower hyields hoperands)).1

/-- **Juxtapositions that nothing contests never fork.** If every juxtaposition of a chain has meanings on
both tiers and all other operators are looser than both, the expression of the chain is that of the
chain with its juxtapositions on one tier, whichever it is, once the meanings are put back, or it fails
as that does; and in it nothing is ambiguous, and juxtapositions nest to the left. -/
theorem ofChain_eq_restore (tier : Tier) (config : ParseConfig) (hshape : chain.checkShape = .ok span)
    (hclosed : chain.IsClosed) (h : chain.Yields) :
    ofChain config chain =
        (ofChain config (chain.narrow tier)).map (fun e => (e.restore chain.meanings).1) ∧
      ∀ t, ofChain config chain = .ok t → t.nestsLeft = true := by
  refine ⟨?_, fun t ht => (nestsLeft_of_ofChain hclosed h ht).2⟩
  rw [ofChain_narrow tier config hshape h]
  cases ht : ofChain config chain with
  | error failure => rfl
  | ok t =>
    have hrestore := restore_narrow tier t []
    rw [List.append_nil, (nestsLeft_of_ofChain hclosed h ht).1] at hrestore
    exact congrArg (fun x => Except.ok x.1) hrestore.symm

/-- Calls in a row with a sum behind them, and no reading allowed at a fork. -/
theorem ofChain_eq_restore_of_calls :
    let name (c : Char) (start : Nat) : Chain.Link := .operand (.atom (.identifier [c])) ⟨start, start + 1⟩
    let joint (start : Nat) : Chain.Link := .operator ⟨.juxtapose ⟨true, true, true⟩, .point start⟩
    let chain : Chain := [name 'f' 0, joint 1, name 'a' 1, joint 2, name 'b' 2,
      .operator ⟨.symbol .plus, ⟨3, 4⟩⟩, name 'c' 4, joint 5, name 'd' 5]
    chain.checkShape = .ok ⟨0, 6⟩ ∧ chain.IsClosed ∧ chain.Yields ∧
      (ofChain ⟨0, default⟩ chain =
          (ofChain ⟨0, default⟩ (chain.narrow .lower)).map (fun e => (e.restore chain.meanings).1) ∧
        ∀ t, ofChain ⟨0, default⟩ chain = .ok t → t.nestsLeft = true) := by
  intro name joint chain
  have hshape : chain.checkShape = .ok ⟨0, 6⟩ := rfl
  have hclosed : chain.IsClosed := Chain.isClosed_of_notMem (by simp [chain, name, joint])
  have hyields : chain.Yields := by
    intro o ho
    simp only [chain, name, joint, List.mem_cons, Chain.Link.operator.injEq, reduceCtorEq, false_or,
      List.not_mem_nil, or_false] at ho
    rcases ho with rfl | rfl | rfl | rfl
    · exact .inl rfl
    · exact .inl rfl
    · exact .inr ⟨rfl, by decide⟩
    · exact .inl rfl
  exact ⟨hshape, hclosed, hyields, ofChain_eq_restore .lower ⟨0, default⟩ hshape hclosed hyields⟩

end Expr

end DewyFront
