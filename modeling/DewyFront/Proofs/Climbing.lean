/-
# DewyFront.Proofs.Climbing — reduction builds the tree of the precedence table

Precedence climbing reads a list once, from the left: an operand, and then operators as long as they
bind harder than the operator in front. Reduction goes over the list many times and joins operands
where it can. Both come to the same tree. What the tree has to do with the list is told in between,
by a relation that says of every operand which of its neighbours it belongs to.

* §1 precedence climbing;
* §2 trees that read a list;
* §3 climbing finds the tree that reads a list;
* §4 passes keep what the nodes of a list read;
* §5 lists that nothing contests;
* §6 chains.
-/
import DewyFront.Proofs.Lowering

namespace DewyFront

namespace Climbing

open Reduction

/-! ## §1 Climbing -/

/-- **`Bound`** — what an operator has to beat to take the operand in front of it: a binding power,
and the flat run that the operand is in, which the same operator does not begin anew. -/
structure Bound where
  power : Nat
  run : Option Op

namespace Bound

/-- The bound that every operator beats. -/
def loosest : Bound := ⟨0, none⟩

/-- Whether an operator that is taken at a level beats the bound. -/
def admits (b : Bound) (op : Op) (l : Level) : Bool := b.power < l.powers.1 && b.run != some op

end Bound

/-- The level of an operator in front of its operand. -/
def levelBefore? (op : Op) : Option Level := op.levels.find? (·.assoc == .before)

/-- The level of an operator behind its operand, or between two. -/
def levelBehind? (op : Op) : Option Level := op.levels.find? (·.assoc != .before)

mutual
/-- **`climb`** — the expression at the front of some slots, and the slots behind it. With an operand
already read, the operators behind it that beat the bound are taken. The number bounds the depth of
calls. -/
def climb : Nat → Bound → Option Expr → List Slot → Option (Expr × List Slot)
  | 0, _, _, _ => none
  | _ + 1, _, none, [] => none
  | n + 1, b, none, .node e :: rest => climb n b (some e) rest
  | n + 1, b, none, .operator o :: rest => do
    let l ← levelBefore? o.op
    let (e, rest) ← climb n ⟨l.powers.2, none⟩ none rest
    climb n b (some (.before o e (o.span.merge e.span))) rest
  | n + 1, b, some e, .operator o :: rest =>
    match (levelBehind? o.op).filter (b.admits o.op) with
    | none => some (e, .operator o :: rest)
    | some l =>
      match l.assoc with
      | .after => climb n b (some (.after o e (e.span.merge o.span))) rest
      | .flat => do
        let (es, last, rest) ← gather n l.powers.2 o rest
        climb n b (some (.flat last (e :: es) (Expr.spanOfAll e es))) rest
      | _ => do
        let (r, rest) ← climb n ⟨l.powers.2, none⟩ none rest
        climb n b (some (binaryNode o e r)) rest
  | _ + 1, _, some e, slots => some (e, slots)
/-- **`gather`** — the operands of a flat run behind an operator of it, the last operator of the run,
and the slots behind the run. -/
def gather : Nat → Nat → Operator → List Slot → Option (List Expr × Operator × List Slot)
  | 0, _, _, _ => none
  | n + 1, power, o, slots => do
    let (e, rest) ← climb n ⟨power, some o.op⟩ none slots
    match rest with
    | .operator p :: rest' =>
      if p.op = o.op then
        let (es, last, rest) ← gather n power p rest'
        return (e :: es, last, rest)
      else return ([e], o, rest)
    | _ => return ([e], o, rest)
end

/-- **`parse`** — the expression of a whole list by precedence climbing. Between two slots the calls
are at most two deep. -/
def parse (slots : List Slot) : Option Expr :=
  match climb (2 * slots.length + 1) .loosest none slots with
  | some (e, []) => some e
  | _ => none

/-! ## §2 Readings -/

/-- How hard an operand is bound by what stands on its left. -/
def powerFrom (left : Option Op) : Power := left.elim .none Op.rightPower

/-- How hard an operand is bound by what stands on its right. -/
def powerTo (right : Option Op) : Power := right.elim .none Op.leftPower

mutual
/-- **`Reads`** — a tree reads some slots between two operators: every operand in it belongs to the
neighbour that binds it harder, and runs of a flat operator are as long as they can be. -/
inductive Reads : Option Op → List Slot → Expr → Option Op → Prop
  | operand {left right : Option Op} (e : Expr) : Reads left [.node e] e right
  | binary {left right : Option Op} {s t : List Slot} {l r : Expr} {o : Operator}
      (hbinary : o.op.isBinary = true) (hflat : o.op.isFlat = false)
      (hl : Reads left s l (some o.op)) (hr : Reads (some o.op) t r right)
      (hleft : (powerFrom left).high < o.op.leftPower.low)
      (hright : (powerTo right).high < o.op.rightPower.low) :
      Reads left (s ++ .operator o :: t) (binaryNode o l r) right
  | before {left right : Option Op} {s : List Slot} {e : Expr} {o : Operator}
      (hbefore : o.op.isBefore = true) (h : Reads (some o.op) s e right)
      (hright : (powerTo right).high < o.op.rightPower.low) :
      Reads left (.operator o :: s) (.before o e (o.span.merge e.span)) right
  | after {left right : Option Op} {s : List Slot} {e : Expr} {o : Operator}
      (hafter : o.op.isAfter = true) (h : Reads left s e (some o.op))
      (hleft : (powerFrom left).high < o.op.leftPower.low) :
      Reads left (s ++ [.operator o]) (.after o e (e.span.merge o.span)) right
  | flat {left right : Option Op} {s t : List Slot} {e : Expr} {es : List Expr}
      {o last : Operator} (hflat : o.op.isFlat = true) (hne : left ≠ some o.op)
      (h : Reads left s e (some o.op)) (hleft : (powerFrom left).high < o.op.leftPower.low)
      (hrun : ReadsRun o t last es right) :
      Reads left (s ++ .operator o :: t) (.flat last (e :: es) (Expr.spanOfAll e es)) right
/-- **`ReadsRun`** — operands read the slots behind an operator of a flat run, up to the end of the
run. -/
inductive ReadsRun : Operator → List Slot → Operator → List Expr → Option Op → Prop
  | last {right : Option Op} {s : List Slot} {e : Expr} {o : Operator}
      (h : Reads (some o.op) s e right) (hright : (powerTo right).high < o.op.rightPower.low)
      (hne : right ≠ some o.op) : ReadsRun o s o [e] right
  | more {right : Option Op} {s t : List Slot} {e : Expr} {es : List Expr} {o p last : Operator}
      (h : Reads (some o.op) s e (some o.op)) (hp : p.op = o.op)
      (hrun : ReadsRun p t last es right) :
      ReadsRun o (s ++ .operator p :: t) last (e :: es) right
end

/-! ## §3 Climbing -/

variable {b : Bound} {left right : Option Op} {op : Op} {o : Operator} {e : Expr}
  {rest slots : List Slot} {x : Expr × List Slot}

/-- Climbing with an operand read, or none, comes to an outcome when the calls may be deep enough. -/
def Reaches (b : Bound) (lhs : Option Expr) (slots : List Slot) (x : Expr × List Slot) : Prop :=
  ∀ n, 2 * slots.length + 1 ≤ n → climb n b lhs slots = some x

/-- A bound is that of the operator in front, at one of its levels. -/
structure Fits (b : Bound) (left : Option Op) : Prop where
  low : (powerFrom left).low ≤ b.power
  high : b.power ≤ (powerFrom left).high
  run : ∀ f, b.run = some f → left = some f ∧ f.isFlat = true

/-- What stands behind some slots begins with an operator, or with none. -/
def Follows (right : Option Op) (rest : List Slot) : Prop :=
  (headOperator rest).map (·.op) = right

theorem levelBefore?_of_isBefore (h : op.isBefore = true) :
    ∃ l, levelBefore? op = some l ∧ l ∈ op.levels ∧ l.assoc = .before := by
  obtain ⟨l, hl, hassoc⟩ := Op.isBefore_iff.mp h
  obtain ⟨m, hm⟩ := Option.isSome_iff_exists.mp
    (List.find?_isSome (p := (·.assoc == .before)) |>.mpr ⟨l, hl, by simp [hassoc]⟩)
  exact ⟨m, hm, List.mem_of_find?_eq_some hm, by simpa using List.find?_some hm⟩

theorem levelBehind?_of_isBinary (h : op.isBinary = true) :
    ∃ l, levelBehind? op = some l ∧ l ∈ op.levels ∧ l.assoc ≠ .before ∧ l.assoc ≠ .after := by
  obtain ⟨l, hl, hbinary⟩ := Op.isBinary_iff.mp h
  have hne : l.assoc ≠ .before := by
    rintro heq
    simp [Level.isBinary, heq] at hbinary
  obtain ⟨m, hm⟩ := Option.isSome_iff_exists.mp
    (List.find?_isSome (p := (·.assoc != .before)) |>.mpr ⟨l, hl, by simpa using hne⟩)
  refine ⟨m, hm, List.mem_of_find?_eq_some hm, by simpa using List.find?_some hm, ?_⟩
  intro hafter
  obtain ⟨row, hls⟩ := Op.levels_of_isAfter
    (Op.isAfter_iff.mpr ⟨m, List.mem_of_find?_eq_some hm, hafter⟩)
  rw [hls, List.mem_singleton] at hl
  simp [Level.isBinary, hl] at hbinary

theorem mem_of_levelBehind? {l : Level} (h : levelBehind? op = some l) : l ∈ op.levels :=
  List.mem_of_find?_eq_some h

theorem fits_level {l : Level} (hl : l ∈ op.levels) (h : l.assoc ≠ .after) :
    Fits ⟨l.powers.2, none⟩ (some op) := by
  obtain ⟨hlow, hhigh⟩ := Op.rightPower_bounds hl (Level.powers_snd_pos h)
  exact ⟨hlow, hhigh, fun f hf => by cases hf⟩

theorem fits_loosest : Fits .loosest none :=
  ⟨Nat.le_refl _, Nat.le_refl _, fun f hf => by cases hf⟩

/-- An operator beats the bound when the operand in front is bound harder by it. -/
theorem admits_of_lt {l : Level} (hb : Fits b left) (hl : levelBehind? op = some l)
    (hlt : (powerFrom left).high < op.leftPower.low)
    (hrun : op.isFlat = true → left ≠ some op) : b.admits op l = true := by
  have hne : l.assoc ≠ .before := by simpa using List.find?_some hl
  have hlow := (Op.leftPower_bounds (mem_of_levelBehind? hl) (Level.powers_fst_pos hne)).1
  have hhigh := hb.high
  simp only [Bound.admits, Bool.and_eq_true, decide_eq_true_eq, bne_iff_ne]
  refine ⟨by omega, fun heq => ?_⟩
  obtain ⟨hleft, hflat⟩ := hb.run op heq
  exact hrun hflat hleft

/-- Climbing ends where the operator behind does not beat the bound. -/
theorem reaches_stop (hf : Follows right rest)
    (hstop : ∀ q, right = some q → q.leftPower.high < b.power ∨ b.run = some q) :
    Reaches b (some e) rest (e, rest) := by
  intro n hn
  obtain ⟨m, rfl⟩ : ∃ m, n = m + 1 := ⟨n - 1, by omega⟩
  match rest, hf with
  | [], _ => rw [climb]; simp
  | .node _ :: _, _ => rw [climb]; simp
  | .operator q :: tail, hf =>
    have hnone : (levelBehind? q.op).filter (b.admits q.op) = none := by
      rw [Option.filter_eq_none_iff]
      intro l hl
      have hne : l.assoc ≠ .before := by simpa using List.find?_some hl
      have hhigh := (Op.leftPower_bounds (mem_of_levelBehind? hl) (Level.powers_fst_pos hne)).2
      simp only [Bound.admits, Bool.and_eq_true, decide_eq_true_eq, bne_iff_ne, not_and, ne_eq,
        not_not]
      intro hlt
      rcases hstop q.op hf.symm with h | h
      · omega
      · exact h
    rw [climb, hnone]

/-- Climbing ends behind an operand that is bound harder on its left. -/
theorem reaches_of_lt (hb : Fits b left) (hf : Follows right rest)
    (hlt : (powerTo right).high < (powerFrom left).low) : Reaches b (some e) rest (e, rest) := by
  refine reaches_stop hf fun q hq => .inl ?_
  subst hq
  exact Nat.lt_of_lt_of_le hlt hb.low

/-- Climbing over a list takes one call for its first slot. -/
theorem reaches_cons {lhs : Option Expr} {slot : Slot} {tail : List Slot}
    (h : ∀ n, 2 * tail.length + 2 ≤ n → climb (n + 1) b lhs (slot :: tail) = some x) :
    Reaches b lhs (slot :: tail) x := by
  intro n hn
  rw [List.length_cons] at hn
  obtain ⟨m, rfl⟩ : ∃ m, n = m + 1 := ⟨n - 1, by omega⟩
  exact h m (by omega)

/-- An operator in front takes the operand behind it. -/
theorem reaches_before {l : Level} {tail : List Slot} (hl : levelBefore? o.op = some l)
    (htail : Reaches ⟨l.powers.2, none⟩ none tail (e, rest)) (hlen : rest.length ≤ tail.length)
    (hx : Reaches b (some (.before o e (o.span.merge e.span))) rest x) :
    Reaches b none (.operator o :: tail) x := by
  refine reaches_cons fun n hn => ?_
  rw [climb, hl, Option.bind_eq_bind, Option.bind_some, htail n (by omega)]
  exact hx n (by omega)

/-- An operator behind takes the operand in front of it. -/
theorem reaches_after {l : Level} (hl : levelBehind? o.op = some l)
    (hadmits : b.admits o.op l = true) (hassoc : l.assoc = .after)
    (hx : Reaches b (some (.after o e (e.span.merge o.span))) rest x) :
    Reaches b (some e) (.operator o :: rest) x := by
  refine reaches_cons fun n hn => ?_
  rw [climb, hl, Option.filter_some, if_pos hadmits]
  simp only [hassoc]
  exact hx n (by omega)

/-- An operator between takes the operands on both sides. -/
theorem reaches_binary {l : Level} {r : Expr} {tail : List Slot}
    (hl : levelBehind? o.op = some l) (hadmits : b.admits o.op l = true)
    (hafter : l.assoc ≠ .after) (hflat : l.assoc ≠ .flat)
    (htail : Reaches ⟨l.powers.2, none⟩ none tail (r, rest)) (hlen : rest.length ≤ tail.length)
    (hx : Reaches b (some (binaryNode o e r)) rest x) :
    Reaches b (some e) (.operator o :: tail) x := by
  refine reaches_cons fun n hn => ?_
  rw [climb, hl, Option.filter_some, if_pos hadmits]
  dsimp only
  split
  · exact absurd (by assumption) hafter
  · exact absurd (by assumption) hflat
  · rw [Option.bind_eq_bind, htail n (by omega)]
    exact hx n (by omega)

/-- A flat operator takes all operands of its run. -/
theorem reaches_flat {l : Level} {last : Operator} {es : List Expr} {tail : List Slot}
    (hl : levelBehind? o.op = some l) (hadmits : b.admits o.op l = true) (hflat : l.assoc = .flat)
    (htail : ∀ n, 2 * tail.length + 2 ≤ n → gather n l.powers.2 o tail = some (es, last, rest))
    (hlen : rest.length ≤ tail.length)
    (hx : Reaches b (some (.flat last (e :: es) (Expr.spanOfAll e es))) rest x) :
    Reaches b (some e) (.operator o :: tail) x := by
  refine reaches_cons fun n hn => ?_
  rw [climb, hl, Option.filter_some, if_pos hadmits]
  simp only [hflat]
  rw [Option.bind_eq_bind, htail n (by omega)]
  exact hx n (by omega)

mutual
/-- **Climbing finds the tree that reads the slots in front.** -/
theorem reaches_of_reads : ∀ {left right : Option Op} {s : List Slot} {e : Expr},
    Reads left s e right → ∀ {b : Bound} {rest : List Slot} {x : Expr × List Slot},
    Fits b left → Follows right rest → Reaches b (some e) rest x → Reaches b none (s ++ rest) x
  -- Along the derivation: `hx` tells how the climb goes on once the expression is there.
  | _, _, _, _, .operand e, b, rest, x, _, _, hx => by
    rw [List.singleton_append]
    refine reaches_cons fun n hn => ?_
    rw [climb]
    exact hx n (by omega)
  | _, _, _, _, @Reads.binary _ _ s t _ _ o hbinary hflat hl hr hleft hright, b, rest, x, hb, hf, hx => by
    obtain ⟨l, hlevel, hmem, -, hafter⟩ := levelBehind?_of_isBinary hbinary
    have hne : l.assoc ≠ .flat := fun h =>
      Bool.eq_false_iff.mp hflat (Op.isFlat_iff.mpr ⟨l, hmem, h⟩)
    have hadmits := admits_of_lt hb hlevel hleft fun h => absurd h (Bool.eq_false_iff.mp hflat)
    have hfits := fits_level hmem hafter
    rw [List.append_assoc, List.cons_append]
    -- The left operand is climbed first; the operator is admitted behind it, and the right one ends where
    -- the whole does.
    refine reaches_of_reads hl hb rfl (reaches_binary hlevel hadmits hafter hne ?_ ?_ hx)
    · exact reaches_of_reads hr hfits hf (reaches_of_lt hfits hf hright)
    · simp
  | _, _, _, _, @Reads.before _ _ s _ o hbefore h hright, b, rest, x, hb, hf, hx => by
    obtain ⟨l, hlevel, hmem, hassoc⟩ := levelBefore?_of_isBefore hbefore
    have hfits := fits_level hmem (by rw [hassoc]; decide)
    rw [List.cons_append]
    refine reaches_before hlevel ?_ ?_ hx
    · exact reaches_of_reads h hfits hf (reaches_of_lt hfits hf hright)
    · simp
  | _, _, _, _, @Reads.after _ _ s _ o hafter h hleft, b, rest, x, hb, hf, hx => by
    obtain ⟨row, hls⟩ := Op.levels_of_isAfter hafter
    have hlevel : levelBehind? o.op = some ⟨row, .after⟩ := by
      rw [levelBehind?, hls]
      rfl
    have hnflat := (Op.forms_of_isAfter hafter).2.2
    have hadmits := admits_of_lt hb hlevel hleft fun h => absurd h (Bool.eq_false_iff.mp hnflat)
    rw [List.append_assoc, List.singleton_append]
    exact reaches_of_reads h hb rfl (reaches_after hlevel hadmits rfl hx)
  | _, _, _, _, @Reads.flat _ _ s t _ _ o last hflat hne h hleft hrun, b, rest, x, hb, hf, hx => by
    obtain ⟨row, hls⟩ := Op.levels_of_isFlat hflat
    have hlevel : levelBehind? o.op = some ⟨row, .flat⟩ := by
      rw [levelBehind?, hls]
      rfl
    have hadmits := admits_of_lt hb hlevel hleft fun _ => hne
    have hmem : (⟨row, .flat⟩ : Level) ∈ o.op.levels := by
      rw [hls]
      exact List.mem_singleton_self _
    obtain ⟨hlow, hhigh, -⟩ := fits_level hmem Assoc.noConfusion
    have hfits : Fits ⟨(⟨row, .flat⟩ : Level).powers.2, some o.op⟩ (some o.op) :=
      ⟨hlow, hhigh, fun f hf => ⟨hf, by cases hf; exact hflat⟩⟩
    rw [List.append_assoc, List.cons_append]
    refine reaches_of_reads h hb rfl (reaches_flat hlevel hadmits rfl ?_ ?_ hx)
    · exact gathers_of_readsRun hrun hfits hf
    · simp
theorem gathers_of_readsRun : ∀ {o last : Operator} {s : List Slot} {es : List Expr}
    {right : Option Op}, ReadsRun o s last es right → ∀ {power : Nat} {rest : List Slot},
    Fits ⟨power, some o.op⟩ (some o.op) → Follows right rest →
    ∀ n, 2 * (s ++ rest).length + 2 ≤ n → gather n power o (s ++ rest) = some (es, last, rest)
  | _, _, _, _, _, @ReadsRun.last _ s e o h hright hne, power, rest, hb, hf => by
    intro n hn
    obtain ⟨m, rfl⟩ : ∃ m, n = m + 1 := ⟨n - 1, by omega⟩
    have hreach := reaches_of_reads h hb hf (reaches_of_lt hb hf hright)
    rw [gather, Option.bind_eq_bind, hreach m (by omega)]
    match rest, hf with
    | [], _ => rfl
    | .node _ :: _, _ => rfl
    | .operator p :: tail, hf =>
      have hp : p.op ≠ o.op := fun h => hne (by rw [← hf]; exact congrArg some h)
      simp only [Option.bind_some, if_neg hp]
      rfl
  | _, _, _, _, _, @ReadsRun.more _ s t e es o p last h hp hrun, power, rest, hb, hf => by
    intro n hn
    obtain ⟨m, rfl⟩ : ∃ m, n = m + 1 := ⟨n - 1, by omega⟩
    rw [List.append_assoc, List.cons_append] at hn ⊢
    have hfollows : Follows (some o.op) (.operator p :: (t ++ rest)) := congrArg some hp
    have hstop : Reaches ⟨power, some o.op⟩ (some e) (.operator p :: (t ++ rest)) (e, _) :=
      reaches_stop hfollows fun q hq => .inr hq
    have hreach := reaches_of_reads h hb hfollows hstop
    have hfits : Fits ⟨power, some p.op⟩ (some p.op) := by
      rw [hp]
      exact hb
    have hrest := gathers_of_readsRun hrun hfits hf m
      (by simp only [List.length_append, List.length_cons] at hn ⊢; omega)
    rw [gather, Option.bind_eq_bind, hreach m (by omega)]
    simp only [Option.bind_some, if_pos hp, hrest]
    rfl
end

/-- **Climbing finds the tree that reads a whole list.** -/
theorem parse_of_reads (h : Reads none slots e none) : parse slots = some e := by
  have hend : Follows none [] := rfl
  have hreach := reaches_of_reads h fits_loosest hend
    (reaches_stop rfl fun q hq => by cases hq)
  rw [List.append_nil] at hreach
  rw [parse, hreach _ (Nat.le_refl _)]

/-! ## §4 Passes -/

/-- The operator that a list begins with, as an operand in front sees it. -/
abbrev headOp (slots : List Slot) : Option Op := (headOperator slots).map (·.op)

/-- **`Parses`** — the nodes of a list read the slots that they were made of. -/
inductive Parses : Option Op → List Slot → List Slot → Prop
  | nil {left : Option Op} : Parses left [] []
  | operator {left : Option Op} {o : Operator} {slots s : List Slot}
      (h : Parses (some o.op) slots s) : Parses left (.operator o :: slots) (.operator o :: s)
  | node {left : Option Op} {e : Expr} {slots s t : List Slot}
      (hreads : Reads left s e (headOp slots)) (h : Parses none slots t) :
      Parses left (.node e :: slots) (s ++ t)

theorem Parses.refl (left : Option Op) (slots : List Slot) : Parses left slots slots := by
  induction slots generalizing left with
  | nil => exact .nil
  | cons s slots ih =>
    cases s with
    | operator o => exact .operator (ih _)
    | node e => exact .node (s := [.node e]) (.operand e) (ih _)

/-- Where an operator has its turn, it does not matter what stands in front. -/
theorem Parses.change_left {s : List Slot} {t : Turn} (h : Parses left slots s)
    (hc : Complete t slots) (ht : t.wants = false) : Parses none slots s := by
  cases h with
  | nil => exact .nil
  | operator h => exact .operator h
  | node =>
    obtain ⟨u, hu, -⟩ := complete_cons.mp hc
    rw [(Turn.wants_of_node hu).1] at ht
    cases ht

theorem powerFrom_map (left : Option Operator) : powerFrom (left.map (·.op)) = reachFrom left := by
  cases left <;> rfl

theorem powerTo_map (right : Option Operator) : powerTo (right.map (·.op)) = reachTo right := by
  cases right <;> rfl

/-- Beside an operator that is not contested, an operand is drawn to the left by its power. -/
theorem lt_of_drawnLeft {back : List Slot} (ho : o.op.holdsContested = false)
    (h : DrawnLeft (some o) (headOperator back)) :
    (powerTo (headOp back)).high < o.op.rightPower.low := by
  rw [powerTo_map]
  rcases h with ⟨hc, -⟩ | hlt
  · rw [Op.holdsContested_of_isContested hc] at ho
    cases ho
  · exact hlt

theorem lt_of_drawnRight {front : List Slot} (h : DrawnRight (lastOperator front) (some o)) :
    (powerFrom ((lastOperator front).map (·.op))).high < o.op.leftPower.low := by
  rw [powerFrom_map]
  exact h

/-- The operands behind an operator of a run read the rest of the run. -/
theorem readsRun_of_parses {p o : Operator} {last : Expr} {links : List (Operator × Expr)}
    {back s : List Slot} (hp : p.op = o.op) (hsame : ∀ q ∈ links, q.1.op = o.op)
    (hright : (powerTo (headOp back)).high < o.op.rightPower.low)
    (hback : headOp back ≠ some o.op)
    (h : Parses (some p.op) (runSlots e links ++ .operator o :: .node last :: back) s) :
    ∃ u t, s = u ++ t ∧ ReadsRun p u o (e :: links.map Prod.snd ++ [last]) (headOp back) ∧
      Parses none back t := by
  induction links generalizing p e s with
  | nil =>
    cases h with
    | @node _ _ _ s₁ _ hfirst h =>
      cases h with
      | operator h =>
        cases h with
        | @node _ _ _ s₂ t hlast h =>
          refine ⟨s₁ ++ .operator o :: s₂, t, by simp, ?_, h⟩
          have hfirst : Reads (some p.op) s₁ e (some o.op) := hfirst
          rw [← hp] at hfirst
          exact .more hfirst hp.symm (.last hlast hright hback)
  | cons q links ih =>
    have hq : q.1.op = o.op := hsame q List.mem_cons_self
    cases h with
    | @node _ _ _ s₁ _ hfirst h =>
      cases h with
      | operator h =>
        obtain ⟨u, t, rfl, hrun, h⟩ := ih hq (fun r hr => hsame r (List.mem_cons_of_mem _ hr)) h
        refine ⟨s₁ ++ .operator q.1 :: u, t, by simp, ?_, h⟩
        have hfirst : Reads (some p.op) s₁ e (some q.1.op) := hfirst
        rw [hq, ← hp] at hfirst
        exact .more hfirst (hq.trans hp.symm) hrun

/-- **A stretch that is joined reads what its operands read.** -/
theorem parses_of_joins {front back seg s : List Slot} (h : Joins front back seg e)
    (hbare : ∀ o, .operator o ∈ seg → o.op.holdsContested = false)
    (hp : Parses ((lastOperator front).map (·.op)) (seg ++ back) s) :
    ∃ u t, s = u ++ t ∧ Reads ((lastOperator front).map (·.op)) u e (headOp back) ∧
      Parses ((lastOperator (front ++ seg)).map (·.op)) back t := by
  -- The nodes of the join are taken from the parse one by one, and the slots that they were read from are
  -- put together.
  cases h with
  | @binary o l r hbinary hflat hleft hright =>
    have hright := lt_of_drawnLeft (hbare o (by simp)) hright
    cases hp with
    | @node _ _ _ s₁ _ hl hp =>
      cases hp with
      | operator hp =>
        cases hp with
        | @node _ _ _ s₂ t hr hp =>
          refine ⟨s₁ ++ .operator o :: s₂, t, by simp, ?_, ?_⟩
          · exact .binary hbinary hflat hl hr (lt_of_drawnRight hleft) hright
          · simpa [lastOperator, Slot.operator?] using hp
  | @before o e hbefore hturn hright =>
    have hright := lt_of_drawnLeft (hbare o (by simp)) hright
    cases hp with
    | operator hp =>
      cases hp with
      | @node _ _ _ s₁ t he hp =>
        refine ⟨.operator o :: s₁, t, by simp, .before hbefore he hright, ?_⟩
        simpa [lastOperator, Slot.operator?] using hp
  | @after o e hafter hleft =>
    cases hp with
    | @node _ _ _ s₁ _ he hp =>
      cases hp with
      | @operator _ _ _ t hp =>
        refine ⟨s₁ ++ [.operator o], t, by simp, .after hafter he (lt_of_drawnRight hleft), ?_⟩
        simpa [lastOperator, Slot.operator?] using hp
  | @flat o first last links hflat hsame hleft hright hfront hback =>
    have hright := lt_of_drawnLeft (hbare o (by simp)) hright
    have hleft := lt_of_drawnRight hleft
    -- A run does not go on in front of the join, nor behind it.
    have hfront' : (lastOperator front).map (·.op) ≠ some o.op := by
      intro heq
      obtain ⟨p, hp, hpo⟩ := Option.map_eq_some_iff.mp heq
      exact hfront p hp hpo
    have hback' : headOp back ≠ some o.op := by
      intro heq
      obtain ⟨p, hp, hpo⟩ := Option.map_eq_some_iff.mp heq
      exact hback p hp hpo
    have hend : (lastOperator (front ++ (runSlots first links ++ [.operator o, .node last]))).map
        (·.op) = none := by
      simp [lastOperator, Slot.operator?]
    rw [List.append_assoc] at hp
    rw [hend]
    cases links with
    | nil =>
      cases hp with
      | @node _ _ _ s₁ _ hfirst hp =>
        cases hp with
        | operator hp =>
          cases hp with
          | @node _ _ _ s₂ t hlast hp =>
            refine ⟨s₁ ++ .operator o :: s₂, t, by simp, ?_, hp⟩
            exact .flat hflat hfront' hfirst hleft (.last hlast hright hback')
    | cons q links =>
      have hq : q.1.op = o.op := hsame q List.mem_cons_self
      cases hp with
      | @node _ _ _ s₁ _ hfirst hp =>
        cases hp with
        | operator hp =>
          obtain ⟨u, t, rfl, hrun, hp⟩ := readsRun_of_parses hq
            (fun r hr => hsame r (List.mem_cons_of_mem _ hr)) hright hback' hp
          refine ⟨s₁ ++ .operator q.1 :: u, t, by simp, ?_, hp⟩
          exact .flat (hq ▸ hflat) (hq ▸ hfront') hfirst (hq ▸ hleft) hrun

/-- No operator of a list holds a contested juxtaposition. -/
def Uncontested (slots : List Slot) : Prop :=
  ∀ o, .operator o ∈ slots → o.op.holdsContested = false

/-- **A pass keeps what the nodes of a list read.** -/
theorem Passes.parses {front slots' s : List Slot} {t : Turn} (h : Passes front slots slots')
    (ht : turnOf front = some t) (hc : Complete t slots) (hu : Uncontested slots)
    (hp : Parses ((lastOperator front).map (·.op)) slots s) :
    Parses ((lastOperator front).map (·.op)) slots' s := by
  induction h generalizing t s with
  | nil => exact hp
  | @keep front rest rest' slot h ih =>
    obtain ⟨u, hnext, hrest⟩ := complete_cons.mp hc
    have hturn : turnOf (front ++ [slot]) = some u := by
      rw [turnOf_concat, ht]
      exact hnext
    have ih := fun s => ih (s := s) hturn hrest fun o ho => hu o (List.mem_cons_of_mem _ ho)
    rw [lastOperator_concat] at ih
    cases hp with
    | operator hp => exact .operator (ih _ hp)
    | @node _ e _ s₁ s₂ he hp =>
      have hwants : u.wants = false := by
        obtain ⟨-, ⟨-, rfl⟩ | ⟨-, -, rfl⟩⟩ := Turn.wants_of_node hnext <;> rfl
      refine .node ?_ (ih _ hp)
      rw [headOp, h.headOperator_eq hturn hwants hrest]
      exact he
  | @join front seg rest rest' e hjoins h ih =>
    obtain ⟨u, hseg, hrest⟩ := complete_append.mp hc
    have hturn : turnOf (front ++ seg) = some u := by
      rw [turnOf_append, ht]
      exact hseg
    have hwants := (hjoins.turn ht hseg).2
    obtain ⟨s₁, s₂, rfl, he, hp⟩ := parses_of_joins hjoins
      (fun o ho => hu o (List.mem_append_left _ ho)) hp
    have hparses := ih hturn hrest (fun o ho => hu o (List.mem_append_right _ ho)) hp
    refine .node ?_ (hparses.change_left (h.complete hturn hrest) hwants)
    rw [headOp, h.headOperator_eq hturn hwants hrest]
    exact he

/-! ## §5 Runs -/

open Reading

/-- **`Joined`** — stretches are joined, pass after pass. -/
abbrev Joined : List Slot → List Slot → Prop := Relation.ReflTransGen (Passes [])

/-- **What a list that nothing contests is joined to is the tree that reads it.** -/
theorem reads_of_joined (hs : Shaped slots) (hu : Uncontested slots) (h : Joined slots [.node e]) :
    Reads none slots e none := by
  have hkeep : ∀ {next : List Slot}, Joined slots next →
      Shaped next ∧ Uncontested next ∧ Parses none next slots := by
    intro next h
    induction h with
    | refl => exact ⟨hs, hu, .refl none slots⟩
    | tail _ hpasses ih =>
      obtain ⟨hs, hu, hp⟩ := ih
      exact ⟨hpasses.complete rfl hs, fun o ho => hu o (hpasses.mem_of_operator ho),
        Passes.parses hpasses rfl hs hu hp⟩
  obtain ⟨-, -, hp⟩ := hkeep h
  cases hp with
  | node he hnil =>
    cases hnil
    rw [List.append_nil]
    exact he

theorem joined_of_runs {next : List Slot} (h : Runs slots next) : Joined slots next :=
  Relation.ReflTransGen.mono (fun _ _ hstep => Shortens.passes hstep) _ _ h

/-- A list that nothing contests is not forked. -/
theorem runs_of_leads {limit : Nat} {found : List Expr} (hu : Uncontested slots)
    (h : Leads limit slots found) : ∃ e, found = [e] ∧ Runs slots [.node e] := by
  cases h with
  | settled hruns => exact ⟨_, rfl, hruns⟩
  | merged hruns hcontested | apart hruns hcontested =>
    exfalso
    obtain ⟨o, ho, hc⟩ := survey_contested hcontested
    have hsettled := hu o (hruns.mem_of_operator (List.mem_of_getElem? ho))
    rw [Op.holdsContested_of_isContested hc] at hsettled
    cases hsettled

/-- **What reduction makes of a list that nothing contests is what climbing finds.** -/
theorem parse_of_reduce {limit : Nat} {span : Span} (hs : Shaped slots) (hu : Uncontested slots)
    (h : reduce limit span slots = .ok e) : parse slots = some e := by
  obtain ⟨found, hfound, h⟩ := bind_ok_iff.mp h
  obtain ⟨e', rfl, hruns⟩ := runs_of_leads hu (leads_of_readingsFor hfound)
  cases h
  exact parse_of_reads (reads_of_joined hs hu (joined_of_runs hruns))

end Climbing

/-! ## §6 Chains -/

namespace Expr

variable {config : ParseConfig} {chain : Chain} {t : Expr}

/-- **The expression of a chain is the one that precedence climbing finds**, where no juxtaposition
is contested and semicolons stand last. -/
theorem ofChain_eq_parse (hclosed : chain.IsClosed)
    (hcontested : ∀ o, .operator o ∈ chain → o.op.holdsContested = false)
    (h : ofChain config chain = .ok t) :
    ∃ slots, slotsOf config.maxReadings chain = .ok slots ∧ Climbing.parse slots = some t := by
  obtain ⟨span, slots, hspan, hslots, h⟩ := assemble_ok h
  refine ⟨slots, hslots, Climbing.parse_of_reduce (shaped_of_checkShape hslots hspan hclosed) ?_ h⟩
  exact fun o ho => hcontested o (mem_of_operator_slot (slotsOf_ok hslots) ho)

/-- The power is taken before the sign, and the comma joins what is left. -/
theorem ofChain_eq_parse_of_power_in_run :
    let a : Chain.Link := .operand (.atom (.identifier ['a'])) ⟨1, 2⟩
    let b : Chain.Link := .operand (.atom (.identifier ['b'])) ⟨3, 4⟩
    let c : Chain.Link := .operand (.atom (.identifier ['c'])) ⟨6, 7⟩
    let minus : Operator := ⟨.symbol .minus, ⟨0, 1⟩⟩
    let caret : Operator := ⟨.symbol .caret, ⟨2, 3⟩⟩
    let comma : Operator := ⟨.symbol .comma, ⟨4, 5⟩⟩
    ∃ slots, slotsOf 64 [.operator minus, a, .operator caret, b, .operator comma, c] = .ok slots ∧
      Climbing.parse slots = some
        (.flat comma
          [.before minus (.binary caret (.atom (.identifier ['a']) ⟨1, 2⟩)
              (.atom (.identifier ['b']) ⟨3, 4⟩) ⟨1, 4⟩) ⟨0, 4⟩,
            .atom (.identifier ['c']) ⟨6, 7⟩] ⟨0, 7⟩) := by
  intro a b c minus caret comma
  refine @ofChain_eq_parse ⟨64, default⟩ _ _ (Chain.isClosed_of_notMem ?_) ?_ (by rfl)
  · simp [a, b, c]
  · intro o ho
    simp only [a, b, c, List.mem_cons, Chain.Link.operator.injEq, reduceCtorEq, List.not_mem_nil,
      or_false, false_or] at ho
    rcases ho with rfl | rfl | rfl <;> rfl

end Expr

end DewyFront
