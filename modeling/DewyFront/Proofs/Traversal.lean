/-
# DewyFront.Proofs.Traversal — reduction loses nothing and keeps the order

Read from left to right, every tree that the expression of a chain stands for gives back the operands
and operators of the chain. Only juxtapositions come out with fewer meanings than they went in with,
since a fork settles one at a time.

* §1 reading a tree from left to right;
* §2 what becomes of a link;
* §3 passes;
* §4 forks and merging;
* §5 readings;
* §6 chains.
-/
import DewyFront.Proofs.Variants

namespace DewyFront

open Reduction Reading

/-! ## §1 Traversal -/

/-- **`Item`** — an operand or an operator, as it is met in a tree. -/
inductive Item where
  | operand (e : Expr)
  | operator (op : Op)
deriving DecidableEq

namespace Expr

mutual
/-- **`traverse`** — the operands and operators of a tree from left to right. The operator of a flat
run is met between any two of its operands. -/
def traverse : Expr → List Item
  | .binary o l r _ => traverse l ++ .operator o.op :: traverse r
  | .before o e _ => .operator o.op :: traverse e
  | .after o e _ => traverse e ++ [.operator o.op]
  | .flat o es _ => traverseRun o.op es
  | e => [.operand e]
/-- Expressions from left to right, with an operator between any two. -/
def traverseRun (op : Op) : List Expr → List Item
  | [] => []
  | [e] => traverse e
  | e :: f :: es => traverse e ++ .operator op :: traverseRun op (f :: es)
end

theorem traverse_of_isOperand {e : Expr} (h : e.IsOperand) : e.traverse = [.operand e] := by
  cases e <;> first | (simp only [traverse]; done) | cases h

end Expr

/-- What is met in a slot. -/
def Slot.traverse : Slot → List Item
  | .node e => e.traverse
  | .operator o => [.operator o.op]

/-- The item that a slot is, seen from outside. -/
def Slot.item : Slot → Item
  | .node e => .operand e
  | .operator o => .operator o.op

/-- What is met in a list of slots. -/
def traverseAll (slots : List Slot) : List Item := slots.flatMap Slot.traverse

@[simp] theorem traverseAll_nil : traverseAll [] = [] := rfl

@[simp] theorem traverseAll_cons (s : Slot) (slots : List Slot) :
    traverseAll (s :: slots) = s.traverse ++ traverseAll slots := by
  simp [traverseAll]

@[simp] theorem traverseAll_append (front back : List Slot) :
    traverseAll (front ++ back) = traverseAll front ++ traverseAll back := by
  simp [traverseAll]

theorem traverse_runSlots {o : Operator} {first last : Expr} {links : List (Operator × Expr)}
    (hsame : ∀ q ∈ links, q.1.op = o.op) :
    Expr.traverseRun o.op (first :: links.map Prod.snd ++ [last]) =
      traverseAll (runSlots first links ++ [.operator o, .node last]) := by
  induction links generalizing first with
  | nil => simp [Expr.traverseRun, runSlots, Slot.traverse]
  | cons q links ih =>
    have hrest : Expr.traverseRun o.op (q.2 :: links.map Prod.snd ++ [last]) = _ :=
      ih fun r hr => hsame r (List.mem_cons_of_mem _ hr)
    simp only [List.map_cons, List.cons_append, Expr.traverseRun] at hrest ⊢
    rw [hrest, ← hsame q List.mem_cons_self]
    simp [runSlots, Slot.traverse]

/-- What is met in a node is what is met in its parts. -/
theorem traverse_of_combines {seg : List Slot} {e : Expr} (h : Combines seg e) :
    e.traverse = traverseAll seg := by
  cases h with
  | binary | before | after => simp [Expr.traverse, Slot.traverse]
  | flat s hsame => rw [Expr.traverse, traverse_runSlots hsame]

/-! ## §2 Items -/

/-- **`Within`** — meanings are some of those of another juxtaposition, and at least one. -/
def Meanings.Within (n m : Meanings) : Prop :=
  (n.call = true → m.call = true) ∧ (n.index = true → m.index = true) ∧
    (n.multiply = true → m.multiply = true) ∧ (n.call || n.index || n.multiply) = true

/-- **`Narrows`** — what becomes of an item: a juxtaposition keeps some of its meanings, and
everything else stays as it is. -/
inductive Item.Narrows : Item → Item → Prop
  | operand (e : Expr) : Narrows (.operand e) (.operand e)
  | operator {op : Op} (h : ∀ m, op ≠ .juxtapose m) : Narrows (.operator op) (.operator op)
  | juxtapose {n m : Meanings} (h : n.Within m) :
      Narrows (.operator (.juxtapose n)) (.operator (.juxtapose m))

/-- Items become others, one by one. -/
abbrev NarrowsAll : List Item → List Item → Prop := List.Forall₂ Item.Narrows

theorem Meanings.Within.trans {a b c : Meanings} (hab : a.Within b) (hbc : b.Within c) :
    a.Within c :=
  ⟨fun h => hbc.1 (hab.1 h), fun h => hbc.2.1 (hab.2.1 h), fun h => hbc.2.2.1 (hab.2.2.1 h),
    hab.2.2.2⟩

theorem Item.Narrows.trans {a b c : Item} (hab : a.Narrows b) (hbc : b.Narrows c) : a.Narrows c := by
  cases hab with
  | operand e => exact hbc
  | operator h =>
    cases hbc with
    | operator => exact .operator h
    | juxtapose => exact absurd rfl (h _)
  | juxtapose h =>
    cases hbc with
    | operator h' => exact absurd rfl (h' _)
    | juxtapose h' => exact .juxtapose (h.trans h')

theorem NarrowsAll.trans {as bs cs : List Item} (hab : NarrowsAll as bs) (hbc : NarrowsAll bs cs) :
    NarrowsAll as cs := by
  induction hab generalizing cs with
  | nil => exact hbc
  | cons h _ ih =>
    cases hbc with
    | cons h' hbc => exact .cons (h.trans h') (ih hbc)

theorem Item.Narrows.self {a b : Item} (h : a.Narrows b) : a.Narrows a := by
  cases h with
  | operand e => exact .operand e
  | operator h => exact .operator h
  | juxtapose h => exact .juxtapose ⟨id, id, id, h.2.2.2⟩

/-- Items that others became are among what those can become. -/
theorem NarrowsAll.self {as bs : List Item} (h : NarrowsAll as bs) : ∀ a ∈ as, a.Narrows a := by
  induction h with
  | nil =>
    intro a ha
    cases ha
  | cons h _ ih =>
    intro a ha
    rcases List.mem_cons.mp ha with rfl | ha
    · exact h.self
    · exact ih a ha

theorem within_of_mem_readings {m : Meanings} {r : Nat × Meanings}
    (h : r ∈ Precedence.readings m) : r.2.Within m := by
  obtain ⟨call, index, multiply⟩ := m
  simp only [Precedence.readings, List.mem_append] at h
  rcases h with h | h <;> split at h <;>
    simp only [List.mem_cons, List.not_mem_nil, or_false] at h <;> subst h
  · rename_i hu
    simpa [Meanings.Within, Meanings.upper, Meanings.hasUpper] using hu
  · rename_i hl
    simpa [Meanings.Within, Meanings.lower, Meanings.hasLower] using hl

/-! ## §3 Passes -/

variable {front back slots slots' copy merged : List Slot} {items : List Item}

/-- **What is met in a list after a pass was met before it**, whichever candidates are picked. -/
theorem unpick_of_passes {f : Op → List Op} {V' : List Slot} (h : Passes front slots slots')
    (hv : VariesAll f slots' V') : ∃ V, VariesAll f slots V ∧ traverseAll V = traverseAll V' := by
  induction h generalizing V' with
  | nil =>
    cases hv
    exact ⟨[], .nil, rfl⟩
  | keep _ ih =>
    cases hv with
    | cons hs hv =>
      obtain ⟨V, hV, heq⟩ := ih hv
      exact ⟨_ :: V, .cons hs hV, by rw [traverseAll_cons, traverseAll_cons, heq]⟩
  | join hjoins _ ih =>
    cases hv with
    | cons hs hv =>
      cases hs with
      | node he =>
        obtain ⟨V, hV, heq⟩ := ih hv
        obtain ⟨seg', hseg, hcombines, -⟩ := hjoins.combines.split he
        refine ⟨seg' ++ V, hseg.append hV, ?_⟩
        rw [traverseAll_append, traverseAll_cons, heq, ← traverse_of_combines hcombines]
        rfl

/-- The operators of a list as they are. -/
def itself (op : Op) : List Op := [op]

/-- **`Keeps`** — whichever candidates are picked in a list, the items are met in it; and there are
candidates. -/
structure Keeps (items : List Item) (slots : List Slot) : Prop where
  narrows : ∀ {V}, VariesAll itself slots V → NarrowsAll (traverseAll V) items
  picks : ∀ {e}, .node e ∈ slots → e.picks ≠ []

theorem Keeps.passes (hk : Keeps items slots) (h : Passes front slots slots') :
    Keeps items slots' := by
  constructor
  · intro V' hv
    obtain ⟨V, hV, heq⟩ := unpick_of_passes h hv
    rw [← heq]
    exact hk.narrows hV
  · exact fun he => Passes.varied (fun _ => List.cons_ne_nil _ _) h (fun _ => hk.picks) _ he

theorem Keeps.runs (hk : Keeps items slots) (h : Runs slots slots') : Keeps items slots' :=
  h.keep (fun ha hstep => ha.passes hstep.passes) hk

/-! ## §4 Forks -/

/-- A copy of a fork keeps the items, with fewer meanings for one of them. -/
theorem Keeps.fork {place : Nat} {f : Fork} (hk : Keeps items slots)
    (hs : survey slots = .ok (.contested place)) (h : fork slots place = .ok f)
    (hcopy : copy ∈ f.copies) : Keeps items copy := by
  obtain ⟨front, back, m, rfl, -, hcopies⟩ := fork_of_contested hs h
  rw [hcopies] at hcopy
  obtain ⟨r, hr, rfl⟩ := List.mem_map.mp hcopy
  constructor
  · intro V hv
    obtain ⟨front', rest, rfl, hfront, hrest⟩ := exists_append_of_forall₂ hv
    cases hrest with
    | cons hop hback =>
      cases hop with
      | operator hp =>
        rw [List.mem_singleton.mp hp]
        have hall := hk.narrows (VariesAll.append hfront (.cons
          (.operator (o := ⟨.juxtapose m, f.site⟩) (List.mem_singleton_self _)) hback))
        refine NarrowsAll.trans ?_ hall
        have hself := hall.self
        simp only [traverseAll_append, traverseAll_cons, List.mem_append] at hself ⊢
        refine List.rel_append (List.forall₂_same.mpr fun a ha => hself a (.inl ha))
          (List.rel_append (.cons (.juxtapose (within_of_mem_readings hr)) .nil)
            (List.forall₂_same.mpr fun a ha => hself a (.inr (.inr ha))))
  · intro e he
    refine hk.picks ?_
    simpa using he

theorem Keeps.merge {limit : Nat} {site : Span} {copies : List (List Slot)}
    (hk : ∀ copy ∈ copies, Keeps items copy)
    (h : merge limit site copies = .ok (some merged)) : Keeps items merged := by
  constructor
  · intro V hv
    obtain ⟨copy, hcopy, hv⟩ := (variesAll_of_merge h).mp hv
    exact (hk copy hcopy).narrows hv
  · exact fun he => varied_of_merge (fun copy hcopy _ => (hk copy hcopy).picks) h _ he

theorem copies_ne_nil {place : Nat} {f : Fork}
    (hs : survey slots = .ok (.contested place)) (h : fork slots place = .ok f) :
    f.copies ≠ [] := by
  obtain ⟨front, back, m, -, hreadings, hcopies⟩ := fork_of_contested hs h
  simp [hcopies, hreadings]

/-! ## §5 Readings -/

/-- **Every reading of a list has its items**, whichever candidates are picked. -/
theorem keeps_of_leads {limit : Nat} {found : List Expr} (hk : Keeps items slots)
    (h : Leads limit slots found) :
    found ≠ [] ∧ ∀ e ∈ found, e.picks ≠ [] ∧ ∀ p ∈ e.picks, NarrowsAll p.traverse items := by
  induction h with
  | settled hruns =>
    refine ⟨by simp, fun e he => ?_⟩
    cases List.mem_singleton.mp he
    have hend := hk.runs hruns
    refine ⟨hend.picks (List.mem_singleton_self _), fun p hp => ?_⟩
    simpa [Slot.traverse] using hend.narrows (.cons (.node hp) .nil)
  | merged hruns hcontested hfork hcopies hmerge _ ih =>
    refine ih (Keeps.merge (fun copy hcopy => ?_) hmerge)
    obtain ⟨origin, horigin, hrun⟩ := exists_of_mem_right hcopies hcopy
    exact ((hk.runs hruns).fork hcontested hfork horigin).runs hrun
  | @apart _ _ _ _ results _ hruns hcontested hfork hcopies hfound _ ih =>
    have hread : ∀ r ∈ results, Keeps items r.1 := by
      intro r hr
      obtain ⟨origin, horigin, hrun⟩ := exists_of_mem_right hcopies (List.mem_map_of_mem hr)
      exact ((hk.runs hruns).fork hcontested hfork horigin).runs hrun
    constructor
    · obtain ⟨copy, hcopy⟩ := List.exists_mem_of_ne_nil _ (copies_ne_nil hcontested hfork)
      obtain ⟨last, hlast, -⟩ := exists_of_mem_right hcopies.flip hcopy
      obtain ⟨r, hr, -⟩ := List.mem_map.mp hlast
      obtain ⟨e, he⟩ := List.exists_mem_of_ne_nil _ (ih r hr (hread r hr)).1
      exact List.ne_nil_of_mem ((hfound e).mpr ⟨r, hr, he⟩)
    · intro e he
      obtain ⟨r, hr, he⟩ := (hfound e).mp he
      exact (ih r hr (hread r hr)).2 e he

/-! ## §6 Chains -/

/-- An operator that sits in a row may stay as it is. -/
theorem Item.narrows_of_levels_ne_nil {op : Op} (h : op.levels ≠ []) :
    Item.Narrows (.operator op) (.operator op) := by
  cases op with
  | juxtapose m =>
    obtain ⟨r, hr⟩ := List.exists_mem_of_ne_nil (Precedence.readings m) (by simpa [Op.levels] using h)
    obtain ⟨hcall, hindex, hmultiply, hsome⟩ := within_of_mem_readings hr
    refine .juxtapose ⟨id, id, id, ?_⟩
    simp only [Bool.or_eq_true] at hsome ⊢
    rcases hsome with (h | h) | h
    · exact .inl (.inl (hcall h))
    · exact .inl (.inr (hindex h))
    · exact .inr (hmultiply h)
  | _ => exact .operator (by simp)

/-- An operator that may stand somewhere sits in a row. -/
theorem levels_ne_nil_of_wantsBehind {wanting w : Bool} {op : Op}
    (h : Chain.wantsBehind wanting op = some w) : op.levels ≠ [] := by
  intro hnil
  cases wanting with
  | true => simp [Chain.wantsBehind, Op.isBefore, hnil] at h
  | false => simp [Chain.wantsBehind, Op.isBinary, Op.isAfter, hnil] at h

theorem levels_ne_nil_of_checkFrom {wanting : Bool} {last : Option Operator} {chain : Chain}
    (h : Chain.checkFrom wanting last chain = .ok ()) :
    ∀ o, .operator o ∈ chain → o.op.levels ≠ [] := by
  induction chain generalizing wanting last with
  | nil => simp
  | cons link chain ih =>
    intro o ho
    cases link with
    | operand content span =>
      obtain ⟨-, hrest⟩ := Chain.checkFrom_operand_iff.mp h
      exact ih hrest o (by simpa using ho)
    | operator p =>
      obtain ⟨w, hw, hrest⟩ := Chain.checkFrom_operator_iff.mp h
      rcases List.mem_cons.mp ho with heq | ho
      · cases heq
        exact levels_ne_nil_of_wantsBehind hw
      · exact ih hrest o ho

theorem levels_ne_nil_of_checkShape {span : Span} {chain : Chain}
    (h : Chain.checkShape chain = .ok span) : ∀ o, .operator o ∈ chain → o.op.levels ≠ [] := by
  unfold Chain.checkShape at h
  split at h
  · cases h
  · obtain ⟨⟨⟩, hcheck, -⟩ := bind_ok_iff.mp h
    exact levels_ne_nil_of_checkFrom hcheck

/-- The operands of a chain are met as they are. -/
theorem keeps_of_lowersTo {limit : Nat} {chain : Chain}
    (h : List.Forall₂ (Expr.LowersTo limit) chain slots)
    (hlevels : ∀ o, .operator o ∈ chain → o.op.levels ≠ []) :
    Keeps (slots.map Slot.item) slots := by
  constructor
  · intro V hv
    induction h generalizing V with
    | nil =>
      cases hv
      exact .nil
    | cons hlink _ ih =>
      cases hv with
      | cons hs hv =>
        have hrest := ih (fun o ho => hlevels o (List.mem_cons_of_mem _ ho)) hv
        rw [traverseAll_cons, List.map_cons]
        cases hs with
        | operator hp =>
          cases hlink
          rw [List.mem_singleton.mp hp]
          exact .cons (Item.narrows_of_levels_ne_nil (hlevels _ List.mem_cons_self)) hrest
        | node he =>
          cases hlink with
          | operand hoperand =>
            have hoperand := Expr.isOperand_of_ofOperand hoperand
            rw [Expr.variants_of_isOperand hoperand] at he
            rw [List.mem_singleton.mp he, Slot.traverse, Expr.traverse_of_isOperand hoperand]
            exact .cons (.operand _) hrest
  · intro e he
    obtain ⟨link, -, hlink⟩ := exists_of_mem_right h he
    cases hlink with
    | operand hoperand =>
      simp [Expr.picks, Expr.variants_of_isOperand (Expr.isOperand_of_ofOperand hoperand)]

namespace Expr

variable {config : ParseConfig} {chain : Chain} {t : Expr}

/-- **The expression of a chain has the operands and the operators of the chain in their order**,
whichever candidates are picked for its ambiguous nodes; and there are candidates. -/
theorem traverse_picks_of_ofChain (h : ofChain config chain = .ok t) :
    ∃ slots, slotsOf config.maxReadings chain = .ok slots ∧ t.picks ≠ [] ∧
      ∀ p ∈ t.picks, NarrowsAll p.traverse (slots.map Slot.item) := by
  obtain ⟨span, slots, hspan, hslots, h⟩ := assemble_ok h
  have hkeeps := keeps_of_lowersTo (slotsOf_ok hslots) (levels_ne_nil_of_checkShape hspan)
  obtain ⟨found, hfound, hpicks⟩ := variants_of_reduce h
  obtain ⟨hne, hall⟩ := keeps_of_leads hkeeps hfound
  refine ⟨slots, hslots, ?_, fun p hp => ?_⟩
  · obtain ⟨e, he⟩ := List.exists_mem_of_ne_nil _ hne
    obtain ⟨p, hp⟩ := List.exists_mem_of_ne_nil _ (hall e he).1
    exact List.ne_nil_of_mem ((hpicks p).mpr ⟨e, he, hp⟩)
  · obtain ⟨e, he, hp⟩ := (hpicks p).mp hp
    exact (hall e he).2 p hp

/-- A call that is raised to a power, or a product with a power, has its five items in order. -/
theorem traverse_picks_of_call_or_power :
    let a : Expr := .atom (.identifier ['a']) ⟨0, 1⟩
    let b : Expr := .atom (.identifier ['b']) ⟨2, 3⟩
    let c : Expr := .atom (.identifier ['c']) ⟨4, 5⟩
    let jux (m : Meanings) : Operator := ⟨.juxtapose m, ⟨1, 2⟩⟩
    let caret : Operator := ⟨.symbol .caret, ⟨3, 4⟩⟩
    let t : Expr := .ambiguous
      [.binary caret (.binary (jux ⟨true, true, false⟩) a b ⟨0, 3⟩) c ⟨0, 5⟩,
        .binary (jux ⟨false, false, true⟩) a (.binary caret b c ⟨2, 5⟩) ⟨0, 5⟩] ⟨0, 5⟩
    ∃ slots, slotsOf 64 [.operand (.atom (.identifier ['a'])) ⟨0, 1⟩, .operator (jux ⟨true, true, true⟩),
        .operand (.atom (.identifier ['b'])) ⟨2, 3⟩, .operator caret,
        .operand (.atom (.identifier ['c'])) ⟨4, 5⟩] = .ok slots ∧
      t.picks ≠ [] ∧ ∀ p ∈ t.picks, NarrowsAll p.traverse (slots.map Slot.item) := by
  intro a b c jux caret t
  exact @traverse_picks_of_ofChain ⟨64, default⟩ _ _ (by decide +kernel)

end Expr

end DewyFront
