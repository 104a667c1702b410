/-
# DewyFront.Proofs.Choices — the readings of a chain, one for each choice of meanings

A chain with contested juxtapositions stands for several chains that are not contested, one for each
way of settling its juxtapositions. The expression of the chain stands for the expressions of those
chains, for all of them and for nothing else.

* §1 settled chains;
* §2 settling keeps the shape and the operands of a chain;
* §3 the slots of a chain are tidy;
* §4 expressions of settled chains;
* §5 chains of a source.
-/
import DewyFront.Proofs.Enumeration
import DewyFront.Proofs.Totality

namespace DewyFront

namespace Chain

/-! ## §1 Settled chains -/

/-- **`narrowings`** — the chains with every contested juxtaposition settled on one of its levels. -/
def narrowings : Chain → List Chain
  | [] => [[]]
  | .operator o :: rest =>
    o.op.narrowings.flatMap fun p => (narrowings rest).map (.operator ⟨p, o.span⟩ :: ·)
  | .operand content span :: rest => (narrowings rest).map (.operand content span :: ·)

/-- **`Narrows`** — a link with its juxtaposition settled. -/
inductive Link.Narrows : Link → Link → Prop
  | operator {o : Operator} {p : Op} (h : p ∈ o.op.narrowings) :
      Narrows (.operator o) (.operator ⟨p, o.span⟩)
  | operand (content : Operand) (span : Span) :
      Narrows (.operand content span) (.operand content span)

/-- **`IsSpaced`** — no operand stands directly between two contested juxtapositions. -/
def IsSpaced (chain : Chain) : Prop :=
  ∀ front o content span p back,
    chain = front ++ .operator o :: .operand content span :: .operator p :: back →
      o.op.isContested = true → p.op.isContested = false

/-- The operators of a chain, in order. -/
def operators : Chain → List Operator
  | [] => []
  | .operator o :: rest => o :: operators rest
  | .operand .. :: rest => operators rest

/-- No operator of a chain is forbidden to stand directly inside itself. -/
def NoneAlone (chain : Chain) : Prop :=
  ∀ o ∈ chain.operators, ∀ level ∈ o.op.levels, level.assoc ≠ .alone

instance (chain : Chain) : Decidable chain.NoneAlone :=
  inferInstanceAs (Decidable (∀ o ∈ chain.operators, ∀ level ∈ o.op.levels, level.assoc ≠ .alone))

variable {chain narrowed : Chain}

theorem mem_operators {o : Operator} : o ∈ chain.operators ↔ .operator o ∈ chain := by
  induction chain with
  | nil => simp [operators]
  | cons link rest ih => cases link <;> simp [operators, ih]

theorem operators_append (front back : Chain) :
    operators (front ++ back) = operators front ++ operators back := by
  induction front with
  | nil => rfl
  | cons link front ih => cases link <;> simp [operators, ih]

/-- A single contested juxtaposition has no other beside its operands. -/
theorem isSpaced_of_countP_le (h : chain.operators.countP (·.op.isContested) ≤ 1) :
    chain.IsSpaced := by
  rintro front o content span p back rfl ho
  rw [operators_append, operators, operators, operators, List.countP_append,
    List.countP_cons_of_pos (by exact ho)] at h
  by_contra hp
  rw [List.countP_cons_of_pos (by simpa using hp)] at h
  omega

theorem mem_narrowings : narrowed ∈ chain.narrowings ↔ List.Forall₂ Link.Narrows chain narrowed := by
  induction chain generalizing narrowed with
  | nil => simp [narrowings]
  | cons link rest ih =>
    cases link with
    | operator o =>
      simp only [narrowings, List.mem_flatMap, List.mem_map]
      constructor
      · rintro ⟨p, hp, tail, htail, rfl⟩
        exact .cons (.operator hp) (ih.mp htail)
      · intro h
        cases h with
        | cons hlink htail =>
          cases hlink with
          | operator hp => exact ⟨_, hp, _, ih.mpr htail, rfl⟩
    | operand content span =>
      simp only [narrowings, List.mem_map]
      constructor
      · rintro ⟨tail, htail, rfl⟩
        exact .cons (.operand content span) (ih.mp htail)
      · intro h
        cases h with
        | cons hlink htail =>
          cases hlink with
          | operand => exact ⟨_, ih.mpr htail, rfl⟩

/-! ## §2 Shape -/

theorem Link.Narrows.span_eq {link link' : Link} (h : link.Narrows link') :
    link'.span = link.span := by
  cases h <;> rfl

/-- A settled chain stands where the chain stands. -/
theorem span?_of_narrows (h : List.Forall₂ Link.Narrows chain narrowed) :
    narrowed.span? = chain.span? := by
  have hhead : Option.Rel Link.Narrows chain.head? narrowed.head? :=
    Reduction.head?_rel h
  have hlast : Option.Rel Link.Narrows chain.getLast? narrowed.getLast? := by
    rw [← List.head?_reverse, ← List.head?_reverse]
    exact Reduction.head?_rel (List.rel_reverse h)
  unfold span?
  generalize chain.head? = first, narrowed.head? = first' at hhead
  generalize chain.getLast? = last, narrowed.getLast? = last' at hlast
  cases hhead with
  | none => rfl
  | some hfirst =>
    cases hlast with
    | none => rfl
    | some hlast =>
      show some _ = some _
      rw [hfirst.span_eq, hlast.span_eq]

/-- **Settling a chain leaves its shape right.** -/
theorem checkFrom_of_narrows (h : List.Forall₂ Link.Narrows chain narrowed) {wanting : Bool}
    {last last' : Option Operator} (hlast : last = none → last' = none)
    (hcheck : checkFrom wanting last chain = .ok ()) :
    checkFrom wanting last' narrowed = .ok () := by
  induction h generalizing wanting last last' with
  | nil =>
    cases wanting with
    | false => rfl
    | true =>
      cases last with
      | none =>
        rw [hlast rfl]
        rfl
      | some o => cases hcheck
  | cons hlink _ ih =>
    cases hlink with
    | operand content span =>
      obtain ⟨hwants, hrest⟩ := checkFrom_operand_iff.mp hcheck
      exact checkFrom_operand_iff.mpr ⟨hwants, ih hlast hrest⟩
    | @operator o p hp =>
      -- which way an operator goes is asked of its forms, and settling keeps those
      obtain ⟨hbinary, hbefore, hafter, -⟩ := Op.forms_of_mem_narrowings hp
      have hsame : wantsBehind wanting p = wantsBehind wanting o.op := by
        simp only [wantsBehind, hbinary, hbefore, hafter]
      obtain ⟨w, hw, hrest⟩ := checkFrom_operator_iff.mp hcheck
      exact checkFrom_operator_iff.mpr ⟨w, hsame.trans hw, ih (fun h => by cases h) hrest⟩

theorem checkShape_of_narrows {span : Span} (h : List.Forall₂ Link.Narrows chain narrowed)
    (hcheck : checkShape chain = .ok span) : checkShape narrowed = .ok span := by
  unfold checkShape at hcheck ⊢
  rw [span?_of_narrows h]
  split at hcheck
  · cases hcheck
  · obtain ⟨⟨⟩, hfrom, hspan⟩ := bind_ok_iff.mp hcheck
    exact bind_ok_iff.mpr ⟨(), checkFrom_of_narrows h id hfrom, hspan⟩

end Chain

namespace Expr

open Reduction Reading Climbing

variable {limit : Nat} {chain narrowed : Chain} {slots slots' : List Slot}

theorem slotsOf_of_lowersTo (h : List.Forall₂ (LowersTo limit) chain slots) :
    slotsOf limit chain = .ok slots := by
  induction h with
  | nil => rw [slotsOf]
  | cons hlink _ ih =>
    cases hlink with
    | operator o =>
      rw [slotsOf]
      exact bind_ok_iff.mpr ⟨_, ih, rfl⟩
    | operand hcontent =>
      rw [slotsOf]
      exact bind_ok_iff.mpr ⟨_, hcontent, bind_ok_iff.mpr ⟨_, ih, rfl⟩⟩

/-- An operand stands for itself and for nothing else. -/
theorem eq_of_varies_operand {content : Chain.Operand} {span : Span} {e e' : Expr}
    (he : ofOperand limit span content = .ok e) (hv : e' ∈ e.variants Op.narrowings) : e' = e := by
  rw [variants_of_isOperand (isOperand_of_ofOperand he)] at hv
  exact List.mem_singleton.mp hv

/-- **The slots of a settled chain are settled slots of the chain.** -/
theorem exists_slots_of_narrows (h : List.Forall₂ Chain.Link.Narrows chain narrowed)
    (hslots : List.Forall₂ (LowersTo limit) chain slots) :
    ∃ slots', List.Forall₂ (LowersTo limit) narrowed slots' ∧
      VariesAll Op.narrowings slots slots' := by
  induction h generalizing slots with
  | nil =>
    cases hslots
    exact ⟨[], .nil, .nil⟩
  | cons hlink _ ih =>
    cases hslots with
    | cons hslot hslots =>
      obtain ⟨rest, hrest, hvaries⟩ := ih hslots
      cases hlink with
      | operator hp =>
        cases hslot
        exact ⟨_, .cons (.operator _) hrest, .cons (.operator hp) hvaries⟩
      | operand =>
        cases hslot with
        | @operand _ _ e he =>
          have hself : e ∈ e.variants Op.narrowings := by
            rw [variants_of_isOperand (isOperand_of_ofOperand he)]
            exact List.mem_singleton_self e
          exact ⟨_, .cons (.operand he) hrest, .cons (.node hself) hvaries⟩

/-- **Settled slots of a chain are the slots of a settled chain.** -/
theorem exists_narrows_of_varies (hslots : List.Forall₂ (LowersTo limit) chain slots)
    (hv : VariesAll Op.narrowings slots slots') :
    ∃ narrowed, List.Forall₂ Chain.Link.Narrows chain narrowed ∧
      List.Forall₂ (LowersTo limit) narrowed slots' := by
  induction hslots generalizing slots' with
  | nil =>
    cases hv
    exact ⟨[], .nil, .nil⟩
  | cons hlink _ ih =>
    cases hv with
    | cons hslot hv =>
      obtain ⟨rest, hnarrows, hlowers⟩ := ih hv
      cases hlink with
      | operator o =>
        cases hslot with
        | operator hp => exact ⟨_, .cons (.operator hp) hnarrows, .cons (.operator _) hlowers⟩
      | operand he =>
        cases hslot with
        | node hvariant =>
          rw [eq_of_varies_operand he hvariant]
          exact ⟨_, .cons (.operand _ _) hnarrows, .cons (.operand he) hlowers⟩

/-! ## §3 Slots -/

/-- A contested juxtaposition stays in front of an operand that none stands behind. -/
theorem spaced_of_lowersTo (h : List.Forall₂ (LowersTo limit) chain slots)
    (htight : chain.IsTight) (hspaced : chain.IsSpaced) : Spaced slots := by
  induction h with
  | nil => trivial
  | @cons link s rest slots hlink hrest ih =>
    have htail : Spaced slots := by
      apply ih
      · intro front o back heq hc
        exact htight (link :: front) o back (by rw [heq]; rfl) hc
      · intro front o content span p back heq hc
        exact hspaced (link :: front) o content span p back (by rw [heq]; rfl) hc
    cases hlink with
    | operand => exact htail
    | operator o =>
      refine ⟨fun hc => ?_, htail⟩
      obtain ⟨content, span, more, rfl⟩ := htight [] o rest rfl hc
      cases hrest with
      | @cons _ _ _ moreSlots hslot hmore =>
        cases hslot with
        | @operand _ _ e he =>
          refine ⟨e, moreSlots, rfl, ?_⟩
          cases hmore with
          | nil => rfl
          | cons hnext =>
            cases hnext with
            | operand => rfl
            | operator p =>
              have hp := hspaced [] o content span p _ rfl hc
              simpa [headOperator, isContested, Slot.operator?] using hp

/-- **The slots of a chain are tidy**, if the chain is as grouping makes it, nothing stands between
two contested juxtapositions, and every operator may stand in itself. -/
theorem tidy_of_checkShape {span : Span} (hslots : slotsOf limit chain = .ok slots)
    (hcheck : chain.checkShape = .ok span) (hg : chain.IsGrouped) (hspaced : chain.IsSpaced)
    (halone : chain.NoneAlone) : Tidy slots where
  shaped := shaped_of_checkShape hslots hcheck hg.closed
  bare o ho := hg.bare o (mem_of_operator_slot (slotsOf_ok hslots) ho)
  spaced := spaced_of_lowersTo (slotsOf_ok hslots) hg.tight hspaced
  formed e he := by
    obtain ⟨link, -, hlink⟩ := exists_of_mem_right (slotsOf_ok hslots) he
    cases hlink with
    | operand hcontent => exact formed_of_isOperand (isOperand_of_ofOperand hcontent)
  noneAlone o ho := by
    intro level hlevel
    have hmem := Chain.mem_operators.mpr (mem_of_operator_slot (slotsOf_ok hslots) ho)
    exact halone o hmem level hlevel

/-! ## §4 Expressions -/

/-- **The expression of a list that nothing contests is what its run ends with.** -/
theorem reduce_iff_runs {span : Span} {v : Expr} (hu : Uncontested slots) :
    reduce limit span slots = .ok v ↔ Runs slots [.node v] := by
  constructor
  · intro h
    obtain ⟨found, hfound, h⟩ := bind_ok_iff.mp h
    obtain ⟨e, rfl, hruns⟩ := runs_of_leads hu (leads_of_readingsFor hfound)
    cases h
    exact hruns
  · intro h
    have hread : readings limit slots = .ok [v] := by
      refine bind_ok_iff.mpr ⟨_, run_of_runs h (ends_node v), ?_⟩
      rfl
    exact bind_ok_iff.mpr ⟨_, hread, rfl⟩

variable {config : ParseConfig} {t v : Expr}

/-- The expression of a chain is that of its slots, if its shape is right and its operands have
expressions. -/
theorem ofChain_eq_reduce {span : Span} (hshape : chain.checkShape = .ok span)
    (hslots : slotsOf config.maxReadings chain = .ok slots) :
    ofChain config chain = reduce config.maxReadings span slots := by
  simp only [ofChain, assemble, hshape, hslots, bind, Except.bind]

/-- **What the expression of a chain stands for is what the settled chains are reduced to.** Every
settled chain has an expression. -/
theorem mem_variants_iff_of_isGrouped (hg : chain.IsGrouped) (hspaced : chain.IsSpaced)
    (halone : chain.NoneAlone) (h : ofChain config chain = .ok t) :
    (∀ narrowed ∈ chain.narrowings, ∃ v, ofChain config narrowed = .ok v) ∧
      ∀ v, v ∈ t.variants Op.narrowings ↔
        ∃ narrowed ∈ chain.narrowings, ofChain config narrowed = .ok v := by
  obtain ⟨span, slots, hspan, hslots, hreduce⟩ := assemble_ok h
  have htidy := tidy_of_checkShape hslots hspan hg hspaced halone
  obtain ⟨found, hleads, hvariants⟩ := variants_of_reduce hreduce
  -- on settled slots, the expression of the chain is what its run ends with
  have hiff : ∀ {narrowed : Chain} {slots' : List Slot} {v : Expr},
      List.Forall₂ Chain.Link.Narrows chain narrowed →
      List.Forall₂ (LowersTo config.maxReadings) narrowed slots' →
      VariesAll Op.narrowings slots slots' →
      (ofChain config narrowed = .ok v ↔ Runs slots' [.node v]) := by
    intro narrowed slots' v hnarrows hlowers hvaries
    have hspan' := Chain.checkShape_of_narrows hnarrows hspan
    have hslots' := slotsOf_of_lowersTo hlowers
    rw [ofChain_eq_reduce hspan' hslots']
    exact reduce_iff_runs (htidy.uncontested_of_varies hvaries)
  constructor
  · intro narrowed hmem
    have hnarrows := Chain.mem_narrowings.mp hmem
    obtain ⟨slots', hlowers, hvaries⟩ := exists_slots_of_narrows hnarrows (slotsOf_ok hslots)
    obtain ⟨v, hruns, -⟩ := exists_of_leads hleads htidy hvaries
    exact ⟨v, (hiff hnarrows hlowers hvaries).mpr hruns⟩
  · intro v
    rw [hvariants, mem_variants_iff_of_leads hleads htidy]
    constructor
    · rintro ⟨slots', hvaries, hruns⟩
      obtain ⟨narrowed, hnarrows, hlowers⟩ := exists_narrows_of_varies (slotsOf_ok hslots) hvaries
      exact ⟨narrowed, Chain.mem_narrowings.mpr hnarrows,
        (hiff hnarrows hlowers hvaries).mpr hruns⟩
    · rintro ⟨narrowed, hmem, hchain⟩
      have hnarrows := Chain.mem_narrowings.mp hmem
      obtain ⟨slots', hlowers, hvaries⟩ := exists_slots_of_narrows hnarrows (slotsOf_ok hslots)
      exact ⟨slots', hvaries, (hiff hnarrows hlowers hvaries).mp hchain⟩

end Expr

/-! ## §5 Chains of a source -/

/-- **Forking finds the readings of a chain.** Picking candidates in the expression of a chain of a
source, and settling what is left of its juxtapositions, gives the expressions of the chains that it
can be settled to, and all of these have one. -/
theorem Lexed.variants_eq_readings {lexer : LexerConfig} {s : Source} {l : Lexed}
    {chains : List Chain} {chain : Chain} {config : ParseConfig} {t : Expr}
    (hl : s.lex lexer = .ok l) (hchains : l.chains = .ok chains) (hmem : chain ∈ chains)
    (halone : chain.NoneAlone) (hspaced : chain.IsSpaced)
    (h : Expr.ofChain config chain = .ok t) :
    (∀ narrowed ∈ chain.narrowings, ∃ v, Expr.ofChain config narrowed = .ok v) ∧
      ∀ v, v ∈ t.variants Op.narrowings ↔
        ∃ narrowed ∈ chain.narrowings, Expr.ofChain config narrowed = .ok v := by
  have hsound := Lexed.chains_sound hl hchains _ hmem
  exact Expr.mem_variants_iff_of_isGrouped hsound.1 hspaced halone h

/-- A source with one chain, of which `f` is computed. -/
theorem Lexed.exists_only_chain {α : Type} {s : Source} {f : Chain → α} {a : α}
    (h : ((s.lex default).toOption.bind fun l => l.chains.toOption).map (List.map f) = some [a]) :
    ∃ l chain, s.lex default = .ok l ∧ l.chains = .ok [chain] ∧ f chain = a := by
  obtain ⟨chains, hchains, hmap⟩ := Option.map_eq_some_iff.mp h
  obtain ⟨l, hl, hchains⟩ := Option.bind_eq_some_iff.mp hchains
  obtain ⟨chain, rest, rfl, hchain, hrest⟩ := List.map_eq_cons_iff.mp hmap
  obtain rfl := List.map_eq_nil_iff.mp hrest
  exact ⟨l, chain, toOption_eq_some_iff.mp hl, toOption_eq_some_iff.mp hchains, hchain⟩

/-- A call that is raised to a power, or a product with a power: its two readings. -/
theorem Lexed.variants_eq_readings_of_power :
    let s : Source := ⟨['f', '(', 'x', ')', '^', 'y'], none⟩
    ∃ l chain t, s.lex default = .ok l ∧ l.chains = .ok [chain] ∧
      Expr.ofChain default chain = .ok t ∧ (t.variants Op.narrowings).length = 2 ∧
      ∀ v, v ∈ t.variants Op.narrowings ↔
        ∃ narrowed ∈ chain.narrowings, Expr.ofChain default narrowed = .ok v := by
  intro s
  obtain ⟨l, chain, hl, hchains, hchain⟩ := @Lexed.exists_only_chain _ s
    (fun chain => (decide chain.NoneAlone, chain.operators.countP (·.op.isContested),
      (Expr.ofChain default chain).toOption.map fun t => (t.variants Op.narrowings).length))
    (true, 1, some 2) (by decide +kernel)
  obtain ⟨halone, hcount, hvariants⟩ := by simpa only [Prod.mk.injEq] using hchain
  obtain ⟨t, ht, hlength⟩ := Option.map_eq_some_iff.mp hvariants
  have ht := toOption_eq_some_iff.mp ht
  have hspaced := Chain.isSpaced_of_countP_le (Nat.le_of_eq hcount)
  refine ⟨l, chain, t, hl, hchains, ht, hlength, ?_⟩
  exact (Lexed.variants_eq_readings hl hchains (List.mem_singleton_self _)
    (of_decide_eq_true halone) hspaced ht).2

end DewyFront
