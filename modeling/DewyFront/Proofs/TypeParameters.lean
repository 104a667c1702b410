/-
# DewyFront.Proofs.TypeParameters — a parameter block with calls or products behind it

The juxtaposition of a parameter block sits between the two rows of a plain juxtaposition: it binds harder
than a product and not as hard as a call. So the block in `f<T>(x)` is called before `f` takes it, and the
parameters of `f` are `<T>(x)`, unless the juxtaposition in front of `(x)` is a product. The readings are
those of all choices between calls and products, each with the calls made first, then the parameters
applied, then the products formed from left to right.

* §1 forks;
* §2 readings;
* §3 chains.
-/
import DewyFront.Proofs.Allowances
import DewyFront.Proofs.BetweenForks
import DewyFront.Proofs.Limits

namespace DewyFront

open Reduction Reading

namespace Reading

open DewyFront.Expr

variable {a g x : Expr} {o j : Operator} {mid rest links : List (Operator × Expr)}

/-! ## §1 Forks -/

variable {limit n : Nat} {site : Span} {slots upper lower : List Slot}

theorem runSlots_append (a : Expr) (front : List (Operator × Expr)) (j : Operator) (x : Expr)
    (back : List (Operator × Expr)) :
    runSlots a (front ++ (j, x) :: back) = runSlots a front ++ .operator j :: runSlots x back := by
  simp [runSlots]

/-- A fork settles the juxtaposition on its two tiers. -/
theorem fork_runSlots (a x : Expr) (front rest : List (Operator × Expr)) (hj : j.op.isContested = true) :
    fork (runSlots a (front ++ (j, x) :: rest)) (2 * front.length + 1) =
      .ok ⟨j.span, [runSlots a (front ++ (j.narrow .upper, x) :: rest),
        runSlots a (front ++ (j.narrow .lower, x) :: rest)]⟩ := by
  obtain ⟨op, span⟩ := j
  obtain ⟨m, rfl, hm⟩ := Op.juxtapose_of_isContested hj
  have hget : (runSlots a front ++ .operator ⟨.juxtapose m, span⟩ :: runSlots x rest)[2 * front.length + 1]? =
      some (.operator ⟨.juxtapose m, span⟩) := by
    rw [← length_runSlots a front, List.getElem?_append_right (Nat.le_refl _), Nat.sub_self]
    rfl
  have hset : ∀ s, (runSlots a front ++ .operator ⟨.juxtapose m, span⟩ :: runSlots x rest).set
      (2 * front.length + 1) s = runSlots a front ++ s :: runSlots x rest := by
    intro s
    rw [← length_runSlots a front, List.set_append_right _ _ (Nat.le_refl _), Nat.sub_self]
    rfl
  simp only [runSlots_append, fork, hget, hm, List.map_cons, List.map_nil, hset]
  rfl

/-- Copies of different lengths are not merged. -/
theorem merge_of_length_ne (h : lower.length ≠ upper.length) :
    merge limit site [upper, lower] = .ok none := by
  simp [merge, h]

theorem variesAll_node {f : Op → List Op} {e v : Expr} :
    VariesAll f [.node e] [.node v] ↔ v ∈ e.variants f := by
  constructor
  · intro h
    cases h with
    | cons h _ =>
      cases h with
      | node h => exact h
  · exact fun h => .cons (.node h) .nil

/-- Copies that are a node each are merged to a node that stands for both. -/
theorem exists_merge_nodes (hlimit : 2 ≤ limit) (site : Span) (e₁ e₂ : Expr) :
    ∃ m, merge limit site [[.node e₁], [.node e₂]] = .ok (some [.node m]) ∧
      ∀ (f : Op → List Op) (v : Expr), v ∈ m.variants f ↔ v ∈ e₁.variants f ∨ v ∈ e₂.variants f := by
  rcases ok_or_refuse_of_faultless (merge_faultless limit site [[.node e₁], [.node e₂]]) with
    ⟨_ | merged, hmerge⟩ | ⟨cause, hmerge⟩
  · exact absurd hmerge (merge_nodes e₁ e₂)
  rotate_left
  · exact absurd hmerge (merge_ne_refuse hlimit)
  obtain ⟨m, rfl⟩ : ∃ m, merged = [.node m] := by
    obtain ⟨-, hall | ⟨front, nodes, back, hcopies, rfl⟩⟩ := merge_ok hmerge
    · exact ⟨e₁, (hall _ List.mem_cons_self).symm⟩
    · cases nodes with
      | nil => cases hcopies
      | cons n nodes =>
        have hfirst : [.node e₁] = front ++ .node n :: back := (List.cons.inj hcopies).1
        obtain ⟨rfl, rfl⟩ : front = [] ∧ back = [] := by
          have hlength := congrArg List.length hfirst
          simp only [List.length_append, List.length_cons, List.length_nil] at hlength
          exact ⟨List.length_eq_zero_iff.mp (by omega), List.length_eq_zero_iff.mp (by omega)⟩
        exact ⟨_, rfl⟩
  refine ⟨m, hmerge, fun f v => ?_⟩
  have hvaries := variesAll_of_merge (f := f) (V := [.node v]) hmerge
  simpa only [variesAll_node, List.mem_cons, List.not_mem_nil, or_false, exists_eq_or_imp,
    exists_eq_left] using hvaries

section Fork

variable {place : Nat} {end₁ end₂ : Option Nat} (hsurvey : survey slots = .ok (.contested place))
  (hfork : fork slots place = .ok ⟨site, [upper, lower]⟩)

include hsurvey hfork

/-- A fork whose copies come to a node each has one reading, which stands for both. -/
theorem exists_readings_of_nodes {e₁ e₂ : Expr} (hupper : run upper = .ok ⟨[.node e₁], end₁⟩)
    (hlower : run lower = .ok ⟨[.node e₂], end₂⟩) (hlimit : 2 ≤ limit) :
    ∃ m, readingsFor limit (n + 2) slots = .ok [m] ∧
      ∀ (f : Op → List Op) (v : Expr), v ∈ m.variants f ↔ v ∈ e₁.variants f ∨ v ∈ e₂.variants f := by
  have hrun := run_of_runs .refl (.contested hsurvey)
  obtain ⟨m, hmerge, hm⟩ := exists_merge_nodes hlimit site e₁ e₂
  have hnode : readingsFor limit (n + 1) [.node m] = .ok [m] := by
    rw [readingsFor, run_of_runs .refl (ends_node m)]
    rfl
  refine ⟨m, ?_, hm⟩
  rw [readingsFor]
  simp only [hrun, hfork, runAll, hupper, hlower, hmerge, hnode, bind, Except.bind, pure, Except.pure]

/-- A fork whose copies come to lists of different lengths is read one copy after the other. -/
theorem exists_readings_of_apart {upper' lower' : List Slot} {found₁ found₂ : List Expr}
    (hupper : run upper = .ok ⟨upper', end₁⟩) (hlower : run lower = .ok ⟨lower', end₂⟩)
    (hlength : lower'.length ≠ upper'.length) (hfound₁ : readingsFor limit n upper' = .ok found₁)
    (hfound₂ : readingsFor limit n lower' = .ok found₂) (hlimit : found₁.length + found₂.length ≤ limit) :
    ∃ found, readingsFor limit (n + 1) slots = .ok found ∧
      found.length ≤ found₁.length + found₂.length ∧ ∀ e, e ∈ found ↔ e ∈ found₁ ∨ e ∈ found₂ := by
  have hrun := run_of_runs .refl (.contested hsurvey)
  have hfirst := length_foldl_addNew_le found₁ []
  have hsecond := length_foldl_addNew_le found₂ (found₁.foldl addNew [])
  rw [List.length_nil] at hfirst
  refine ⟨found₂.foldl addNew (found₁.foldl addNew []), ?_, by omega, fun e => ?_⟩
  · rw [readingsFor]
    simp only [hrun, hfork, runAll, hupper, hlower, merge_of_length_ne hlength, List.foldlM_cons,
      List.foldlM_nil, hfound₁, hfound₂, bind, Except.bind, pure, Except.pure]
    rw [if_neg (by omega)]
    dsimp only
    rw [if_neg (by omega)]
  · simp only [mem_foldl_addNew, List.not_mem_nil, false_or]

end Fork

/-! ## §2 Readings -/

namespace AtFork

/-- **The readings of the list between two forks stand for its groupings.** There are `2 ^ n` of them at most
when `n + 1` juxtapositions are left to settle: what comes of the last one is merged. -/
theorem exists_readings (h : AtFork a o g mid links) (hn : links.length < n)
    (hlimit : Suffices limit links.length) :
    ∃ found, readingsFor limit n (runSlots a ((o, g) :: mid ++ links)) = .ok found ∧
      found.length ≤ 2 ^ (links.length - 1) ∧
      ∀ v, (∃ e ∈ found, v ∈ e.variants Op.narrowings) ↔ IsGrouping a o g mid links v := by
  -- One juxtaposition is decided at a time: as a call it shortens the slots, as a product it joins the
  -- operators in front of the others.
  induction links generalizing a o g mid n with
  | nil =>
    cases n with
    | zero => cases hn
    | succ n =>
      have hrun := run_of_runs h.runs (ends_node _)
      rw [List.append_nil, readingsFor, hrun]
      refine ⟨_, rfl, Nat.le_refl _, fun v => ?_⟩
      rw [isGrouping_nil]
      simp [h.isPlain.2]
  | cons q rest ih =>
    obtain ⟨j, x⟩ := q
    obtain ⟨n, rfl⟩ : ∃ k, n = k + 1 := Nat.exists_eq_succ_of_ne_zero (Nat.ne_zero_of_lt hn)
    have hj : j.op.isContested = true := (h.contested _ List.mem_cons_self).1
    have hfork := fork_runSlots a x ((o, g) :: mid) rest hj
    obtain ⟨htwo, hpow⟩ : 2 ≤ limit ∧ 2 ^ rest.length ≤ limit := hlimit.resolve_left (by simp)
    obtain ⟨a', o', g', mid', hcall, hshortens, hgroupings⟩ := h.exists_call
    have hproduct := h.product
    simp only [isGrouping_cons, ← hgroupings]
    cases rest with
    -- With the last juxtaposition both copies end as nodes, and the nodes are merged.
    | nil =>
      obtain ⟨n, rfl⟩ : ∃ k, n = k + 1 := Nat.exists_eq_succ_of_ne_zero fun hz => by simp [hz] at hn
      have hupper := run_of_runs (.head hshortens (by simpa using hcall.runs)) (ends_node _)
      have hlower := run_of_runs hproduct.runs (ends_node _)
      obtain ⟨m, hm, hvariants⟩ := exists_readings_of_nodes (n := n) h.survey_eq hfork hupper hlower htwo
      refine ⟨[m], hm, Nat.le_refl _, fun v => ?_⟩
      simp [hvariants, isGrouping_nil, hcall.isPlain.2, hproduct.isPlain.2]
    | cons q rest =>
      have hcount : (q :: rest).length < n := Nat.lt_of_succ_lt_succ hn
      have hsuffices : Suffices limit (q :: rest).length := hlimit.mono (Nat.le_succ _)
      obtain ⟨found₁, hfound₁, hle₁, hiff₁⟩ := ih hcall hcount hsuffices
      obtain ⟨found₂, hfound₂, hle₂, hiff₂⟩ := ih hproduct hcount hsuffices
      have hsame : (o, g) :: (mid ++ [(j.narrow .lower, x)]) ++ q :: rest =
          (o, g) :: mid ++ (j.narrow .lower, x) :: q :: rest := by simp
      have hupper := run_of_runs (.single hshortens) (.contested hcall.survey_eq)
      have hlower := run_of_runs .refl (.contested hproduct.survey_eq)
      rw [hsame] at hlower hfound₂
      -- The copies are of different lengths, so each is read by itself.
      have hlength : (runSlots a ((o, g) :: mid ++ (j.narrow .lower, x) :: q :: rest)).length ≠
          (runSlots a' ((o', g') :: mid' ++ q :: rest)).length := by
        obtain ⟨-, -, -, hlt⟩ := hshortens
        simp only [length_runSlots, List.length_append, List.length_cons] at hlt ⊢
        omega
      have hdouble : 2 * 2 ^ rest.length = 2 ^ (q :: rest).length := (Nat.pow_succ' ..).symm
      rw [List.length_cons, Nat.add_sub_cancel] at hle₁ hle₂
      obtain ⟨found, hfound, hle, hmem⟩ := exists_readings_of_apart h.survey_eq hfork hupper hlower hlength
        hfound₁ hfound₂ (by omega)
      refine ⟨found, hfound, by rw [List.length_cons, Nat.add_sub_cancel]; omega, fun v => ?_⟩
      simp only [hmem, or_and_right, exists_or, hiff₁, hiff₂]

end AtFork

end Reading

/-! ## §3 Chains -/

namespace Expr

variable {config : ParseConfig} {chain : Chain} {f t : Expr} {bond : Operator} {first : Expr}
  {calls links : List (Operator × Expr)} {limit : Nat} {slots : List Slot} {span : Span}

/-- **`called callee calls`** — calls one after the other. -/
def called (callee : Expr) (calls : List (Operator × Expr)) : Expr :=
  calls.foldl (fun e q => binaryNode (q.1.narrow .upper) e q.2) callee

/-- **`IsCall`** — the outermost operator of an expression is a call. -/
def IsCall (e : Expr) : Prop := ∃ o, e.binaryOperator? = some o ∧ o.op.SitsOn .upper

theorem isCall_called (hne : calls ≠ []) (hcalls : ∀ q ∈ calls, q.1.op.isContested = true) (callee : Expr) :
    (called callee calls).IsCall := by
  obtain ⟨inner, q, rfl⟩ := (List.eq_nil_or_concat' calls).resolve_left hne
  rw [called, List.foldl_append]
  exact ⟨_, rfl, Op.levels_narrow .upper (hcalls q (by simp))⟩

/-- What takes the last operand is no call if it was none before any product. -/
theorem not_isCall_grouped {done : Expr → Expr} {head : Expr} {tiered : List (Tier × Operator × Expr)}
    (hcalls : ∀ q ∈ tiered, q.2.1.op.isContested = true) (hdone : ∀ e, ¬ (done e).IsCall) :
    ¬ (grouped done head tiered).IsCall := by
  induction tiered generalizing done head with
  | nil => exact hdone head
  | cons q tiered ih =>
    obtain ⟨tier, o, x⟩ := q
    obtain ⟨ho, hrest⟩ := List.forall_mem_cons.mp hcalls
    cases tier with
    | upper => exact ih hrest hdone
    | lower =>
      refine ih hrest fun e he => ?_
      obtain ⟨p, hp, hsits⟩ := he
      cases hp
      have hboth := (Op.levels_narrow .lower ho).symm.trans hsits
      cases hboth

/-- Operands other than semicolons have nothing left to be decided. -/
theorem isPlain_of_mem (hslots : slotsOf limit chain = .ok slots)
    (hsemicolon : ∀ span, .operand (.atom .semicolon) span ∉ chain) {e : Expr} (he : .node e ∈ slots) :
    e.IsOperand ∧ e.IsPlain := by
  obtain ⟨link, hlink, hlowers⟩ := exists_of_mem_right (slotsOf_ok hslots) he
  cases hlowers with
  | @operand content span _ hcontent =>
    have hoperand := isOperand_of_ofOperand hcontent
    refine ⟨hoperand, ?_, variants_of_isOperand hoperand⟩
    rw [Bool.eq_false_iff]
    intro hsemi
    rw [(isSemicolon_of_ofOperand hcontent).mp hsemi] at hlink
    exact hsemicolon span hlink

/-- Operands with binary operators between them are well shaped. -/
theorem checkFrom_of_runSlots (hlowers : List.Forall₂ (LowersTo limit) chain (runSlots first links))
    (hbinary : ∀ q ∈ links, q.1.op.isBinary = true) (last : Option Operator) :
    Chain.checkFrom true last chain = .ok () := by
  induction links generalizing chain first last with
  | nil =>
    cases hlowers with
    | cons hfirst hrest =>
      cases hfirst
      cases hrest
      rfl
  | cons q links ih =>
    obtain ⟨hq, hlinks⟩ := List.forall_mem_cons.mp hbinary
    cases hlowers with
    | cons hfirst hrest =>
      cases hfirst
      cases hrest with
      | cons hq hrest =>
        cases hq
        refine Chain.checkFrom_operand_iff.mpr ⟨rfl, Chain.checkFrom_operator_iff.mpr ⟨true, ?_, ?_⟩⟩
        · exact Chain.wantsBehind_false_iff.mpr (.inl ⟨hq, rfl⟩)
        · exact ih hrest hlinks _

/-- An expression stands for what the readings it is made of stand for. -/
theorem exists_reduce {found : List Expr} (h : readings limit slots = .ok found) (span : Span) :
    ∃ e, reduce limit span slots = .ok e ∧
      ∀ (f : Op → List Op) (v : Expr), v ∈ e.variants f ↔ ∃ r ∈ found, v ∈ r.variants f := by
  unfold reduce
  rw [h]
  simp only [bind, Except.bind]
  split
  · exact ⟨_, rfl, fun f v => by simp⟩
  · exact ⟨_, rfl, fun f v => mem_variants_ambiguous⟩

theorem contestable_runSlots (first : Expr) (links : List (Operator × Expr)) :
    contestable (runSlots first links) = links.countP (·.1.op.isContested) := by
  induction links generalizing first with
  | nil => rfl
  | cons q links ih =>
    obtain ⟨o, x⟩ := q
    have hrest := ih x
    rw [contestable] at hrest ⊢
    rw [runSlots_cons, List.countP_cons_of_neg (by simp [Slot.operator?]), List.countP_cons, hrest,
      List.countP_cons]
    rfl

/-- The slots of parameters with calls or products behind them are a list between two forks. -/
theorem atFork_of_slotsOf (hbond : bond.op = .bond .typeParam)
    (hcalls : ∀ q ∈ calls, q.1.op.isContested = true)
    (hsemicolon : ∀ span, .operand (.atom .semicolon) span ∉ chain)
    (hslots : slotsOf limit chain = .ok (runSlots f ((bond, t) :: calls))) : AtFork f bond t [] calls := by
  have hplain : ∀ e, .node e ∈ runSlots f ((bond, t) :: calls) → e.IsOperand ∧ e.IsPlain :=
    fun e he => isPlain_of_mem hslots hsemicolon he
  have hf := hplain f (by simp [runSlots])
  have ht := hplain t (by simp [runSlots])
  have hunnested : ∀ e : Expr, e.IsOperand → checkNesting bond e = .ok () := by
    intro e he
    cases e <;> first | rfl | cases he
  refine ⟨⟨30, .inr ⟨by rw [hbond]; rfl, hunnested f hf.1, hunnested t ht.1⟩⟩, ?_, hf.2, ht.2,
    List.forall_mem_nil _, fun q hq => ⟨hcalls q hq, (hplain q.2 ?_).2⟩⟩
  · rw [hbond]
    exact Op.isBetween_typeParam
  · refine List.mem_cons_of_mem _ (List.mem_flatMap.mpr ⟨q, List.mem_cons_of_mem _ hq, by simp⟩)

/-- **Parameters with calls or products behind them have every grouping for a reading** where the limit
suffices. -/
theorem exists_ofChain (hbond : bond.op = .bond .typeParam)
    (hcalls : ∀ q ∈ calls, q.1.op.isContested = true)
    (hsemicolon : ∀ span, .operand (.atom .semicolon) span ∉ chain)
    (hslots : slotsOf config.maxReadings chain = .ok (runSlots f ((bond, t) :: calls)))
    (hlimit : Suffices config.maxReadings calls.length) :
    ∃ e, ofChain config chain = .ok e ∧ ∀ v, v ∈ e.variants Op.narrowings ↔
      ∃ tiers : List Tier, tiers.length = calls.length ∧
        v = grouped (binaryNode bond f) t (tiers.zip calls) := by
  have hfork := atFork_of_slotsOf hbond hcalls hsemicolon hslots
  have hlowers := slotsOf_ok hslots
  have hcheck : Chain.checkFrom true none chain = .ok () := by
    refine checkFrom_of_runSlots hlowers (List.forall_mem_cons.mpr ⟨?_, fun q hq => ?_⟩) none
    · rw [hbond]
      rfl
    · obtain ⟨m, hm, hreadings⟩ := Op.juxtapose_of_isContested (hcalls q hq)
      rw [hm]
      exact Op.isBinary_juxtapose (by simp [hreadings])
  have hne : chain ≠ [] := by
    rintro rfl
    cases hlowers
  obtain ⟨span, hspan⟩ := Chain.exists_checkShape_iff.mpr ⟨hne, hcheck⟩
  have hcount : calls.length < contestable (runSlots f ((bond, t) :: calls)) + 1 := by
    have hle : calls.length ≤ ((bond, t) :: calls).countP (·.1.op.isContested) := by
      rw [← List.countP_eq_length.mpr hcalls]
      exact (List.sublist_cons_self _ _).countP_le
    rw [contestable_runSlots]
    exact Nat.lt_succ_of_le hle
  obtain ⟨found, hfound, -, hiff⟩ := hfork.exists_readings hcount hlimit
  obtain ⟨e, he, hvariants⟩ := exists_reduce hfound span
  refine ⟨e, (ofChain_eq_reduce hspan hslots).trans he, fun v => ?_⟩
  rw [hvariants, hiff]
  rfl

/-- **Parameters take what is called behind them.** Where a parameter block stands behind an operand, with
juxtapositions behind it that may be calls or products, the readings are those of all choices: with each,
calls are made first, of the block as of any operand, then the operand takes its parameters, then products
are formed from left to right. There is an expression where the limit suffices. In no reading is the operand
with its parameters what is called. -/
theorem variants_iff_grouped (hbond : bond.op = .bond .typeParam)
    (hcalls : ∀ q ∈ calls, q.1.op.isContested = true)
    (hsemicolon : ∀ span, .operand (.atom .semicolon) span ∉ chain)
    (hslots : slotsOf config.maxReadings chain = .ok (runSlots f ((bond, t) :: calls))) :
    (Suffices config.maxReadings calls.length → ∃ e, ofChain config chain = .ok e) ∧
    ∀ e, ofChain config chain = .ok e →
      (∀ v, v ∈ e.variants Op.narrowings ↔ ∃ tiers : List Tier, tiers.length = calls.length ∧
        v = grouped (binaryNode bond f) t (tiers.zip calls)) ∧
      (calls ≠ [] → called (binaryNode bond f t) calls ∉ e.variants Op.narrowings) := by
  refine ⟨fun hlimit => ?_, fun e he => ?_⟩
  · obtain ⟨e, he, -⟩ := exists_ofChain hbond hcalls hsemicolon hslots hlimit
    exact ⟨e, he⟩
  · -- What is found under a limit is found under one that suffices.
    obtain ⟨great, hle, hsuffices⟩ : ∃ great : ParseConfig, config.maxReadings ≤ great.maxReadings ∧
        Suffices great.maxReadings calls.length :=
      ⟨⟨config.maxReadings + (2 + 2 ^ (calls.length - 1)), config.lexer⟩, Nat.le_add_right _ _,
        .inr ⟨Nat.le_trans (Nat.le_add_right 2 _) (Nat.le_add_left _ _),
          Nat.le_trans (Nat.le_add_left _ 2) (Nat.le_add_left _ _)⟩⟩
    obtain ⟨e', he', hiff⟩ := exists_ofChain hbond hcalls hsemicolon
      (slotsOf_retains hle chain _ hslots) hsuffices
    obtain rfl : e = e' := Except.ok.inj ((ofChain_retains hle chain e he).symm.trans he')
    refine ⟨hiff, fun hne hmem => ?_⟩
    obtain ⟨tiers, -, heq⟩ := (hiff _).mp hmem
    have hcalled : (grouped (binaryNode bond f) t (tiers.zip calls)).IsCall :=
      heq ▸ isCall_called hne hcalls _
    refine not_isCall_grouped ?_ ?_ hcalled
    · exact fun q hq => hcalls q.2 (List.of_mem_zip hq).2
    · rintro e ⟨o, ho, hsits⟩
      cases ho
      rw [hbond] at hsits
      cases hsits

/-- A name with parameters and two calls or products behind it: four readings. -/
theorem variants_iff_grouped_of_two_calls :
    let name (c : Char) (n : Nat) : Chain.Link := .operand (.atom (.identifier [c])) ⟨n, n + 1⟩
    let chain : Chain := [name 'f' 0, .operator ⟨.bond .typeParam, ⟨1, 1⟩⟩,
      .operand (.block .angle none [[name 'T' 2]]) ⟨1, 4⟩,
      .operator ⟨.juxtapose ⟨true, false, true⟩, ⟨4, 4⟩⟩,
      .operand (.block .paren none [[name 'x' 5]]) ⟨4, 7⟩,
      .operator ⟨.juxtapose ⟨true, true, true⟩, ⟨7, 7⟩⟩,
      .operand (.block .bracket none [[name 'y' 8]]) ⟨7, 10⟩]
    ∃ f t bond calls e, slotsOf 64 chain = .ok (runSlots f ((bond, t) :: calls)) ∧ calls.length = 2 ∧
      ofChain default chain = .ok e ∧ (e.variants Op.narrowings).length = 4 ∧
      (∀ v, v ∈ e.variants Op.narrowings ↔ ∃ tiers : List Tier, tiers.length = calls.length ∧
        v = grouped (binaryNode bond f) t (tiers.zip calls)) ∧
      called (binaryNode bond f t) calls ∉ e.variants Op.narrowings := by
  intro name chain
  let atom (c : Char) (n : Nat) : Expr := .atom (.identifier [c]) ⟨n, n + 1⟩
  let calls : List (Operator × Expr) := [
    (⟨.juxtapose ⟨true, false, true⟩, ⟨4, 4⟩⟩, .block .paren none [atom 'x' 5] ⟨4, 7⟩),
    (⟨.juxtapose ⟨true, true, true⟩, ⟨7, 7⟩⟩, .block .bracket none [atom 'y' 8] ⟨7, 10⟩)]
  let bond : Operator := ⟨.bond .typeParam, ⟨1, 1⟩⟩
  have hslots : slotsOf 64 chain =
      .ok (runSlots (atom 'f' 0) ((bond, .block .angle none [atom 'T' 2] ⟨1, 4⟩) :: calls)) :=
    toOption_eq_some_iff.mp (by decide +kernel)
  have hslots' : slotsOf (default : ParseConfig).maxReadings chain =
      .ok (runSlots (atom 'f' 0) ((bond, .block .angle none [atom 'T' 2] ⟨1, 4⟩) :: calls)) := hslots
  have hreadings := variants_iff_grouped rfl (by decide) (by simp [chain, name]) hslots'
  obtain ⟨e, he⟩ := hreadings.1 (.inr ⟨by decide, by decide⟩)
  have hlength : (ofChain default chain).toOption.map (fun e => (e.variants Op.narrowings).length) = some 4 := by
    decide +kernel
  rw [he] at hlength
  obtain ⟨hiff, hnot⟩ := hreadings.2 e he
  exact ⟨_, _, _, calls, e, hslots, rfl, he, Option.some.inj hlength, hiff, hnot (by decide)⟩

/-- **In `f<T>(x)` the parameters are not applied before the call**: no reading calls `f<T>`. -/
theorem called_notMem_of_parameters :
    let s : Source := ⟨['f', '<', 'T', '>', '(', 'x', ')'], none⟩
    let name (c : Char) (n : Nat) : Expr := .atom (.identifier [c]) ⟨n, n + 1⟩
    let bond : Operator := ⟨.bond .typeParam, ⟨1, 1⟩⟩
    let parameters : Expr := .block .angle none [name 'T' 2] ⟨1, 4⟩
    let jux : Operator := ⟨.juxtapose ⟨true, false, true⟩, ⟨4, 4⟩⟩
    let argument : Expr := .block .paren none [name 'x' 5] ⟨4, 7⟩
    ∃ l chain e, s.lex default = .ok l ∧ l.chains = .ok [chain] ∧
      slotsOf 64 chain = .ok (runSlots (name 'f' 0) [(bond, parameters), (jux, argument)]) ∧
      ofChain default chain = .ok e ∧
      called (binaryNode bond (name 'f' 0) parameters) [(jux, argument)] ∉ e.variants Op.narrowings := by
  intro s name bond parameters jux argument
  let isReading (e : Expr) : Bool :=
    called (binaryNode bond (name 'f' 0) parameters) [(jux, argument)] ∈ e.variants Op.narrowings
  obtain ⟨l, chain, hl, hchains, hchain⟩ := @Lexed.exists_only_chain _ s
    (fun chain => ((slotsOf 64 chain).toOption, (ofChain default chain).toOption.map isReading))
    (some (runSlots (name 'f' 0) [(bond, parameters), (jux, argument)]), some false) (by decide +kernel)
  obtain ⟨hslots, hreading⟩ := Prod.mk.inj hchain
  obtain ⟨e, he, hnot⟩ := Option.map_eq_some_iff.mp hreading
  exact ⟨l, chain, e, hl, hchains, toOption_eq_some_iff.mp hslots, toOption_eq_some_iff.mp he,
    of_decide_eq_false hnot⟩

end Expr

end DewyFront
