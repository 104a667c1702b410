/-
# DewyFront.Proofs.Nesting — operators that may not stand directly in themselves

Some operators may not be an operand of themselves. That is checked when such an operator is reduced,
against the operands it then has. So no tree of a source has one of them with an operand that is made
with the same operator; and the check goes no further than the operand itself.

* §1 operators in themselves;
* §2 what reduction is closed under;
* §3 passes, forks and readings;
* §4 the check;
* §5 expressions of chains;
* §6 expressions of a source.
-/
import DewyFront.Proofs.Acceptance

namespace DewyFront

/-- Whether an operator may not stand directly in itself. -/
def Op.isAlone (op : Op) : Bool := op.levels.any (·.assoc == .alone)

namespace Expr

/-! ## §1 Nesting -/

mutual
/-- **`candidates`** — an expression, or the candidates of an ambiguous one and of those that are
ambiguous themselves. -/
def candidates : Expr → List Expr
  | .ambiguous es _ => candidatesAll es
  | e => [e]
/-- The candidates of some expressions. -/
def candidatesAll : List Expr → List Expr
  | [] => []
  | e :: es => candidates e ++ candidatesAll es
end

/-- Whether an operand clashes with an operator that may not stand in itself: one of its faces is made
with the same operator. -/
def clashes (faces : Expr → List Expr) (o : Operator) (operand : Expr) : Bool :=
  o.op.isAlone && (faces operand).any fun face => face.binaryOperator?.any (·.op == o.op)

mutual
/-- **`nests`** — whether anywhere in an expression an operator that may not stand in itself clashes
with one of its operands. What is seen of an operand are its `faces`. -/
def nests (faces : Expr → List Expr) : Expr → Bool
  | .atom .. => false
  | .binary o l r _ => clashes faces o l || clashes faces o r || nests faces l || nests faces r
  | .before _ e _ | .after _ e _ | .declare _ e _ => nests faces e
  | .flat _ es _ | .ambiguous es _ | .block _ _ es _ | .escape es _ => nestsAny faces es
  | .istring ps _ => nestsPieces faces ps
  | .flow arms none _ => nestsArms faces arms
  | .flow arms (some e) _ => nestsArms faces arms || nests faces e
  | .keyword _ none _ => false
  | .keyword _ (some e) _ => nests faces e
/-- Whether it is so anywhere in some expressions. -/
def nestsAny (faces : Expr → List Expr) : List Expr → Bool
  | [] => false
  | e :: es => nests faces e || nestsAny faces es
/-- Whether it is so anywhere in the pieces of a string. -/
def nestsPieces (faces : Expr → List Expr) : List Piece → Bool
  | [] => false
  | .text _ :: ps => nestsPieces faces ps
  | .hole e :: ps => nests faces e || nestsPieces faces ps
/-- Whether it is so anywhere in the arms of a flow expression. -/
def nestsArms (faces : Expr → List Expr) : List Arm → Bool
  | [] => false
  | .mk _ c e :: arms => nests faces c || nests faces e || nestsArms faces arms
end

theorem nestsAny_eq_false {faces : Expr → List Expr} {es : List Expr} :
    nestsAny faces es = false ↔ ∀ e ∈ es, nests faces e = false := by
  induction es with
  | nil => simp [nestsAny]
  | cons e es ih => simp [nestsAny, ih]

end Expr

namespace Reduction

/-! ## §2 Closure -/

/-- **`Closed`** — a property that reduction keeps: what is made of expressions that have it has it,
and so does a choice among them. -/
structure Closed (P : Expr → Prop) : Prop where
  made : ∀ {front o pull back r}, Surveyed (front ++ ⟨.operator o, pull⟩ :: back) →
    at? ⟨front.reverse, o, front.length, back⟩ = .ok (some r) →
    AllNodes P ((front ++ ⟨.operator o, pull⟩ :: back).map (·.slot)) → P r.node
  ambiguous : ∀ {es span}, (∀ e ∈ es, P e) → P (.ambiguous es span)

variable {P : Expr → Prop} {slots next : List Slot} {pulls : List Pull}

/-! ## §3 Readings -/

/-- **A pass keeps what reduction is closed under.** -/
theorem Closed.pass (hP : Closed P) (hd : survey slots = .ok (.decided pulls))
    (h : pass slots pulls = .ok next) (hs : AllNodes P slots) : AllNodes P next := by
  intro e he
  rcases mem_of_pass hd h he with he | ⟨front, o, pull, back, r, hstands, hat, heq⟩
  · exact hs e he
  · cases heq
    exact hP.made hstands.surveyed hat (hstands.slots_eq.symm ▸ hs)

end Reduction

namespace Reading

open Reduction

variable {P : Expr → Prop} {slots next merged copy : List Slot} {limit : Nat} {found : List Expr}

theorem Runs.allNodes (hP : Closed P) (h : Runs slots next) (hs : AllNodes P slots) :
    AllNodes P next := by
  refine h.keep (fun ha hstep => ?_) hs
  obtain ⟨pulls, hd, hpass, -⟩ := hstep
  exact hP.pass hd hpass ha

theorem of_ambiguousOf {es : List Expr} (hP : Closed P) (site : Span) (hne : es ≠ [])
    (h : ∀ e ∈ es, P e) : P (ambiguousOf site es) := by
  rcases ambiguousOf_cases site hne with ⟨e, rfl, heq⟩ | ⟨e, rest, rfl, heq⟩
  · rw [heq]
    exact h e List.mem_cons_self
  · rw [heq]
    exact hP.ambiguous h

theorem allNodes_of_closed {site : Span} {copies : List (List Slot)} (hP : Closed P)
    (h : merge limit site copies = .ok (some merged)) (hs : ∀ copy ∈ copies, AllNodes P copy) :
    AllNodes P merged :=
  allNodes_of_merge h hs fun _ _ _ _ hne hnodes _ =>
    of_ambiguousOf hP site (foldl_addNew_ne_nil hne) fun e he => hnodes e (mem_foldl_addNew_nil.mp he)

/-- **The readings of a list have what reduction is closed under**, if its nodes have it. -/
theorem all_of_leads (hP : Closed P) (h : Leads limit slots found) (hs : AllNodes P slots) :
    ∀ e ∈ found, P e := by
  induction h with
  | settled hruns =>
    intro e he
    obtain rfl := List.mem_singleton.mp he
    exact Runs.allNodes hP hruns hs e (List.mem_singleton_self _)
  | merged hruns hcontested hfork hcopies hmerge _ ih =>
    refine ih (allNodes_of_closed hP hmerge fun copy hcopy => ?_)
    obtain ⟨origin, horigin, hrun⟩ := exists_of_mem_right hcopies hcopy
    exact Runs.allNodes hP hrun
      (allNodes_of_fork hcontested hfork (Runs.allNodes hP hruns hs) horigin)
  | apart hruns hcontested hfork hcopies hfound _ ih =>
    intro e he
    obtain ⟨r, hr, he⟩ := (hfound e).mp he
    refine ih r hr ?_ e he
    obtain ⟨origin, horigin, hrun⟩ := exists_of_mem_right hcopies (List.mem_map_of_mem hr)
    exact Runs.allNodes hP hrun
      (allNodes_of_fork hcontested hfork (Runs.allNodes hP hruns hs) horigin)

/-- **The expression of a list has what reduction is closed under.** -/
theorem of_reduce {span : Span} {t : Expr} (hP : Closed P) (h : reduce limit span slots = .ok t)
    (hs : AllNodes P slots) : P t := by
  obtain ⟨found, hfound, h⟩ := bind_ok_iff.mp h
  have hall := all_of_leads hP (leads_of_readingsFor hfound) hs
  split at h
  · cases h
    exact hall t (List.mem_singleton_self t)
  · cases h
    exact hP.ambiguous hall

end Reading

namespace Reduction

/-! ## §4 The check -/

variable {front back : List Drawn} {o : Operator} {pull : Pull} {r : Reduction} {left right : Expr}

/-- An operand that passes the check does not clash with the operator. -/
theorem not_clashes_of_checkNesting {child : Expr} (h : checkNesting o child = .ok ()) :
    Expr.clashes ([·]) o child = false := by
  unfold checkNesting at h
  split at h
  · next inner hinner =>
    split at h
    · cases h
    · next hne => simp [Expr.clashes, hinner, hne]
  · next hnone => simp [Expr.clashes, hnone]

/-- **A node between two operands passed the check**, if its operator may not stand in itself. -/
theorem checkNesting_of_at? {s : Site} (halone : s.operator.op.isAlone = true)
    (h : at? s = .ok (some r)) : ∃ left right, r.node = binaryNode s.operator left right ∧
      checkNesting s.operator left = .ok () ∧ checkNesting s.operator right = .ok () := by
  have hlevel : ∃ level ∈ s.operator.op.levels, level.assoc = .alone := by
    simpa [Op.isAlone] using halone
  obtain ⟨row, hls⟩ := Op.levels_of_assoc (by decide) (by decide) hlevel
  rw [at?_of_levels_one hls] at h
  obtain ⟨found, hfound, hhead⟩ := map_ok_iff.mp h
  have hfound : aloneForm s ⟨row, .alone⟩ = .ok found := hfound
  obtain ⟨rfl, hchecked⟩ := eq_of_aloneForm hfound
  cases hboth : s.both? with
  | none =>
    rw [binaryForm, hboth] at hhead
    cases hhead
  | some both =>
    obtain ⟨left, right⟩ := both
    obtain ⟨hleft, hright⟩ := hchecked left right hboth
    refine ⟨left, right, ?_, hleft, hright⟩
    simp only [binaryForm, hboth, List.head?_cons, Option.some.injEq] at hhead
    rw [← hhead]

/-- No operand of a node clashes with its operator. -/
theorem not_clashes_of_at? (h : at? ⟨front.reverse, o, front.length, back⟩ = .ok (some r))
    (hnode : r.node = binaryNode o left right) :
    Expr.clashes ([·]) o left = false ∧ Expr.clashes ([·]) o right = false := by
  by_cases halone : o.op.isAlone = true
  · obtain ⟨l, r', hbinary, hleft, hright⟩ := checkNesting_of_at? halone h
    have heq : binaryNode o left right = binaryNode o l r' := hnode.symm.trans hbinary
    simp only [binaryNode, Expr.binary.injEq, true_and] at heq
    obtain ⟨rfl, rfl, -⟩ := heq
    exact ⟨not_clashes_of_checkNesting hleft, not_clashes_of_checkNesting hright⟩
  · have hfalse : o.op.isAlone = false := by simpa using halone
    simp [Expr.clashes, hfalse]

/-- **Reduction makes no node that clashes with its operator**, nor does it put one inside
another. -/
theorem closed_not_nests : Closed fun e => e.nests ([·]) = false where
  ambiguous hes := by
    rw [Expr.nests]
    exact Expr.nestsAny_eq_false.mpr hes
  made := by
    intro front o pull back r hsurveyed hat hnodes
    have hmade := made_of_at? hsurveyed hat
    cases hmade with
    | @binary front' back' left right power hbinary hflat hfront hback =>
      have hleft := hnodes left (by simp [hfront])
      have hright := hnodes right (by simp [hback])
      obtain ⟨hl, hr⟩ := not_clashes_of_at? hat rfl
      show (binaryNode o left right).nests ([·]) = false
      simp [binaryNode, Expr.nests, hl, hr, hleft, hright]
    | @before back' e power hbefore hfree hback =>
      rw [Expr.nests]
      exact hnodes e (by simp [hback])
    | @after front' e power hafter hfront =>
      rw [Expr.nests]
      exact hnodes e (by simp [hfront])
    | @flat front' stretch back' first last links power hflat hfront hrun hback hmax =>
      rw [Expr.nests]
      refine Expr.nestsAny_eq_false.mpr fun e he => hnodes e ?_
      have hmem := node_mem_run o he
      rw [← hrun.slots] at hmem
      simp only [List.mem_append, List.mem_cons, List.not_mem_nil, or_false, reduceCtorEq,
        false_or] at hmem
      rcases hmem with hmem | hlast
      · rw [hfront, List.map_append, List.map_append]
        exact List.mem_append_left _ (List.mem_append_right _ hmem)
      · rw [Slot.node.inj hlast]
        simp [hback]

end Reduction

namespace Expr

open Reduction

variable {limit : Nat}

/-! ## §5 Chains -/

/-- What is made of the operands of a chain has no operator that clashes, if none of them has. -/
theorem not_nests_of_assemble {chain : Chain} {t : Expr}
    (h : assemble limit chain (slotsOf limit chain) = .ok t)
    (hslots : ∀ slots, slotsOf limit chain = .ok slots → AllNodes (nests ([·]) · = false) slots) :
    t.nests ([·]) = false := by
  obtain ⟨span, slots, -, hok, hreduce⟩ := assemble_ok h
  exact Reading.of_reduce closed_not_nests hreduce (hslots slots hok)

mutual
theorem not_nests_of_slotsOf : ∀ (chain : List Chain.Link) (slots : List Slot),
    slotsOf limit chain = .ok slots → AllNodes (nests ([·]) · = false) slots
  | [], slots, h => by
    rw [slotsOf] at h
    cases h
    intro e he
    cases he
  | .operator o :: rest, slots, h => by
    rw [slotsOf] at h
    obtain ⟨tail, htail, h⟩ := bind_ok_iff.mp h
    cases h
    intro e he
    exact not_nests_of_slotsOf rest tail htail e (by simpa using he)
  | .operand content span :: rest, slots, h => by
    rw [slotsOf] at h
    obtain ⟨node, hnode, h⟩ := bind_ok_iff.mp h
    obtain ⟨tail, htail, h⟩ := bind_ok_iff.mp h
    cases h
    intro e he
    rcases List.mem_cons.mp he with heq | he
    · cases heq
      exact not_nests_of_ofOperand span content node hnode
    · exact not_nests_of_slotsOf rest tail htail e he
theorem not_nests_of_ofOperand (span : Span) : ∀ (content : Chain.Operand) (e : Expr),
    ofOperand limit span content = .ok e → e.nests ([·]) = false
  | .atom a, e, h => by
    rw [ofOperand] at h
    cases h
    rw [nests]
  | .block kind base inner, e, h => by
    rw [ofOperand] at h
    obtain ⟨es, hes, h⟩ := bind_ok_iff.mp h
    cases h
    rw [nests]
    exact nestsAny_eq_false.mpr (not_nests_of_ofChains inner es hes)
  | .escape inner, e, h => by
    rw [ofOperand] at h
    obtain ⟨es, hes, h⟩ := bind_ok_iff.mp h
    cases h
    rw [nests]
    exact nestsAny_eq_false.mpr (not_nests_of_ofChains inner es hes)
  | .istring pieces, e, h => by
    rw [ofOperand] at h
    obtain ⟨ps, hps, h⟩ := bind_ok_iff.mp h
    cases h
    rw [nests]
    exact not_nests_of_piecesOf pieces ps hps
  | .flow arms none, e, h => by
    rw [ofOperand] at h
    obtain ⟨xs, hxs, h⟩ := bind_ok_iff.mp h
    cases h
    rw [nests]
    exact not_nests_of_armsOf arms xs hxs
  | .flow arms (some otherwise), e, h => by
    rw [ofOperand] at h
    obtain ⟨xs, hxs, h⟩ := bind_ok_iff.mp h
    obtain ⟨last, hlast, h⟩ := bind_ok_iff.mp h
    cases h
    rw [nests, not_nests_of_armsOf arms xs hxs,
      not_nests_of_assemble hlast (not_nests_of_slotsOf otherwise), Bool.or_false]
  | .declare k target, e, h => by
    rw [ofOperand] at h
    obtain ⟨inner, hinner, h⟩ := bind_ok_iff.mp h
    cases h
    rw [nests]
    exact not_nests_of_assemble hinner (not_nests_of_slotsOf target)
  | .keyword k none, e, h => by
    rw [ofOperand] at h
    cases h
    rw [nests]
  | .keyword k (some operand), e, h => by
    rw [ofOperand] at h
    obtain ⟨inner, hinner, h⟩ := bind_ok_iff.mp h
    cases h
    rw [nests]
    exact not_nests_of_assemble hinner (not_nests_of_slotsOf operand)
theorem not_nests_of_ofChains : ∀ (chains : List (List Chain.Link)) (es : List Expr),
    ofChains limit chains = .ok es → ∀ e ∈ es, e.nests ([·]) = false
  | [], es, h => by
    rw [ofChains] at h
    cases h
    intro e he
    cases he
  | chain :: chains, es, h => by
    rw [ofChains] at h
    obtain ⟨first, hfirst, h⟩ := bind_ok_iff.mp h
    obtain ⟨rest, hrest, h⟩ := bind_ok_iff.mp h
    cases h
    intro e he
    rcases List.mem_cons.mp he with rfl | he
    · exact not_nests_of_assemble hfirst (not_nests_of_slotsOf chain)
    · exact not_nests_of_ofChains chains rest hrest e he
theorem not_nests_of_piecesOf : ∀ (pieces : List Chain.Piece) (ps : List Piece),
    piecesOf limit pieces = .ok ps → nestsPieces ([·]) ps = false
  | [], ps, h => by
    rw [piecesOf] at h
    cases h
    rw [nestsPieces]
  | .text t :: rest, ps, h => by
    rw [piecesOf] at h
    obtain ⟨tail, htail, h⟩ := bind_ok_iff.mp h
    cases h
    rw [nestsPieces]
    exact not_nests_of_piecesOf rest tail htail
  | .hole content span :: rest, ps, h => by
    rw [piecesOf] at h
    obtain ⟨e, he, h⟩ := bind_ok_iff.mp h
    obtain ⟨tail, htail, h⟩ := bind_ok_iff.mp h
    cases h
    rw [nestsPieces, not_nests_of_ofOperand span content e he,
      not_nests_of_piecesOf rest tail htail, Bool.or_false]
theorem not_nests_of_armsOf : ∀ (arms : List Chain.Arm) (xs : List Arm),
    armsOf limit arms = .ok xs → nestsArms ([·]) xs = false
  | [], xs, h => by
    rw [armsOf] at h
    cases h
    rw [nestsArms]
  | .mk k condition clause :: rest, xs, h => by
    rw [armsOf] at h
    obtain ⟨c, hc, h⟩ := bind_ok_iff.mp h
    obtain ⟨a, ha, h⟩ := bind_ok_iff.mp h
    obtain ⟨tail, htail, h⟩ := bind_ok_iff.mp h
    cases h
    rw [nestsArms, not_nests_of_assemble hc (not_nests_of_slotsOf condition),
      not_nests_of_assemble ha (not_nests_of_slotsOf clause),
      not_nests_of_armsOf rest tail htail, Bool.or_false, Bool.or_false]
end

/-- **The expression of a chain has no operator that clashes with an operand.** -/
theorem not_nests_of_ofChain {config : ParseConfig} {chain : Chain} {t : Expr}
    (h : ofChain config chain = .ok t) : t.nests ([·]) = false :=
  not_nests_of_assemble h (not_nests_of_slotsOf chain)

/-! ## §6 Sources -/

/-- Every expression of some chains is that of one of them. -/
theorem exists_chain_of_ofAll {config : ParseConfig} {chains : List Chain} {es : List Expr}
    (h : ofAll config chains = .ok es) :
    ∀ e ∈ es, ∃ chain ∈ chains, ofChain config chain = .ok e := by
  induction chains generalizing es with
  | nil =>
    cases h
    simp
  | cons chain chains ih =>
    unfold ofAll combine at h
    split at h
    · cases h
    · cases h
    · cases h
    · cases h
    · cases h
    · next a as ha has =>
      cases h
      intro e he
      rcases List.mem_cons.mp he with rfl | he
      · exact ⟨chain, List.mem_cons_self, ha⟩
      · obtain ⟨c, hc, heq⟩ := ih has e he
        exact ⟨c, List.mem_cons_of_mem _ hc, heq⟩

end Expr

/-- **No operator of a source stands directly in itself**, if it may not: wherever it is in an
expression of the source, neither of its operands is made with the same operator. -/
theorem Source.not_nests_of_parse {config : ParseConfig} {s : Source} {parsed : Parsed}
    (h : s.parse config = .ok parsed) : ∀ e ∈ parsed.items, e.nests ([·]) = false := by
  obtain ⟨lexed, -, h⟩ := bind_ok_iff.mp h
  obtain ⟨chains, -, h⟩ := bind_ok_iff.mp h
  obtain ⟨items, hitems, h⟩ := bind_ok_iff.mp h
  cases h
  intro e he
  obtain ⟨chain, -, hchain⟩ := Expr.exists_chain_of_ofAll (mapError_ok_iff.mp hitems) e he
  exact Expr.not_nests_of_ofChain hchain

/-- An assignment of what is a call that is raised to a power, or a product with a power. -/
theorem Source.not_nests_of_parse_of_assignment :
    let s : Source := ⟨['q', '=', 'f', '(', 'y', ')', '^', '2'], none⟩
    ∃ parsed, s.parse default = .ok parsed ∧ parsed.items.length = 1 ∧
      ∀ e ∈ parsed.items, e.nests ([·]) = false := by
  intro s
  have hone : (s.parse default).toOption.map (·.items.length) = some 1 := by decide +kernel
  obtain ⟨parsed, hparsed, hlength⟩ := Option.map_eq_some_iff.mp hone
  have hparsed := toOption_eq_some_iff.mp hparsed
  exact ⟨parsed, hparsed, hlength, Source.not_nests_of_parse hparsed⟩

/-- **The check does not look at candidates**: what stands on the right of the outer assignment is
ambiguous, and its candidates are assignments. -/
theorem Source.exists_parse_nests_candidates :
    let s : Source := ⟨['n', 'o', 't', ' ', 'a', '.', 'b', '.', 'c', '.', 'd', '(', 'x', ')', ' ', '=',
      ' ', 'q', ' ', '=', ' ', 'f', '(', 'y', ')', '^', '2'], none⟩
    ∃ parsed, s.parse default = .ok parsed ∧
      ∃ e ∈ parsed.items, e.nests Expr.candidates = true := by
  intro s
  have hany : (s.parse default).toOption.map (·.items.any (·.nests Expr.candidates)) =
      some true := by decide +kernel
  obtain ⟨parsed, hparsed, hitems⟩ := Option.map_eq_some_iff.mp hany
  exact ⟨parsed, toOption_eq_some_iff.mp hparsed, List.any_eq_true.mp hitems⟩

end DewyFront
