/-
# DewyFront.Proofs.Throughout — what holds at every depth

A property of single nodes may hold of all nodes of a tree. The nodes of a tree come from two sides:
reduction makes those between the operands, and an operand is a node that encloses the trees of the
chains inside of it. So it is enough to know what each of the two makes of what it is given.

* §1 expressions;
* §2 the parts of an operand;
* §3 chains to expressions.
-/
import DewyFront.Proofs.Nesting
import DewyFront.Proofs.PlacedSlots

namespace DewyFront

/-! ## §1 Expressions -/

namespace Expr

/-- **`Throughout`** — `q` holds of an expression and of everything inside of it, at any depth. -/
inductive Throughout (q : Expr → Prop) : Expr → Prop
  | intro {e : Expr} (here : q e) (inside : ∀ part ∈ e.parts, Throughout q part) : Throughout q e

variable {q r : Expr → Prop} {e : Expr}

theorem Throughout.here (h : e.Throughout q) : q e := by
  cases h
  assumption

theorem Throughout.inside (h : e.Throughout q) : ∀ part ∈ e.parts, part.Throughout q := by
  cases h
  assumption

theorem Throughout.and (hq : e.Throughout q) (hr : e.Throughout r) :
    e.Throughout fun e => q e ∧ r e := by
  induction hq with
  | intro here _ ih => exact .intro ⟨here, hr.here⟩ fun part hpart => ih part hpart (hr.inside part hpart)

theorem Throughout.mono (h : e.Throughout q) (hqr : ∀ e, q e → r e) : e.Throughout r := by
  induction h with
  | intro here _ ih => exact .intro (hqr _ here) ih

/-- What is in place is in place at every depth. -/
theorem Placed.throughout {p : Nat → Prop} (h : e.Placed p) : e.Throughout (Fits p) := by
  induction h with
  | intro fits _ ih => exact .intro fits ih

end Expr

namespace Reduction

variable {front back seg slots : List Slot} {e : Expr} {q : Expr → Prop}

/-- The parts of what a stretch is joined to are the nodes of the stretch. -/
theorem Joins.node_mem (h : Joins front back seg e) : ∀ part ∈ e.parts, .node part ∈ seg := by
  cases h with
  | binary => simp [binaryNode, Expr.parts]
  | before => simp [Expr.parts]
  | after => simp [Expr.parts]
  | @flat o first last links =>
    exact fun part hpart => node_mem_run o hpart

/-- What holds of the nodes of a stretch throughout holds of what it is joined to, if it holds there. -/
theorem Joins.throughout (h : Joins front back seg e) (he : q e)
    (hseg : AllNodes (Expr.Throughout q) seg) : e.Throughout q :=
  .intro he fun part hpart => hseg part (h.node_mem part hpart)

end Reduction

namespace Expr

variable {limit : Nat}

/-! ## §2 Parts -/

/-- The expression of a chain, with a number in place of a configuration. -/
abbrev ofChainFor (limit : Nat) (chain : Chain) : Except (Failure ParseError) Expr :=
  assemble limit chain (slotsOf limit chain)

theorem exists_chain_of_ofChains {chains : List Chain} {es : List Expr}
    (h : ofChains limit chains = .ok es) :
    ∀ e ∈ es, ∃ chain ∈ chains, ofChainFor limit chain = .ok e := by
  induction chains generalizing es with
  | nil =>
    rw [ofChains] at h
    cases h
    exact List.forall_mem_nil _
  | cons chain chains ih =>
    rw [ofChains] at h
    obtain ⟨first, hfirst, h⟩ := bind_ok_iff.mp h
    obtain ⟨rest, hrest, h⟩ := bind_ok_iff.mp h
    cases h
    refine List.forall_mem_cons.mpr ⟨⟨chain, List.mem_cons_self, hfirst⟩, fun e he => ?_⟩
    obtain ⟨found, hfound, hof⟩ := ih hrest e he
    exact ⟨found, List.mem_cons_of_mem _ hfound, hof⟩

theorem exists_hole_of_piecesOf {pieces : List Chain.Piece} {found : List Piece}
    (h : piecesOf limit pieces = .ok found) :
    ∀ e ∈ found.filterMap Piece.content?, ∃ content ∈ pieces.filterMap Chain.Piece.content?,
      ∃ span, ofOperand limit span content = .ok e := by
  induction pieces generalizing found with
  | nil =>
    rw [piecesOf] at h
    cases h
    exact List.forall_mem_nil _
  | cons piece pieces ih =>
    cases piece with
    | text t =>
      rw [piecesOf] at h
      obtain ⟨rest, hrest, h⟩ := bind_ok_iff.mp h
      cases h
      exact fun e he => ih hrest e he
    | hole content span =>
      rw [piecesOf] at h
      obtain ⟨first, hfirst, h⟩ := bind_ok_iff.mp h
      obtain ⟨rest, hrest, h⟩ := bind_ok_iff.mp h
      cases h
      refine List.forall_mem_cons.mpr ⟨⟨content, List.mem_cons_self, span, hfirst⟩, fun e he => ?_⟩
      obtain ⟨hole, hhole, hof⟩ := ih hrest e he
      exact ⟨hole, List.mem_cons_of_mem _ hhole, hof⟩

theorem exists_chain_of_armsOf {arms : List Chain.Arm} {found : List Arm}
    (h : armsOf limit arms = .ok found) :
    ∀ e ∈ found.flatMap Arm.parts, ∃ chain ∈ arms.flatMap Chain.Arm.chains,
      ofChainFor limit chain = .ok e := by
  induction arms generalizing found with
  | nil =>
    rw [armsOf] at h
    cases h
    exact List.forall_mem_nil _
  | cons arm arms ih =>
    cases arm with
    | mk k condition clause =>
      rw [armsOf] at h
      obtain ⟨c, hc, h⟩ := bind_ok_iff.mp h
      obtain ⟨a, ha, h⟩ := bind_ok_iff.mp h
      obtain ⟨rest, hrest, h⟩ := bind_ok_iff.mp h
      cases h
      refine List.forall_mem_cons.mpr ⟨⟨condition, List.mem_cons_self, hc⟩, ?_⟩
      refine List.forall_mem_cons.mpr
        ⟨⟨clause, List.mem_cons_of_mem _ List.mem_cons_self, ha⟩, fun e he => ?_⟩
      obtain ⟨chain, hchain, hof⟩ := ih hrest e he
      exact ⟨chain, List.mem_cons_of_mem _ (List.mem_cons_of_mem _ hchain), hof⟩

/-- **The parts of an operand** are the expressions of the chains in it, or stand in its holes. -/
theorem exists_of_mem_parts {span : Span} {content : Chain.Operand} {e : Expr}
    (h : ofOperand limit span content = .ok e) :
    ∀ part ∈ e.parts, (∃ chain ∈ content.chains, ofChainFor limit chain = .ok part) ∨
      ∃ hole ∈ content.holes, ∃ span, ofOperand limit span hole = .ok part := by
  unfold ofOperand at h
  split at h
  · cases h
    exact List.forall_mem_nil _
  · obtain ⟨es, hes, h⟩ := bind_ok_iff.mp h
    cases h
    exact fun part hpart => .inl (exists_chain_of_ofChains hes part hpart)
  · obtain ⟨es, hes, h⟩ := bind_ok_iff.mp h
    cases h
    exact fun part hpart => .inl (exists_chain_of_ofChains hes part hpart)
  · obtain ⟨pieces, hpieces, h⟩ := bind_ok_iff.mp h
    cases h
    exact fun part hpart => .inr (exists_hole_of_piecesOf hpieces part hpart)
  · obtain ⟨arms, harms, h⟩ := bind_ok_iff.mp h
    cases h
    refine List.forall_mem_append.mpr ⟨fun part hpart => ?_, List.forall_mem_nil _⟩
    obtain ⟨chain, hchain, hof⟩ := exists_chain_of_armsOf harms part hpart
    exact .inl ⟨chain, List.mem_append_left _ hchain, hof⟩
  · next otherwise =>
    obtain ⟨arms, harms, h⟩ := bind_ok_iff.mp h
    obtain ⟨last, hlast, h⟩ := bind_ok_iff.mp h
    cases h
    refine List.forall_mem_append.mpr ⟨fun part hpart => ?_, List.forall_mem_singleton.mpr ?_⟩
    · obtain ⟨chain, hchain, hof⟩ := exists_chain_of_armsOf harms part hpart
      exact .inl ⟨chain, List.mem_append_left _ hchain, hof⟩
    · exact .inl ⟨otherwise, List.mem_append_right _ (List.mem_singleton_self _), hlast⟩
  · next target =>
    obtain ⟨inner, hinner, h⟩ := bind_ok_iff.mp h
    cases h
    exact List.forall_mem_singleton.mpr (.inl ⟨target, List.mem_singleton_self _, hinner⟩)
  · cases h
    exact List.forall_mem_nil _
  · next target =>
    obtain ⟨inner, hinner, h⟩ := bind_ok_iff.mp h
    cases h
    exact List.forall_mem_singleton.mpr (.inl ⟨target, List.mem_singleton_self _, hinner⟩)

/-! ## §3 Chains -/

/-- **`Conveys`** — what has to be known to tell `q` of all nodes of a tree. An operand has it, if
`whole` holds of the trees inside. Reduction keeps it in a chain of which `p` holds, and `whole` holds
of what comes out. -/
structure Conveys (limit : Nat) (p : Chain → Prop) (h : Chain.Operand → Prop) (whole q : Expr → Prop) :
    Prop where
  operand : ∀ {e}, e.IsOperand → (∀ part ∈ e.parts, whole part) → q e
  hole : ∀ {span content e}, h content → ofOperand limit span content = .ok e → whole e
  reduce : ∀ {chain span slots t}, p chain → chain.checkShape = .ok span →
    slotsOf limit chain = .ok slots → Reduction.AllNodes (Throughout q) slots →
    Reading.reduce limit span slots = .ok t → t.Throughout q ∧ whole t

variable {p : Chain → Prop} {h : Chain.Operand → Prop} {whole q : Expr → Prop}

/-- The nodes for the operands of a chain have what each of the operands has. -/
theorem allNodes_of_slotsOf {chain : Chain} {slots : List Slot} {r : Expr → Prop}
    (hr : ∀ content ∈ chain.operands, ∀ {span e}, ofOperand limit span content = .ok e → r e)
    (hslots : slotsOf limit chain = .ok slots) : Reduction.AllNodes r slots := by
  intro e he
  obtain ⟨link, hlink, hlowers⟩ := Reading.exists_of_mem_right (slotsOf_ok hslots) he
  cases hlowers with
  | operand hof => exact hr _ (List.mem_filterMap.mpr ⟨_, hlink, rfl⟩) hof

namespace Conveys

/-- A chain conveys what its operands convey. -/
theorem ofChain_of (c : Conveys limit p h whole q) {chain : Chain} (hp : p chain)
    (hoperands : ∀ content ∈ chain.operands, ∀ {span e}, ofOperand limit span content = .ok e →
      e.Throughout q) {t : Expr} (ht : ofChainFor limit chain = .ok t) : t.Throughout q ∧ whole t := by
  obtain ⟨span, slots, hshape, hslots, hreduce⟩ := assemble_ok ht
  exact c.reduce hp hshape hslots (allNodes_of_slotsOf hoperands hslots) hreduce

/-- **The node of an operand has it throughout.** -/
theorem ofOperand (c : Conveys limit p h whole q) {content : Chain.Operand}
    (hwithin : content.Within p h) : ∀ {span : Span} {e : Expr},
      Expr.ofOperand limit span content = .ok e → e.Throughout q := by
  induction hwithin with
  | intro hchains _ hholes _ ihchains ihholes =>
    intro span e he
    have hparts : ∀ part ∈ e.parts, part.Throughout q ∧ whole part := by
      intro part hpart
      rcases exists_of_mem_parts he part hpart with ⟨chain, hchain, hof⟩ | ⟨hole, hhole, span, hof⟩
      · exact c.ofChain_of (hchains chain hchain)
          (fun content hcontent _ _ h => ihchains chain hchain content hcontent h) hof
      · exact ⟨ihholes hole hhole hof, c.hole (hholes hole hhole) hof⟩
    exact .intro (c.operand (isOperand_of_ofOperand he) fun part hpart => (hparts part hpart).2)
      fun part hpart => (hparts part hpart).1

/-- **The expression of a chain has it throughout.** -/
theorem ofChain (c : Conveys limit p h whole q) {chain : Chain} (hfilled : chain.Filled p h)
    {t : Expr} (ht : ofChainFor limit chain = .ok t) : t.Throughout q ∧ whole t :=
  c.ofChain_of hfilled.here (fun content hcontent _ _ he => c.ofOperand (hfilled.inside content hcontent) he)
    ht

end Conveys

end Expr

end DewyFront
