/-
# DewyFront.Proofs.Atoms — the atoms of an expression stand among the items of its source

An atom is handed on from the items of a source to its settled items, its chains and its expressions as
it is. The bounds that a range lacks and the operators that stand alone are the only atoms that are not
written in the source. So what holds of those, and of the atoms of all items, holds of every atom of an
expression, whatever it is inside of.

* §1 signs;
* §2 operands of chains;
* §3 what is inside of an operand;
* §4 expressions;
* §5 sources.
-/
import DewyFront.Proofs.Inventory
import DewyFront.Proofs.Throughout

namespace DewyFront

variable {p : Atom → Prop}

/-! ## §1 Signs -/

/-- What holds of the atom that a sign is, if it is one. -/
def Sign.Holds (p : Atom → Prop) : Sign → Prop
  | .atom a _ => p a
  | _ => True

theorem Op.holds_of_mem {op : Op} {sign : Sign} (h : sign ∈ op.signs) : sign.Holds p := by
  rcases Op.eq_of_mem_signs h with ⟨s, rfl⟩ | rfl <;> trivial

/-- Settled items have the atoms of the items, and the bounds that ranges lack. -/
theorem Tree.holds_of_settle {items items' : List Tree} (h : settle items = .ok items')
    (hundefined : p .undefined) (hitems : ∀ sign ∈ signsAll items, sign.Holds p) :
    ∀ sign ∈ signsAll items', sign.Holds p := by
  intro sign hsign
  by_cases hwritten : sign.isWritten = true
  · have hmem : sign ∈ (signsAll items').filter Sign.isWritten := List.mem_filter.mpr ⟨hsign, hwritten⟩
    rw [signsAll_settle h] at hmem
    exact hitems sign (List.mem_filter.mp hmem).1
  · cases sign with
    | atom a span =>
      have hbound : (a == .undefined && span.isEmpty) = true := by simpa [Sign.isWritten] using hwritten
      obtain rfl : a = .undefined := eq_of_beq (Bool.and_eq_true_iff.mp hbound).1
      exact hundefined
    | _ => trivial

namespace Chain

/-! ## §2 Operands -/

/-- **`Holds`** — an operand that is an atom has `p`. -/
def Operand.Holds (p : Atom → Prop) (content : Operand) : Prop := ∀ a, content = .atom a → p a

/-- The signs of an operand are among those of the chain. -/
theorem operandSigns_subset {chain : Chain} {content : Operand} (h : content ∈ operands chain) :
    ∃ span, operandSigns Op.signs span content ⊆ signs Op.signs chain := by
  induction chain with
  | nil => cases h
  | cons link chain ih =>
    cases link with
    | operator o =>
      obtain ⟨span, hsubset⟩ := ih h
      rw [signs]
      exact ⟨span, List.subset_append_of_subset_right _ hsubset⟩
    | operand first span =>
      rw [signs]
      rcases List.mem_cons.mp h with rfl | h
      · exact ⟨span, List.subset_append_left _ _⟩
      · obtain ⟨span', hsubset⟩ := ih h
        exact ⟨span', List.subset_append_of_subset_right _ hsubset⟩

/-- An operand has what the atoms among its signs have; operators that stand alone have no sign of
their own. -/
theorem Operand.holds_of_signs {span : Span} {content : Operand} (hoperator : ∀ op, p (.operator op))
    (h : ∀ sign ∈ operandSigns Op.signs span content, sign.Holds p) : content.Holds p := by
  rintro a rfl
  rw [operandSigns] at h
  cases a with
  | operator op => exact hoperator op
  | _ => exact h _ (List.mem_singleton_self _)

theorem signs_subset_signsAll {chains : List Chain} {chain : Chain} (h : chain ∈ chains) :
    signs Op.signs chain ⊆ signsAll Op.signs chains := by
  induction chains with
  | nil => cases h
  | cons first chains ih =>
    rw [signsAll]
    rcases List.mem_cons.mp h with rfl | h
    · exact List.subset_append_left _ _
    · exact List.subset_append_of_subset_right _ (ih h)

theorem signs_subset_armSigns {arms : List Arm} {chain : Chain} (h : chain ∈ arms.flatMap Arm.chains)
    (lead : List Sign) : signs Op.signs chain ⊆ armSigns Op.signs lead arms := by
  induction arms generalizing lead with
  | nil => cases h
  | cons arm arms ih =>
    obtain ⟨k, condition, clause⟩ := arm
    rw [armSigns]
    refine List.subset_append_of_subset_right _ (List.subset_cons_of_subset _ ?_)
    rcases List.mem_append.mp h with h | h
    · rcases List.mem_pair.mp h with rfl | rfl
      · exact List.subset_append_left _ _
      · exact List.subset_append_of_subset_right _ (List.subset_append_left _ _)
    · exact List.subset_append_of_subset_right _ (List.subset_append_of_subset_right _ (ih h _))

/-- The signs of a chain in an operand are among those of the operand. -/
theorem signs_subset_operandSigns {content : Operand} {chain : Chain} (h : chain ∈ content.chains)
    (span : Span) : signs Op.signs chain ⊆ operandSigns Op.signs span content := by
  have hinner : ∀ {chains : List Chain} {sign : Sign}, chain ∈ chains →
      signs Op.signs chain ⊆ sign :: (signsAll Op.signs chains ++ [.closing]) := fun h =>
    List.subset_cons_of_subset _ (List.subset_append_of_subset_left _ (signs_subset_signsAll h))
  cases content with
  | atom | istring => cases h
  | block kind base inner => rw [operandSigns]; exact hinner h
  | escape inner => rw [operandSigns]; exact hinner h
  | flow arms otherwise =>
    rw [operandSigns_flow]
    rcases List.mem_append.mp h with h | h
    · exact List.subset_append_of_subset_left _ (signs_subset_armSigns h [])
    · obtain rfl := Option.mem_toList.mp h
      exact List.subset_append_of_subset_right _ (List.subset_cons_self _ _)
  | declare k target =>
    obtain rfl := List.mem_singleton.mp h
    rw [operandSigns]
    exact List.subset_cons_self _ _
  | keyword k target =>
    cases target with
    | none => cases h
    | some target =>
      obtain rfl := List.mem_singleton.mp h
      rw [operandSigns]
      exact List.subset_cons_self _ _

/-- What is inside of a hole has the atoms of the hole. -/
theorem holds_of_pieceSigns {pieces : List Piece} {content : Operand}
    (hmem : content ∈ pieces.filterMap Piece.content?)
    (h : ∀ sign ∈ pieceSigns Op.signs pieces, sign.Holds p) :
    ∃ span, ∀ sign ∈ operandSigns Op.signs span content, sign.Holds p := by
  induction pieces with
  | nil => cases hmem
  | cons piece pieces ih =>
    cases piece with
    | text t =>
      rw [pieceSigns] at h
      exact ih hmem (List.forall_mem_cons.mp h).2
    | hole first span =>
      -- A hole for a value has an opener of its own in place of that of a block.
      obtain ⟨hfirst, hrest⟩ : (∀ sign ∈ operandSigns Op.signs span first, sign.Holds p) ∧
          ∀ sign ∈ pieceSigns Op.signs pieces, sign.Holds p := by
        cases first with
        | block kind base inner =>
          rw [pieceSigns] at h
          obtain ⟨-, h⟩ := List.forall_mem_cons.mp h
          obtain ⟨hinner, h⟩ := List.forall_mem_append.mp h
          rw [operandSigns]
          exact ⟨List.forall_mem_cons.mpr ⟨trivial, List.forall_mem_append.mpr
            ⟨hinner, List.forall_mem_singleton.mpr trivial⟩⟩, (List.forall_mem_cons.mp h).2⟩
        | _ =>
          rw [pieceSigns] at h
          · exact List.forall_mem_append.mp h
          · exact fun _ _ _ h => by cases h
      rcases List.mem_cons.mp hmem with rfl | hmem
      · exact ⟨span, hfirst⟩
      · exact ih hmem hrest

/-! ## §3 Inside -/

variable (hoperator : ∀ op, p (.operator op))
include hoperator

/-- **What holds of the atoms among the signs of a chain** holds of its operands. -/
theorem holds_of_signs {chain : Chain} (h : ∀ sign ∈ signs Op.signs chain, sign.Holds p) :
    ∀ content ∈ operands chain, content.Holds p := by
  intro content hcontent
  obtain ⟨span, hsubset⟩ := operandSigns_subset hcontent
  exact Operand.holds_of_signs hoperator fun sign hsign => h sign (hsubset hsign)

/-- **What holds of the atoms among the signs of an operand** holds inside of it at any depth. -/
theorem within_of_signs {span : Span} (o : Operand)
    (h : ∀ sign ∈ operandSigns Op.signs span o, sign.Holds p) :
    o.Within (fun chain => ∀ content ∈ operands chain, content.Holds p) (Operand.Holds p) := by
  have hchain : ∀ chain ∈ o.chains, ∀ sign ∈ signs Op.signs chain, sign.Holds p :=
    fun chain hchain sign hsign => h sign (signs_subset_operandSigns hchain span hsign)
  have hhole : ∀ content ∈ o.holes, ∃ span,
      ∀ sign ∈ operandSigns Op.signs span content, sign.Holds p := by
    intro content hcontent
    cases o with
    | istring pieces =>
      rw [operandSigns] at h
      exact holds_of_pieceSigns hcontent fun sign hsign =>
        h sign (List.mem_cons_of_mem _ (List.mem_append_left _ hsign))
    | _ => cases hcontent
  refine .intro (fun chain hmem => holds_of_signs hoperator (hchain chain hmem))
    (fun chain hmem content hcontent => ?_) (fun content hcontent => ?_) fun content hcontent => ?_
  · have := Operand.sizeOf_chain_lt hmem
    have := sizeOf_operand_lt hcontent
    obtain ⟨span, hsubset⟩ := operandSigns_subset hcontent
    exact within_of_signs content fun sign hsign => hchain chain hmem sign (hsubset hsign)
  · obtain ⟨span, hspan⟩ := hhole content hcontent
    exact Operand.holds_of_signs hoperator hspan
  · have := Operand.sizeOf_hole_lt hcontent
    obtain ⟨span, hspan⟩ := hhole content hcontent
    exact within_of_signs content hspan
termination_by sizeOf o

/-- **What holds of the atoms among the signs of a chain** holds of the operands of every chain in it. -/
theorem filled_of_signs {chain : Chain} (h : ∀ sign ∈ signs Op.signs chain, sign.Holds p) :
    chain.Filled (fun chain => ∀ content ∈ operands chain, content.Holds p) (Operand.Holds p) := by
  refine ⟨holds_of_signs hoperator h, fun content hcontent => ?_⟩
  obtain ⟨span, hsubset⟩ := operandSigns_subset hcontent
  exact within_of_signs hoperator content fun sign hsign => h sign (hsubset hsign)

end Chain

/-! ## §4 Expressions -/

namespace Expr

/-- **`Holds`** — an expression that is an atom has `p`. -/
def Holds (p : Atom → Prop) (e : Expr) : Prop := ∀ a, e.atom? = some a → p a

/-- Reduction makes no atoms. -/
theorem closed_throughout_holds : Reduction.Closed (Throughout (Holds p)) where
  made := by
    intro front o pull back r hsurveyed hat hnodes
    obtain ⟨before, seg, behind, heq, -, -, hjoins⟩ :=
      (Reduction.made_of_at? hsurveyed hat).replaces hsurveyed
    have hnode : Holds p r.node := by
      generalize r.node = node at hjoins
      cases hjoins <;> exact fun a ha => by cases ha
    refine hjoins.throughout hnode fun e he => hnodes e ?_
    rw [heq]
    exact List.mem_append_left _ (List.mem_append_right _ he)
  ambiguous h := .intro (fun a ha => by cases ha) h

variable {limit : Nat}

/-- The expression of a chain has what the nodes of its operands have. -/
theorem throughout_of_operands {chain : Chain}
    (hoperands : ∀ content ∈ chain.operands, ∀ {span e}, ofOperand limit span content = .ok e →
      e.Throughout (Holds p)) {t : Expr} (ht : ofChainFor limit chain = .ok t) :
    t.Throughout (Holds p) := by
  obtain ⟨span, slots, -, hslots, hreduce⟩ := assemble_ok ht
  exact Reading.of_reduce closed_throughout_holds hreduce (allNodes_of_slotsOf hoperands hslots)

/-- **The node of an operand has the atoms of the operand.** -/
theorem throughout_of_within {content : Chain.Operand}
    (hwithin : content.Within (fun chain => ∀ content ∈ chain.operands, content.Holds p)
      (Chain.Operand.Holds p)) :
    content.Holds p → ∀ {span e}, ofOperand limit span content = .ok e → e.Throughout (Holds p) := by
  induction hwithin with
  | intro hchains _ hholes _ ihchains ihholes =>
    intro hcontent span e he
    refine .intro (fun a ha => ?_) fun part hpart => ?_
    · rcases ofOperand_cases he with ⟨b, rfl, rfl⟩ | ⟨-, -, hnone⟩
      · cases ha
        exact hcontent _ rfl
      · rw [hnone] at ha
        cases ha
    · rcases exists_of_mem_parts he part hpart with ⟨chain, hchain, hof⟩ | ⟨hole, hhole, span, hof⟩
      · exact throughout_of_operands (fun content hmem _ _ h =>
          ihchains chain hchain content hmem (hchains chain hchain content hmem) h) hof
      · exact ihholes hole hhole (hholes hole hhole) hof

/-- **The expression of a chain has the atoms of the chain.** -/
theorem throughout_of_filled {chain : Chain}
    (h : chain.Filled (fun chain => ∀ content ∈ chain.operands, content.Holds p)
      (Chain.Operand.Holds p)) {t : Expr} (ht : ofChainFor limit chain = .ok t) :
    t.Throughout (Holds p) :=
  throughout_of_operands (fun content hcontent _ _ he =>
    throughout_of_within (h.inside content hcontent) (h.here content hcontent) he) ht

end Expr

/-! ## §5 Sources -/

/-- **What holds of the atoms of a source holds of every atom of its expressions**, if it holds of the
operators and of the bound that is not written. -/
theorem Source.throughout_of_parse {config : ParseConfig} {s : Source} {parsed : Parsed}
    (h : s.parse config = .ok parsed) (hoperator : ∀ op, p (.operator op)) (hundefined : p .undefined)
    (hlexed : ∀ l, s.lex config.lexer = .ok l → ∀ sign ∈ Tree.signsAll l.trees, sign.Holds p) :
    ∀ e ∈ parsed.items, e.Throughout (Expr.Holds p) := by
  obtain ⟨lexed, hl, h⟩ := bind_ok_iff.mp h
  obtain ⟨chains, hchains, h⟩ := bind_ok_iff.mp h
  obtain ⟨items, hitems, h⟩ := bind_ok_iff.mp h
  cases h
  obtain ⟨settled, hsettled, hchains⟩ := bind_ok_iff.mp hchains
  have hsigns : ∀ sign ∈ Chain.signsAll Op.signs chains, sign.Holds p := by
    rw [Chain.signsAll_ofTrees (mapError_ok_iff.mp hchains)]
    exact Tree.holds_of_settle (mapError_ok_iff.mp hsettled) hundefined (hlexed lexed hl)
  intro e he
  obtain ⟨chain, hmem, hchain⟩ := Expr.exists_chain_of_ofAll (mapError_ok_iff.mp hitems) e he
  exact Expr.throughout_of_filled (Chain.filled_of_signs hoperator fun sign hsign =>
    hsigns sign (Chain.signs_subset_signsAll hmem hsign)) hchain

end DewyFront
