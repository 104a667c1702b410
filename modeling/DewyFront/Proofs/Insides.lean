/-
# DewyFront.Proofs.Insides — what is inside of a chain

What stands between operators may enclose chains of its own, and a string may have operands in its
holes. What holds of every chain and of every hole inside, at any depth, is said once: of an operand it is
said by the chains and the holes that stand directly in it, and of links by what each of them holds.

* §1 the chains and the holes of an operand;
* §2 what holds inside;
* §3 links and operands.
-/
import DewyFront.Chain

namespace DewyFront

namespace Chain

/-! ## §1 Chains and holes -/

/-- What a link holds, if it is an operand. -/
def Link.content? : Link → Option Operand
  | .operator _ => none
  | .operand content _ => some content

/-- What the operands of a chain hold. -/
def operands (chain : Chain) : List Operand := chain.filterMap Link.content?

/-- The condition and the clause of an arm. -/
def Arm.chains : Arm → List Chain
  | .mk _ condition clause => [condition, clause]

/-- The chains that stand directly in an operand. -/
def Operand.chains : Operand → List Chain
  | .atom _ | .istring _ | .keyword _ none => []
  | .block _ _ inner | .escape inner => inner
  | .flow arms otherwise => arms.flatMap Arm.chains ++ otherwise.toList
  | .declare _ target | .keyword _ (some target) => [target]

/-- What is in a piece of a string, if it is a hole. -/
def Piece.content? : Piece → Option Operand
  | .text _ => none
  | .hole content _ => some content

/-- What is in the holes of an operand. -/
def Operand.holes : Operand → List Operand
  | .istring pieces => pieces.filterMap Piece.content?
  | _ => []

/-- **`Encloses`** — an operand that is no atom. Whatever stands in a hole encloses something. -/
def Operand.Encloses (content : Operand) : Prop := ∀ a, content ≠ .atom a

theorem Operand.sizeOf_chain_lt {o : Operand} {chain : Chain} (h : chain ∈ o.chains) :
    sizeOf chain < sizeOf o := by
  cases o with
  | atom | istring => cases h
  | block kind base inner | escape inner =>
    have hlt : sizeOf chain < sizeOf inner := List.sizeOf_lt_of_mem h
    simp only [block.sizeOf_spec, escape.sizeOf_spec]
    omega
  | flow arms otherwise =>
    rcases List.mem_append.mp h with h | h
    · obtain ⟨arm, harm, hchain⟩ := List.mem_flatMap.mp h
      have harm := List.sizeOf_lt_of_mem harm
      cases arm with
      | mk k condition clause =>
        rw [Arm.mk.sizeOf_spec] at harm
        rw [flow.sizeOf_spec]
        rcases List.mem_cons.mp hchain with rfl | hchain
        · omega
        · rw [List.mem_singleton.mp hchain]
          omega
    · rw [Option.mem_toList] at h
      cases h
      simp only [flow.sizeOf_spec, Option.some.sizeOf_spec]
      omega
  | declare k target =>
    rw [List.mem_singleton.mp h, declare.sizeOf_spec]
    omega
  | keyword k target =>
    cases target with
    | none => cases h
    | some target =>
      rw [List.mem_singleton.mp h]
      simp only [keyword.sizeOf_spec, Option.some.sizeOf_spec]
      omega

theorem Operand.sizeOf_hole_lt {o content : Operand} (h : content ∈ o.holes) :
    sizeOf content < sizeOf o := by
  cases o with
  | istring pieces =>
    obtain ⟨piece, hpiece, hcontent⟩ := List.mem_filterMap.mp h
    have hpiece := List.sizeOf_lt_of_mem hpiece
    cases piece with
    | text => cases hcontent
    | hole inner span =>
      cases hcontent
      simp only [Piece.hole.sizeOf_spec] at hpiece
      simp only [istring.sizeOf_spec]
      omega
  | _ => cases h

theorem sizeOf_operand_lt {chain : Chain} {content : Operand} (h : content ∈ operands chain) :
    sizeOf content < sizeOf chain := by
  obtain ⟨link, hlink, hcontent⟩ := List.mem_filterMap.mp h
  have hlink := List.sizeOf_lt_of_mem hlink
  cases link with
  | operator => cases hcontent
  | operand inner span =>
    cases hcontent
    simp only [Link.operand.sizeOf_spec] at hlink
    omega

/-! ## §2 What holds inside -/

/-- **`Within`** — `p` holds of every chain inside of an operand and `h` of every hole, at any
depth. -/
inductive Operand.Within (p : Chain → Prop) (h : Operand → Prop) : Operand → Prop
  | intro {o : Operand} (chains : ∀ chain ∈ o.chains, p chain)
      (operands : ∀ chain ∈ o.chains, ∀ content ∈ operands chain, Within p h content)
      (holes : ∀ content ∈ o.holes, h content)
      (contents : ∀ content ∈ o.holes, Within p h content) : Within p h o

/-- **`Filled`** — `p` holds of a chain and of every chain inside of it, and `h` of every hole. -/
structure Filled (p : Chain → Prop) (h : Operand → Prop) (chain : Chain) : Prop where
  here : p chain
  inside : ∀ content ∈ operands chain, content.Within p h

/-- **`InsideOperand`** — `q` holds of every chain inside of an operand, whatever is in its holes. -/
abbrev InsideOperand (q : Chain → Prop) (content : Operand) : Prop := content.Within q fun _ => True

/-- **`Inside`** — `q` holds of every chain inside of a chain, at any depth. -/
def Inside (q : Chain → Prop) (chain : Chain) : Prop :=
  ∀ content ∈ operands chain, InsideOperand q content

/-- **`InsidePieces`** — `q` holds of every chain inside of the holes of a string, at any depth. -/
def InsidePieces (q : Chain → Prop) (pieces : List Piece) : Prop :=
  ∀ content ∈ pieces.filterMap Piece.content?, InsideOperand q content

/-- **`EveryChain`** — `q` holds of some chains, and of every chain inside. -/
def EveryChain (q : Chain → Prop) (chains : List Chain) : Prop :=
  ∀ chain ∈ chains, chain.Filled q fun _ => True

section

variable {p p' : Chain → Prop} {h h' : Operand → Prop} {o : Operand} {chain : Chain}

theorem Operand.Within.chains (hw : o.Within p h) : ∀ chain ∈ o.chains, chain.Filled p h := by
  cases hw with
  | intro hchains hoperands _ _ =>
    exact fun chain hchain => ⟨hchains chain hchain, hoperands chain hchain⟩

theorem Operand.Within.holes (hw : o.Within p h) :
    ∀ content ∈ o.holes, h content ∧ content.Within p h := by
  cases hw with
  | intro _ _ hholes hcontents =>
    exact fun content hcontent => ⟨hholes content hcontent, hcontents content hcontent⟩

theorem Operand.within_of_filled (hchains : ∀ chain ∈ o.chains, chain.Filled p h)
    (hholes : ∀ content ∈ o.holes, h content ∧ content.Within p h) : o.Within p h :=
  .intro (fun chain hchain => (hchains chain hchain).here)
    (fun chain hchain => (hchains chain hchain).inside)
    (fun content hcontent => (hholes content hcontent).1)
    (fun content hcontent => (hholes content hcontent).2)

/-- An operand without holes has inside what its chains have. -/
theorem Operand.within_of_chains (hholes : o.holes = [])
    (hchains : ∀ chain ∈ o.chains, chain.Filled p h) : o.Within p h :=
  within_of_filled hchains fun content hcontent => by
    rw [hholes] at hcontent
    cases hcontent

/-- Nothing is inside of an atom. -/
theorem Operand.within_atom (a : Atom) : (Operand.atom a).Within p h :=
  within_of_chains rfl fun _ hchain => nomatch hchain

/-- What holds of all chains and of all holes holds inside of every operand. -/
theorem Operand.within_of_forall (hp : ∀ chain, p chain) (hh : ∀ content, h content) (o : Operand) :
    o.Within p h :=
  .intro (fun chain _ => hp chain)
    (fun chain hchain content hcontent =>
      have := sizeOf_chain_lt hchain
      have := sizeOf_operand_lt hcontent
      within_of_forall hp hh content)
    (fun content _ => hh content)
    (fun content hcontent =>
      have := sizeOf_hole_lt hcontent
      within_of_forall hp hh content)
termination_by sizeOf o

theorem Operand.Within.and (hw : o.Within p h) (hw' : o.Within p' h') :
    o.Within (fun chain => p chain ∧ p' chain) fun content => h content ∧ h' content := by
  induction hw with
  | intro hchains _ hholes _ ihchains ihholes =>
    cases hw' with
    | intro hchains' hoperands' hholes' hcontents' =>
      exact .intro (fun chain hchain => ⟨hchains chain hchain, hchains' chain hchain⟩)
        (fun chain hchain content hcontent =>
          ihchains chain hchain content hcontent (hoperands' chain hchain content hcontent))
        (fun content hcontent => ⟨hholes content hcontent, hholes' content hcontent⟩)
        (fun content hcontent => ihholes content hcontent (hcontents' content hcontent))

theorem Operand.Within.mono (hw : o.Within p h) (hp : ∀ chain, p chain → p' chain)
    (hh : ∀ content, h content → h' content) : o.Within p' h' := by
  induction hw with
  | intro hchains _ hholes _ ihchains ihholes =>
    exact .intro (fun chain hchain => hp chain (hchains chain hchain)) ihchains
      (fun content hcontent => hh content (hholes content hcontent)) ihholes

theorem Filled.and (hf : chain.Filled p h) (hf' : chain.Filled p' h') :
    chain.Filled (fun chain => p chain ∧ p' chain) fun content => h content ∧ h' content :=
  ⟨⟨hf.here, hf'.here⟩, fun content hcontent =>
    (hf.inside content hcontent).and (hf'.inside content hcontent)⟩

theorem Filled.mono (hf : chain.Filled p h) (hp : ∀ chain, p chain → p' chain)
    (hh : ∀ content, h content → h' content) : chain.Filled p' h' :=
  ⟨hp chain hf.here, fun content hcontent => (hf.inside content hcontent).mono hp hh⟩

theorem EveryChain.mono {chains : List Chain} (hc : EveryChain p chains)
    (hp : ∀ chain, p chain → p' chain) : EveryChain p' chains :=
  fun chain hchain => (hc chain hchain).mono hp fun _ _ => trivial

end

/-! ## §3 Links and operands -/

section

variable {q : Chain → Prop} {chain front back : Chain} {content : Operand} {span : Span}
  {pieces : List Piece}

theorem operands_append (front back : Chain) :
    operands (front ++ back) = operands front ++ operands back := List.filterMap_append

theorem operands_operators (os : List Operator) : operands (os.map .operator) = [] := by
  induction os with
  | nil => rfl
  | cons o os ih => exact ih

theorem inside_nil : Inside q [] := List.forall_mem_nil _

theorem inside_operator_iff {o : Operator} : Inside q (.operator o :: chain) ↔ Inside q chain := Iff.rfl

theorem inside_operand_iff :
    Inside q (.operand content span :: chain) ↔ InsideOperand q content ∧ Inside q chain :=
  List.forall_mem_cons

theorem insidePieces_text_iff {t : Text} : InsidePieces q (.text t :: pieces) ↔ InsidePieces q pieces :=
  Iff.rfl

theorem insidePieces_hole_iff :
    InsidePieces q (.hole content span :: pieces) ↔ InsideOperand q content ∧ InsidePieces q pieces :=
  List.forall_mem_cons

theorem insideOperand_istring_iff : InsideOperand q (.istring pieces) ↔ InsidePieces q pieces := by
  refine ⟨fun h content hcontent => (h.holes content hcontent).2, fun h => ?_⟩
  exact Operand.within_of_filled (fun _ hchain => nomatch hchain) fun content hcontent =>
    ⟨trivial, h content hcontent⟩

theorem inside_append (hfront : Inside q front) (hback : Inside q back) : Inside q (front ++ back) := by
  unfold Inside
  rw [operands_append]
  exact List.forall_mem_append.mpr ⟨hfront, hback⟩

theorem inside_operators (os : List Operator) : Inside q (os.map .operator) := by
  unfold Inside
  rw [operands_operators]
  exact List.forall_mem_nil _

end

end Chain

end DewyFront
