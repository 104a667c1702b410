/-
# DewyFront.Proofs.Lowering — chains become shaped lists of slots

The shape of a chain is checked before it is reduced, and what the check lets through is shaped as a
list of slots, if semicolons stand at the end. With that, no fault comes from a chain whose inner
chains are like that as well.

* §1 chains that grouping makes;
* §2 what the check asks of a link;
* §3 links and slots;
* §4 the shape of the slots;
* §5 chains without faults.
-/
import DewyFront.Expr.OfChain
import DewyFront.Proofs.Forks
import DewyFront.Proofs.Insides

namespace DewyFront

namespace Chain

/-! ## §1 Chains -/

/-- **`IsClosed`** — a semicolon comes last, behind its juxtaposition. -/
def IsClosed (chain : Chain) : Prop :=
  ∀ front span back, chain = front ++ .operand (.atom .semicolon) span :: back →
    back = [] ∧ ∃ inner s, front = inner ++ [.operator ⟨.bond .semicolon, s⟩]

theorem isClosed_of_notMem {chain : Chain}
    (h : ∀ span, .operand (.atom .semicolon) span ∉ chain) : IsClosed chain := by
  rintro front span back rfl
  exact absurd (by simp) (h span)

/-- **`IsTight`** — behind a contested juxtaposition stands an operand. -/
def IsTight (chain : Chain) : Prop :=
  ∀ front o back, chain = front ++ .operator o :: back → o.op.isContested = true →
    ∃ content span rest, back = .operand content span :: rest

/-- No operator of a chain applies a contested juxtaposition element by element. -/
def IsBare (chain : Chain) : Prop := ∀ o, .operator o ∈ chain → o.op.IsBare

/-- **`IsGrouped`** — what grouping guarantees of a chain, apart from the chains inside it. -/
structure IsGrouped (chain : Chain) : Prop where
  closed : IsClosed chain
  tight : IsTight chain
  bare : IsBare chain

/-- **`Sound`** — a chain and all chains inside it are as grouping makes them. -/
def Sound (chain : Chain) : Prop := chain.Filled IsGrouped fun _ => True

/-! ## §2 The check -/

/-- **`wantsBehind`** — whether an operand has to come behind an operator; nothing if the operator may
not stand where it does. -/
def wantsBehind (wanting : Bool) (op : Op) : Option Bool :=
  if wanting then if op.isBefore then some true else none
  else if op.isBinary then some true
  else if op.isAfter then some false
  else none

/-- An operand stands where one is wanted, and none is wanted behind it. -/
theorem checkFrom_operand_iff {wanting : Bool} {last : Option Operator} {content : Operand}
    {span : Span} {rest : Chain} : checkFrom wanting last (.operand content span :: rest) = .ok () ↔
      wanting = true ∧ checkFrom false last rest = .ok () := by
  cases wanting with
  | true => simp [checkFrom]
  | false => simp [checkFrom, refuse]

/-- An operator stands where it may, and what is wanted behind it is told by it. -/
theorem checkFrom_operator_iff {wanting : Bool} {last : Option Operator} {o : Operator}
    {rest : Chain} : checkFrom wanting last (.operator o :: rest) = .ok () ↔
      ∃ w, wantsBehind wanting o.op = some w ∧ checkFrom w (some o) rest = .ok () := by
  rw [checkFrom, wantsBehind]
  cases wanting with
  | true =>
    by_cases hbefore : o.op.isBefore = true
    · simp [hbefore]
    · simp [hbefore, refuse]
  | false =>
    by_cases hbinary : o.op.isBinary = true
    · simp [hbinary]
    · by_cases hafter : o.op.isAfter = true
      · simp [hbinary, hafter]
      · simp [hbinary, hafter, refuse]

/-- Where an operand is wanted only an operator may stand that has its operand behind it. -/
theorem wantsBehind_true_iff {op : Op} {w : Bool} :
    wantsBehind true op = some w ↔ op.isBefore = true ∧ w = true := by
  cases hbefore : op.isBefore <;> simp [wantsBehind, hbefore, eq_comm]

/-- Behind an operand stands an operator between operands, or else one that has its operand in front. -/
theorem wantsBehind_false_iff {op : Op} {w : Bool} : wantsBehind false op = some w ↔
    (op.isBinary = true ∧ w = true) ∨ (op.isBinary = false ∧ op.isAfter = true ∧ w = false) := by
  cases hbinary : op.isBinary <;> cases hafter : op.isAfter <;>
    simp [wantsBehind, hbinary, hafter, eq_comm]

end Chain

namespace Expr

open Reading Reduction

variable {limit : Nat} {chain : Chain} {slots : List Slot} {t : Expr}

/-! ## §3 Links -/

/-- **`LowersTo`** — the slot of a link. -/
inductive LowersTo (limit : Nat) : Chain.Link → Slot → Prop
  | operator (o : Operator) : LowersTo limit (.operator o) (.operator o)
  | operand {content : Chain.Operand} {span : Span} {e : Expr}
      (h : ofOperand limit span content = .ok e) : LowersTo limit (.operand content span) (.node e)

theorem slotsOf_ok (h : slotsOf limit chain = .ok slots) :
    List.Forall₂ (LowersTo limit) chain slots := by
  induction chain generalizing slots with
  | nil =>
    rw [slotsOf] at h
    cases h
    exact .nil
  | cons link chain ih =>
    cases link with
    | operator o =>
      rw [slotsOf] at h
      obtain ⟨rest, hrest, h⟩ := bind_ok_iff.mp h
      cases h
      exact .cons (.operator o) (ih hrest)
    | operand content span =>
      rw [slotsOf] at h
      obtain ⟨e, he, h⟩ := bind_ok_iff.mp h
      obtain ⟨rest, hrest, h⟩ := bind_ok_iff.mp h
      cases h
      exact .cons (.operand he) (ih hrest)

/-- **`IsOperand`** — an expression that no reduction made: an atom, or something with chains of its
own inside. -/
def IsOperand : Expr → Prop
  | .binary .. | .before .. | .after .. | .flat .. | .ambiguous .. => False
  | _ => True

/-- An operand is an atom, or something with an inside. -/
theorem ofOperand_cases {span : Span} {content : Chain.Operand} {e : Expr}
    (h : ofOperand limit span content = .ok e) :
    (∃ a, content = .atom a ∧ e = .atom a span) ∨
      ((∀ a, content ≠ .atom a) ∧ e.IsOperand ∧ e.atom? = none) := by
  unfold ofOperand at h
  split at h
  · cases h
    exact .inl ⟨_, rfl, rfl⟩
  · obtain ⟨_, -, h⟩ := bind_ok_iff.mp h
    cases h
    exact .inr ⟨by simp, trivial, rfl⟩
  · obtain ⟨_, -, h⟩ := bind_ok_iff.mp h
    cases h
    exact .inr ⟨by simp, trivial, rfl⟩
  · obtain ⟨_, -, h⟩ := bind_ok_iff.mp h
    cases h
    exact .inr ⟨by simp, trivial, rfl⟩
  · obtain ⟨_, -, h⟩ := bind_ok_iff.mp h
    cases h
    exact .inr ⟨by simp, trivial, rfl⟩
  · obtain ⟨_, -, h⟩ := bind_ok_iff.mp h
    obtain ⟨_, -, h⟩ := bind_ok_iff.mp h
    cases h
    exact .inr ⟨by simp, trivial, rfl⟩
  · obtain ⟨_, -, h⟩ := bind_ok_iff.mp h
    cases h
    exact .inr ⟨by simp, trivial, rfl⟩
  · cases h
    exact .inr ⟨by simp, trivial, rfl⟩
  · obtain ⟨_, -, h⟩ := bind_ok_iff.mp h
    cases h
    exact .inr ⟨by simp, trivial, rfl⟩

theorem isOperand_of_ofOperand {span : Span} {content : Chain.Operand} {e : Expr}
    (h : ofOperand limit span content = .ok e) : e.IsOperand := by
  rcases ofOperand_cases h with ⟨a, -, rfl⟩ | ⟨-, he, -⟩
  · trivial
  · exact he

/-- An operand is a semicolon exactly if it comes from one. -/
theorem isSemicolon_of_ofOperand {span : Span} {content : Chain.Operand} {e : Expr}
    (h : ofOperand limit span content = .ok e) :
    e.isSemicolon = true ↔ content = .atom .semicolon := by
  rcases ofOperand_cases h with ⟨a, rfl, rfl⟩ | ⟨hne, -, hatom⟩
  · simp [isSemicolon, atom?]
  · simp [isSemicolon, hatom, hne]

theorem mem_of_operator_slot {o : Operator} (h : List.Forall₂ (LowersTo limit) chain slots)
    (ho : .operator o ∈ slots) : .operator o ∈ chain := by
  obtain ⟨link, hlink, hl⟩ := exists_of_mem_right h ho
  cases hl
  exact hlink

/-! ## §4 Shape -/

/-- The links behind `front` become slots that come to an end, when the shape of the links is checked
and semicolons stand last. -/
theorem complete_of_checkFrom (front : Chain) {rest : Chain} {wanting : Bool} {last : Option Operator}
    {t : Turn} (hlower : List.Forall₂ (LowersTo limit) rest slots)
    (hclosed : Chain.IsClosed (front ++ rest))
    (hcheck : Chain.checkFrom wanting last rest = .ok ())
    (ht : t.wants = wanting) (hlast : wanting = true → rest = [] → last ≠ none)
    (hclosing : (∃ inner s, front = inner ++ [.operator ⟨.bond .semicolon, s⟩]) → wanting = true →
      t = .closing)
    (hdone : t = .done → rest = []) : Complete t slots := by
  -- Along the links: the check and the turn want the same next, and `front` tells where a semicolon is due.
  induction hlower generalizing front wanting last t with
  | nil =>
    cases wanting with
    | false => exact .nil ht
    | true =>
      cases last with
      | none => exact absurd rfl (hlast rfl rfl)
      | some o =>
        rw [Chain.checkFrom] at hcheck
        cases hcheck
  | @cons link slot rest slots hlink hrest ih =>
    have hclosed' : Chain.IsClosed (front ++ [link] ++ rest) := by simpa using hclosed
    cases hlink with
    | @operand content span e he =>
      obtain ⟨rfl, hcheck⟩ := Chain.checkFrom_operand_iff.mp hcheck
      by_cases hsemi : content = .atom .semicolon
      · -- a semicolon ends the list
        subst hsemi
        obtain ⟨rfl, hfront⟩ := hclosed front span rest rfl
        cases hrest
        have hclose := hclosing hfront rfl
        subst hclose
        refine complete_cons.mpr ⟨.done, ?_, .nil rfl⟩
        simp [Turn.next, (isSemicolon_of_ofOperand he).mpr rfl]
      · have hn : e.isSemicolon = false :=
          Bool.eq_false_iff.mpr fun h => hsemi ((isSemicolon_of_ofOperand he).mp h)
        refine complete_cons.mpr ⟨.operator, Turn.next_node ht hn, ?_⟩
        exact ih _ hclosed' hcheck rfl (fun h => by cases h) (fun _ h => by cases h)
          (fun h => by cases h)
    | operator o =>
      obtain ⟨w, hw, hcheck⟩ := Chain.checkFrom_operator_iff.mp hcheck
      -- only the operator in front of a semicolon is the one of a semicolon
      have hop : ∀ {inner s}, front ++ [.operator o] = inner ++ [.operator ⟨.bond .semicolon, s⟩] →
          o.op = .bond .semicolon := by
        intro inner s heq
        cases List.singleton_inj.mp (List.append_inj_right' heq rfl)
        rfl
      cases wanting with
      | true =>
        obtain ⟨hbefore, rfl⟩ := Chain.wantsBehind_true_iff.mp hw
        refine complete_cons.mpr ⟨.operand, (Turn.next_operator_of_wants ht).mpr ⟨hbefore, rfl⟩, ?_⟩
        refine ih _ hclosed' hcheck rfl (fun _ _ => by simp) ?_ (fun h => by cases h)
        rintro ⟨inner, s, heq⟩ -
        rw [hop heq] at hbefore
        cases hbefore
      | false =>
        -- No operand is wanted, and more is to come, so the turn is that of an operator.
        have htop : t = .operator := by
          cases t with
          | operand | closing => cases ht
          | operator => rfl
          | done => cases hdone rfl
        subst htop
        obtain ⟨hbinary, rfl⟩ | ⟨hbinary, hafter, rfl⟩ := Chain.wantsBehind_false_iff.mp hw
        · refine complete_cons.mpr ⟨if o.op = .bond .semicolon then .closing else .operand, ?_, ?_⟩
          · simp [Turn.next, hbinary]
          · refine ih _ hclosed' hcheck ?_ (fun _ _ => by simp) ?_ ?_
            · split <;> rfl
            · rintro ⟨inner, s, heq⟩ -
              rw [if_pos (hop heq)]
            · intro h
              split at h <;> cases h
        · refine complete_cons.mpr ⟨.operator, ?_, ?_⟩
          · simp [Turn.next, hbinary, hafter]
          · exact ih _ hclosed' hcheck rfl (fun h => by cases h) (fun _ h => by cases h)
              (fun h => by cases h)

/-- **What the check lets through is shaped**, if semicolons stand last. -/
theorem shaped_of_checkShape {span : Span} (h : slotsOf limit chain = .ok slots)
    (hcheck : Chain.checkShape chain = .ok span) (hclosed : chain.IsClosed) : Shaped slots := by
  unfold Chain.checkShape at hcheck
  split at hcheck
  · cases hcheck
  · rename_i s hs
    obtain ⟨⟨⟩, hcheck, -⟩ := bind_ok_iff.mp hcheck
    refine complete_of_checkFrom [] (slotsOf_ok h) hclosed hcheck rfl ?_ ?_
      (fun h => by cases h)
    · rintro - rfl
      cases hs
    · rintro ⟨inner, s, heq⟩
      simp at heq

/-- A chain with an expression has the right shape, its operands have theirs, and they are
reduced. -/
theorem assemble_ok (h : assemble limit chain (slotsOf limit chain) = .ok t) :
    ∃ span slots, Chain.checkShape chain = .ok span ∧ slotsOf limit chain = .ok slots ∧
      Reading.reduce limit span slots = .ok t := by
  obtain ⟨span, hspan, h⟩ := bind_ok_iff.mp h
  obtain ⟨slots, hslots, h⟩ := bind_ok_iff.mp h
  exact ⟨span, slots, hspan, hslots, h⟩

/-! ## §5 Faults -/

theorem checkFrom_faultless (wanting : Bool) (last : Option Operator) (chain : Chain) :
    Faultless (Chain.checkFrom wanting last chain) := by
  fun_induction Chain.checkFrom wanting last chain <;>
    first | exact Faultless.refuse _ | exact Faultless.ok _ | assumption

theorem checkShape_faultless (chain : Chain) : Faultless (Chain.checkShape chain) := by
  unfold Chain.checkShape
  split
  · exact Faultless.refuse _
  · exact Faultless.bind (checkFrom_faultless _ _ _) fun _ _ => Faultless.ok _

theorem assemble_faultless (hg : chain.IsGrouped)
    (hslots : Faultless (slotsOf limit chain)) :
    Faultless (assemble limit chain (slotsOf limit chain)) := by
  refine Faultless.bind (checkShape_faultless chain) fun span hspan => ?_
  refine Faultless.bind hslots fun slots h => ?_
  refine reduce_faultless limit span (shaped_of_checkShape h hspan hg.closed) fun o ho => ?_
  exact hg.bare o (mem_of_operator_slot (slotsOf_ok h) ho)

open Chain in
mutual
theorem slotsOf_faultless : ∀ chain : List Link, Inside IsGrouped chain →
    Faultless (slotsOf limit chain)
  | [], _ => by
    rw [slotsOf]
    exact Faultless.ok _
  | .operator o :: rest, h => by
    rw [slotsOf]
    exact Faultless.bind (slotsOf_faultless rest (inside_operator_iff.mp h)) fun _ _ => Faultless.ok _
  | .operand content span :: rest, h => by
    obtain ⟨hcontent, hrest⟩ := inside_operand_iff.mp h
    rw [slotsOf]
    exact Faultless.bind (ofOperand_faultless span content hcontent) fun _ _ =>
      Faultless.bind (slotsOf_faultless rest hrest) fun _ _ => Faultless.ok _
theorem ofOperand_faultless (span : Span) : ∀ content : Operand, InsideOperand IsGrouped content →
    Faultless (ofOperand limit span content)
  | .atom a, _ => by
    rw [ofOperand]
    exact Faultless.ok _
  | .block kind base inner, h => by
    rw [ofOperand]
    exact Faultless.bind (ofChains_faultless inner h.chains) fun _ _ => Faultless.ok _
  | .escape inner, h => by
    rw [ofOperand]
    exact Faultless.bind (ofChains_faultless inner h.chains) fun _ _ => Faultless.ok _
  | .istring pieces, h => by
    rw [ofOperand]
    exact Faultless.bind (piecesOf_faultless pieces (insideOperand_istring_iff.mp h)) fun _ _ =>
      Faultless.ok _
  | .flow arms none, h => by
    obtain ⟨harms, -⟩ := List.forall_mem_append.mp h.chains
    rw [ofOperand]
    exact Faultless.bind (armsOf_faultless arms harms) fun _ _ => Faultless.ok _
  | .flow arms (some otherwise), h => by
    obtain ⟨harms, hlast⟩ := List.forall_mem_append.mp h.chains
    obtain ⟨hgrouped, hinside⟩ := List.forall_mem_singleton.mp hlast
    rw [ofOperand]
    exact Faultless.bind (armsOf_faultless arms harms) fun _ _ =>
      Faultless.bind (assemble_faultless hgrouped (slotsOf_faultless otherwise hinside)) fun _ _ =>
        Faultless.ok _
  | .declare k target, h => by
    obtain ⟨hgrouped, hinside⟩ := List.forall_mem_singleton.mp h.chains
    rw [ofOperand]
    exact Faultless.bind (assemble_faultless hgrouped (slotsOf_faultless target hinside)) fun _ _ =>
      Faultless.ok _
  | .keyword k none, _ => by
    rw [ofOperand]
    exact Faultless.ok _
  | .keyword k (some operand), h => by
    obtain ⟨hgrouped, hinside⟩ := List.forall_mem_singleton.mp h.chains
    rw [ofOperand]
    exact Faultless.bind (assemble_faultless hgrouped (slotsOf_faultless operand hinside)) fun _ _ =>
      Faultless.ok _
theorem ofChains_faultless : ∀ chains : List (List Link), EveryChain IsGrouped chains →
    Faultless (ofChains limit chains)
  | [], _ => by
    rw [ofChains]
    exact Faultless.ok _
  | chain :: chains, h => by
    obtain ⟨⟨hgrouped, hinside⟩, hrest⟩ := List.forall_mem_cons.mp h
    rw [ofChains]
    exact Faultless.bind (assemble_faultless hgrouped (slotsOf_faultless chain hinside)) fun _ _ =>
      Faultless.bind (ofChains_faultless chains hrest) fun _ _ => Faultless.ok _
theorem piecesOf_faultless : ∀ pieces : List Chain.Piece, InsidePieces IsGrouped pieces →
    Faultless (piecesOf limit pieces)
  | [], _ => by
    rw [piecesOf]
    exact Faultless.ok _
  | .text t :: rest, h => by
    rw [piecesOf]
    exact Faultless.bind (piecesOf_faultless rest (insidePieces_text_iff.mp h)) fun _ _ =>
      Faultless.ok _
  | .hole content span :: rest, h => by
    obtain ⟨hcontent, hrest⟩ := insidePieces_hole_iff.mp h
    rw [piecesOf]
    exact Faultless.bind (ofOperand_faultless span content hcontent) fun _ _ =>
      Faultless.bind (piecesOf_faultless rest hrest) fun _ _ => Faultless.ok _
theorem armsOf_faultless : ∀ arms : List Chain.Arm,
    EveryChain IsGrouped (arms.flatMap Chain.Arm.chains) → Faultless (armsOf limit arms)
  | [], _ => by
    rw [armsOf]
    exact Faultless.ok _
  | .mk k condition clause :: rest, h => by
    obtain ⟨⟨hc, hci⟩, h⟩ := List.forall_mem_cons.mp h
    obtain ⟨⟨ha, hai⟩, hrest⟩ := List.forall_mem_cons.mp h
    rw [armsOf]
    exact Faultless.bind (assemble_faultless hc (slotsOf_faultless condition hci)) fun _ _ =>
      Faultless.bind (assemble_faultless ha (slotsOf_faultless clause hai)) fun _ _ =>
        Faultless.bind (armsOf_faultless rest hrest) fun _ _ => Faultless.ok _
end

/-- **A sound chain has its expression or is refused.** -/
theorem ofChain_faultless (config : ParseConfig) (h : chain.Sound) :
    Faultless (ofChain config chain) :=
  assemble_faultless h.1 (slotsOf_faultless chain h.2)

end Expr

end DewyFront
