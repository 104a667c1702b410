/-
# DewyFront.Proofs.PlacedExprs — the spans of a tree nest

What stands for an operand stands where the operand does, and encloses the expressions of the chains
inside. So the order of the items of a source is kept to the end: in every tree, at every depth, a node
covers its operator and its parts, an operator stands between its operands, and whatever stands in a row
stands one behind the other. All of it begins and ends between characters of the source.

* §1 the shape of a chain;
* §2 chains to expressions;
* §3 sources.
-/
import DewyFront.Proofs.Layout
import DewyFront.Proofs.PlacedChains
import DewyFront.Proofs.PlacedSlots
import DewyFront.Proofs.Totality

namespace DewyFront

open Chain Reduction

variable {p : Nat → Prop} {lo hi : Nat}

/-! ## §1 Shape -/

namespace Chain

variable {chain : Chain}

theorem on_checkFrom {wanting : Bool} {last : Option Operator} (hlast : ∀ o ∈ last, o.span.On p)
    (h : ∀ link ∈ chain, link.span.On p) : EndsOn p (fun _ => True) (checkFrom wanting last chain) := by
  induction chain generalizing wanting last with
  | nil =>
    unfold checkFrom
    split
    · next o => exact ParseError.on_missingOperand (hlast o rfl)
    · trivial
  | cons link rest ih =>
    obtain ⟨hlink, hrest⟩ := List.forall_mem_cons.mp h
    cases link with
    | operand content span =>
      unfold checkFrom
      split
      · exact ih hlast hrest
      · exact ParseError.on_of_spans_eq rfl hlink
    | operator o =>
      have hnext : ∀ o' ∈ some o, o'.span.On p := fun o' ho' => Option.mem_some_iff.mp ho' ▸ hlink
      unfold checkFrom
      split
      · split
        · exact ih hnext hrest
        · exact ParseError.on_of_spans_eq rfl hlink
      · split
        · exact ih hnext hrest
        · split
          · exact ih hnext hrest
          · exact ParseError.on_of_spans_eq rfl hlink

/-- **The links of a chain that is well shaped stand where the chain does.** -/
theorem links_checkShape (hzero : p 0) (h : Links p lo hi chain) :
    EndsOn p (fun span => span.On p ∧ Links p span.start span.stop chain ∧
      (Span.mk lo hi).Covers span) (checkShape chain) := by
  unfold checkShape
  split
  · exact ParseError.on_of_spans_eq rfl (Span.on_point hzero)
  · next span hspan =>
    have hcheck : EndsOn p (fun _ => True) (checkFrom true none chain) :=
      on_checkFrom (by simp) fun link hlink => (h.of_mem hlink).1
    refine hcheck.bind fun _ _ => ?_
    obtain ⟨first, hfirst, hspan⟩ := Option.bind_eq_some_iff.mp hspan
    obtain ⟨last, hlast, hspan⟩ := Option.bind_eq_some_iff.mp hspan
    cases hspan
    obtain ⟨htight, hmerge, -, -⟩ := h.tighten hfirst hlast
    have hfirst := h.of_mem (List.mem_of_head? hfirst)
    have hlast := h.of_mem (List.mem_of_getLast? hlast)
    refine ⟨hfirst.1.merge hlast.1, ?_, hfirst.2.1.merge hlast.2.1⟩
    rw [hmerge]
    exact htight

end Chain

/-! ## §2 Expressions -/

namespace Expr

variable {limit : Nat}

/-- An expression that encloses others is in place if they are in place between its ends. -/
theorem placed_of_parts {node : Expr} (hon : node.span.On p) (hoperator : node.operator? = none)
    (hparts : ∀ e ∈ node.parts, Between p node.span.start node.span.stop e)
    (hordered : node.Ordered p) : node.Placed p := by
  refine .intro ⟨hon, ?_, fun e he => (hparts e he).2, hordered⟩ fun e he => (hparts e he).1
  rw [hoperator]
  exact fun o ho => nomatch ho

/-- Expressions in order are between the ends that they are in order between. -/
theorem between_of_inOrder {es : List Expr} (h : InOrder p Expr.span (Expr.Placed p) lo hi es) :
    ∀ e ∈ es, Between p lo hi e := fun _ he => ⟨(h.of_mem he).2.2, (h.of_mem he).2.1⟩

/-- A chain whose operands are in place is reduced to an expression in place. -/
theorem between_assemble {chain : Chain} (hzero : p 0) (hsound : chain.Sound)
    (h : Span.Ascends p lo hi (chain.map Link.span) ∧ Chain.Placed p chain)
    (hslots : Inside IsGrouped chain → (∀ link ∈ chain, link.span.On p) → Chain.Placed p chain →
      EndsOn p (fun slots => slots.map Slot.span = chain.map Link.span ∧ ∀ s ∈ slots, s.Placed p)
        (slotsOf limit chain)) :
    EndsOn p (Between p lo hi) (assemble limit chain (slotsOf limit chain)) := by
  have hlinks := links_iff.mpr h
  have hslots := hslots hsound.2 (fun link hlink => (hlinks.of_mem hlink).1) h.2
  unfold assemble
  -- The links stand where the span of the chain is, and the slots stand where the links do.
  refine (links_checkShape hzero hlinks).attach.bind fun span ⟨⟨hon, hlinks, hcovers⟩, hcheck⟩ => ?_
  refine hslots.attach.bind fun slots ⟨⟨hspans, hplaced⟩, hslots⟩ => ?_
  have hstood : Stood p span.start span.stop slots :=
    ⟨shaped_of_checkShape hslots hcheck hsound.1.closed, hspans ▸ hlinks.ascends, hplaced⟩
  exact (Reading.between_reduce hon hstood).mono fun e he => ⟨he.1, hcovers.trans he.2⟩

mutual
theorem placed_slotsOf (hzero : p 0) : ∀ {chain : List Link}, Inside IsGrouped chain →
    (∀ link ∈ chain, link.span.On p) → Chain.Placed p chain →
      EndsOn p (fun slots => slots.map Slot.span = chain.map Link.span ∧ ∀ s ∈ slots, s.Placed p)
        (slotsOf limit chain)
  | [], _, _, _ => by
    rw [slotsOf]
    exact ⟨rfl, fun s hs => nomatch hs⟩
  | .operator o :: rest, hs, hon, h => by
    rw [Chain.Placed] at h
    rw [slotsOf]
    refine (placed_slotsOf hzero (inside_operator_iff.mp hs) (List.forall_mem_cons.mp hon).2 h).bind
      fun slots hslots => ?_
    exact ⟨congrArg _ hslots.1, List.forall_mem_cons.mpr ⟨trivial, hslots.2⟩⟩
  | .operand content span :: rest, hs, hon, h => by
    obtain ⟨hcontent, hs⟩ := inside_operand_iff.mp hs
    rw [Chain.Placed] at h
    obtain ⟨hspan, hrest⟩ := List.forall_mem_cons.mp hon
    rw [slotsOf]
    refine (placed_ofOperand hzero hspan hcontent h.1).bind fun e ⟨he, heq⟩ => ?_
    refine (placed_slotsOf hzero hs hrest h.2).bind fun slots hslots => ?_
    refine ⟨?_, List.forall_mem_cons.mpr ⟨he, hslots.2⟩⟩
    rw [List.map_cons, List.map_cons, hslots.1]
    exact congrArg (· :: _) heq
/-- **An operand stands where its link does**, and what is inside is in place. -/
theorem placed_ofOperand (hzero : p 0) {span : Span} (hspan : span.On p) :
    ∀ {content : Operand}, InsideOperand IsGrouped content → PlacedOperand p span.start span.stop content →
      EndsOn p (fun e => e.Placed p ∧ e.span = span) (ofOperand limit span content)
  | .atom _, _, _ | .keyword _ none, _, _ => by
    rw [ofOperand]
    exact ⟨placed_of_parts hspan rfl (fun e he => nomatch he) trivial, rfl⟩
  | .block _ _ inner, hs, h | .escape inner, hs, h => by
    rw [PlacedOperand] at h
    rw [ofOperand]
    refine (inOrder_ofChains hzero hs.chains h).bind fun es hes => ?_
    exact ⟨placed_of_parts hspan rfl (between_of_inOrder hes) hes.ascends, rfl⟩
  | .istring pieces, hs, h => by
    rw [PlacedOperand] at h
    rw [ofOperand]
    refine (between_piecesOf hzero (insideOperand_istring_iff.mp hs) h).bind fun pieces hpieces => ?_
    exact ⟨placed_of_parts hspan rfl hpieces trivial, rfl⟩
  | .flow arms none, hs, h => by
    obtain ⟨hs, -⟩ := List.forall_mem_append.mp hs.chains
    rw [PlacedOperand] at h
    rw [ofOperand]
    refine (between_armsOf hzero hs h).bind fun arms harms => ?_
    refine ⟨placed_of_parts hspan rfl ?_ trivial, rfl⟩
    exact List.forall_mem_append.mpr ⟨harms, fun e he => nomatch he⟩
  | .flow arms (some otherwise), hs, h => by
    obtain ⟨hs, hlast⟩ := List.forall_mem_append.mp hs.chains
    rw [PlacedOperand] at h
    rw [ofOperand]
    refine (between_armsOf hzero hs h.1).bind fun arms harms => ?_
    refine (between_assemble hzero (List.forall_mem_singleton.mp hlast) h.2
      (placed_slotsOf hzero)).bind fun e he => ?_
    refine ⟨placed_of_parts hspan rfl ?_ trivial, rfl⟩
    exact List.forall_mem_append.mpr ⟨harms, List.forall_mem_singleton.mpr he⟩
  | .declare k target, hs, h => by
    rw [PlacedOperand] at h
    rw [ofOperand]
    refine (between_assemble hzero (List.forall_mem_singleton.mp hs.chains) h
      (placed_slotsOf hzero)).bind fun e he => ?_
    exact ⟨placed_of_parts hspan rfl (List.forall_mem_singleton.mpr he) trivial, rfl⟩
  | .keyword k (some operand), hs, h => by
    rw [PlacedOperand] at h
    rw [ofOperand]
    refine (between_assemble hzero (List.forall_mem_singleton.mp hs.chains) h
      (placed_slotsOf hzero)).bind fun e he => ?_
    exact ⟨placed_of_parts hspan rfl (List.forall_mem_singleton.mpr he) trivial, rfl⟩
/-- **The expressions of chains in order are in order.** -/
theorem inOrder_ofChains (hzero : p 0) {lo hi : Nat} : ∀ {chains : List (List Link)},
    EveryChain IsGrouped chains → Chain.PlacedAll p lo hi chains →
      EndsOn p (InOrder p Expr.span (Expr.Placed p) lo hi) (ofChains limit chains)
  | [], _, h => by
    rw [Chain.PlacedAll] at h
    rw [ofChains]
    exact InOrder.nil h
  | chain :: chains, hs, h => by
    obtain ⟨hsound, hs⟩ := List.forall_mem_cons.mp hs
    rw [Chain.PlacedAll] at h
    obtain ⟨middle, hchain, hchains⟩ := h
    rw [ofChains]
    refine (between_assemble hzero hsound hchain (placed_slotsOf hzero)).bind fun e he => ?_
    refine (inOrder_ofChains hzero hs hchains).bind fun es hes => ?_
    exact InOrder.cons_iff.mpr ⟨he.2.start, he.1.on, he.1, hes.mono he.2.stop le_rfl⟩
theorem between_piecesOf (hzero : p 0) {lo hi : Nat} : ∀ {pieces : List Chain.Piece},
    InsidePieces IsGrouped pieces → PlacedPieces p lo hi pieces →
      EndsOn p (fun pieces => ∀ e ∈ pieces.filterMap Piece.content?, Between p lo hi e)
        (piecesOf limit pieces)
  | [], _, _ => by
    rw [piecesOf]
    exact fun e he => nomatch he
  | .text t :: rest, hs, h => by
    rw [PlacedPieces] at h
    rw [piecesOf]
    exact (between_piecesOf hzero (insidePieces_text_iff.mp hs) h).bind fun _ hpieces => hpieces
  | .hole content span :: rest, hs, h => by
    obtain ⟨hcontent, hs⟩ := insidePieces_hole_iff.mp hs
    rw [PlacedPieces] at h
    rw [piecesOf]
    refine (placed_ofOperand hzero h.1.1 hcontent h.1.2.2).bind fun e ⟨he, heq⟩ => ?_
    refine (between_piecesOf hzero hs h.2).bind fun pieces hpieces => ?_
    exact List.forall_mem_cons.mpr ⟨⟨he, heq ▸ h.1.2.1⟩, hpieces⟩
theorem between_armsOf (hzero : p 0) {lo hi : Nat} : ∀ {arms : List Chain.Arm},
    EveryChain IsGrouped (arms.flatMap Chain.Arm.chains) → PlacedArms p lo hi arms →
      EndsOn p (fun arms => ∀ e ∈ arms.flatMap Arm.parts, Between p lo hi e) (armsOf limit arms)
  | [], _, _ => by
    rw [armsOf]
    exact fun e he => nomatch he
  | .mk k condition clause :: rest, hs, h => by
    obtain ⟨hcondition, hs⟩ := List.forall_mem_cons.mp hs
    obtain ⟨hclause, hs⟩ := List.forall_mem_cons.mp hs
    rw [PlacedArms] at h
    rw [armsOf]
    refine (between_assemble hzero hcondition h.1 (placed_slotsOf hzero)).bind fun c hc => ?_
    refine (between_assemble hzero hclause h.2.1 (placed_slotsOf hzero)).bind fun e he => ?_
    refine (between_armsOf hzero hs h.2.2).bind fun arms harms => ?_
    exact List.forall_mem_cons.mpr ⟨hc, List.forall_mem_cons.mpr ⟨he, harms⟩⟩
end

variable {config : ParseConfig} {chains : List Chain}

/-- **The expression of a chain is in place**, or the chain is refused for some of the places. -/
theorem between_ofChain {chain : Chain} (hzero : p 0) (hsound : chain.Sound)
    (h : Span.Ascends p lo hi (chain.map Link.span) ∧ Chain.Placed p chain) :
    EndsOn p (Between p lo hi) (ofChain config chain) :=
  between_assemble hzero hsound h (placed_slotsOf hzero)

/-- **`AllEndOn`** — outcomes whose results are in order, or whose refusals are all about some of the
places. -/
structure AllEndOn (p : Nat → Prop) (lo hi : Nat)
    (xs : Except (Failure (List ParseError)) (List Expr)) : Prop where
  ok : ∀ es, xs = .ok es → InOrder p Expr.span (Expr.Placed p) lo hi es
  refused : ∀ causes, xs = refuse causes → causes ≠ [] ∧ ∀ cause ∈ causes, cause.On p

theorem AllEndOn.combine {middle : Nat} {x : Except (Failure ParseError) Expr}
    {xs : Except (Failure (List ParseError)) (List Expr)} (hx : EndsOn p (Between p lo middle) x)
    (hxs : AllEndOn p middle hi xs) : AllEndOn p lo hi (combine x xs) := by
  -- a fault of either side leaves nothing to show: it is neither a result nor a refusal
  rcases x with (cause | fault) | e <;> rcases xs with (causes | fault') | es <;>
    refine ⟨fun es' hes' => ?_, fun causes' hcauses' => ?_⟩ <;> first | cases hes' | cases hcauses'
  · exact ⟨List.cons_ne_nil _ _, List.forall_mem_cons.mpr ⟨hx, (hxs.refused _ rfl).2⟩⟩
  · exact ⟨List.cons_ne_nil _ _, List.forall_mem_singleton.mpr hx⟩
  · exact hxs.refused _ rfl
  · exact InOrder.cons_iff.mpr
      ⟨hx.2.start, hx.1.on, hx.1, (hxs.ok _ rfl).mono hx.2.stop le_rfl⟩

/-- **The expressions of a source are in order**, each in place, or every cause to refuse one is about
some of the places. -/
theorem allEndOn_ofAll (hzero : p 0) (hsound : ∀ chain ∈ chains, chain.Sound)
    (h : Chain.PlacedAll p lo hi chains) : AllEndOn p lo hi (ofAll config chains) := by
  induction chains generalizing lo with
  | nil =>
    rw [Chain.PlacedAll] at h
    refine ⟨fun es hes => ?_, fun causes hcauses => nomatch hcauses⟩
    cases hes
    exact .nil h
  | cons chain chains ih =>
    obtain ⟨hfirst, hrest⟩ := List.forall_mem_cons.mp hsound
    rw [Chain.PlacedAll] at h
    obtain ⟨middle, hchain, hchains⟩ := h
    exact .combine (between_ofChain hzero hfirst hchain) (ih hrest hchains)

end Expr

/-! ## §3 Sources -/

variable {config : ParseConfig} {s : Source}

/-- **The spans of a tree nest.** In every tree of a source, at every depth, a node covers its operator
and its parts, an operator stands between its operands, and what stands in a row stands one behind the
other, as the trees themselves do. All of it begins and ends between characters. -/
theorem Source.placed_of_parse {parsed : Parsed} (h : s.parse config = .ok parsed) :
    (∀ e ∈ parsed.items, e.Placed (IsBoundary s.text)) ∧
      Span.Ascends (IsBoundary s.text) 0 s.size (parsed.items.map Expr.span) := by
  obtain ⟨l, hl, h⟩ := bind_ok_iff.mp h
  obtain ⟨chains, hchains, h⟩ := bind_ok_iff.mp h
  obtain ⟨es, hes, h⟩ := bind_ok_iff.mp h
  cases h
  have hzero : IsBoundary s.text 0 := ⟨[], s.text, rfl, rfl⟩
  have hsound := Lexed.chains_sound hl hchains
  rw [Lexed.chains_eq] at hchains
  obtain ⟨settled, hsettled, hgrouped⟩ := bind_ok_iff.mp (mapError_ok_iff.mp hchains)
  have hlevel := (Tree.level_settle (Lexed.level hl)).of_eq_ok hsettled
  have hplaced := (Chain.placed_ofTrees hlevel).of_eq_ok hgrouped
  have horder := (Expr.allEndOn_ofAll hzero hsound hplaced).ok es (mapError_ok_iff.mp hes)
  exact ⟨horder.all, horder.ascends⟩

/-- An assignment of a conditional with a power of a call, a string with an empty hole and a range
without bounds, and a list behind it. -/
theorem Source.placed_of_parse_of_conditional :
    let s : Source := ⟨['q', ' ', '=', ' ', 'i', 'f', ' ', 'f', '(', 'y', ')', '^', '2', ' ', '"', 'a', '\x7b',
      '\x7d', '\x7b', 'x', '\x7d', '"', ' ', 'e', 'l', 's', 'e', ' ', '[', '.', '.', ']', ' ', 'z',
      ',', '1', ',', 'w'], none⟩
    ∃ parsed, s.parse default = .ok parsed ∧ parsed.items.length = 2 ∧
      (∀ e ∈ parsed.items, e.Placed (IsBoundary s.text)) ∧
      Span.Ascends (IsBoundary s.text) 0 38 (parsed.items.map Expr.span) := by
  intro s
  have htwo : (s.parse default).toOption.map (·.items.length) = some 2 := by decide +kernel
  obtain ⟨parsed, hparsed, hlength⟩ := Option.map_eq_some_iff.mp htwo
  have hparsed := toOption_eq_some_iff.mp hparsed
  exact ⟨parsed, hparsed, hlength, Source.placed_of_parse hparsed⟩

end DewyFront
