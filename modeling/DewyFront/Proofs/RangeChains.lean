/-
# DewyFront.Proofs.RangeChains — grouping leaves ranges in one chain

A range joint is a binary operator. So a chain goes on where a range does: it ends in front of no joint,
and no keyword and no operator takes a bound out of a range. What takes turns as items does so as the
links of the chains that are made of them, at every depth.

* §1 words and links;
* §2 derivations;
* §3 items.
-/
import DewyFront.Proofs.RangeTurns
import DewyFront.Proofs.Throughout
import DewyFront.Proofs.WellShaped

namespace DewyFront

namespace Chain

/-! ## §1 Words and links -/

/-- What an operand is to the ranges beside it. -/
def Operand.rangeRole : Operand → RangeRole
  | .atom .rangeMark => .mark
  | _ => .other

/-- What a link is to the ranges beside it. -/
def Link.rangeRole : Link → RangeRole
  | .operator o => o.op.rangeRole
  | .operand content _ => content.rangeRole

/-- What a word is to the ranges beside it. -/
def Word.rangeRole : Word → RangeRole
  | .operator op _ => op.rangeRole
  | .operand (.ok content) _ => content.rangeRole
  | _ => .other

/-- Whether the links of a chain take turns. -/
def KeepsTurns (chain : Chain) : Prop := TakeTurns (chain.map Link.rangeRole)

/-- What is inside of a chain keeps the turns of its ranges. -/
abbrev Operand.Regular (content : Operand) : Prop := content.Within KeepsTurns Operand.Encloses

/-- A word holds nothing, or an operand that is regular inside. -/
abbrev Word.Regular (word : Word) : Prop := word.Within KeepsTurns Operand.Encloses

/-- **`Follows`** — the words that are left take turns behind what has been read of a range, and they
are regular inside. -/
structure Cursor.Follows (t : RangeTurn) (c : Cursor) : Prop where
  turns : t.follow (c.words.map Word.rangeRole) = some .free
  regular : ∀ word ∈ c.words, word.Regular

variable {c c' : Cursor} {chain front back : Chain} {chains : List Chain} {t u : RangeTurn} {word : Word}
  {words : List Word}

theorem rangeRole_of_isBefore (op : Op) (h : op.isBefore = true) : op.rangeRole = .other :=
  Tree.rangeRole_of_isJoint (Tree.isJoint_of_isBefore h)

theorem rangeRole_of_isOnlyAfter (op : Op) (h : isOnlyAfter op = true) : op.rangeRole = .other := by
  refine Op.rangeRole_of_ne ?_
  rintro rfl
  cases h

theorem Cursor.Follows.of_cons {rest : List Word} (h : c.Follows t) (hwords : c.words = word :: rest)
    (stop : Span) : word.Regular ∧ ∃ u, t.next word.rangeRole = some u ∧ (Cursor.mk rest stop).Follows u := by
  obtain ⟨hturns, hregular⟩ := h
  rw [hwords] at hturns hregular
  obtain ⟨hword, hrest⟩ := List.forall_mem_cons.mp hregular
  rw [List.map_cons, RangeTurn.follow_cons] at hturns
  obtain ⟨u, hu, hturns⟩ := Option.bind_eq_some_iff.mp hturns
  exact ⟨hword, u, hu, hturns, hrest⟩

/-- **`Conducts`** — links lead from one turn to another, in front of the words that are left. -/
structure Conducts (t : RangeTurn) (chain : Chain) (u : RangeTurn) (c' : Cursor) : Prop where
  turns : t.follow (chain.map Link.rangeRole) = some u
  regular : ∀ content ∈ operands chain, content.Regular
  rest : c'.Follows u

theorem Conducts.nil (h : c.Follows t) : Conducts t [] t c := ⟨rfl, fun _ h => (nomatch h), h⟩

theorem Conducts.append {v : RangeTurn} (hfront : Conducts t front u c) (hback : Conducts u back v c') :
    Conducts t (front ++ back) v c' where
  turns := by
    rw [List.map_append, RangeTurn.follow_append_eq hfront.turns]
    exact hback.turns
  regular := by
    rw [operands_append]
    exact List.forall_mem_append.mpr ⟨hfront.regular, hback.regular⟩
  rest := hback.rest

theorem Conducts.operator {o : Operator} (hnext : t.next o.op.rangeRole = some u) (h : c.Follows u) :
    Conducts t [.operator o] u c where
  turns := Option.bind_eq_some_iff.mpr ⟨u, hnext, rfl⟩
  regular _ hcontent := nomatch hcontent
  rest := h

theorem Conducts.operand {content : Operand} {span : Span} (hregular : content.Regular)
    (hnext : t.next content.rangeRole = some u) (h : c.Follows u) :
    Conducts t [.operand content span] u c where
  turns := Option.bind_eq_some_iff.mpr ⟨u, hnext, rfl⟩
  regular := List.forall_mem_singleton.mpr hregular
  rest := h

theorem Conducts.filled (h : Conducts .free chain .free c') : chain.Filled KeepsTurns Operand.Encloses :=
  ⟨h.turns, h.regular⟩

/-- Operators that join no range do not begin one. -/
theorem conducts_operators {p : Op → Bool} (hp : ∀ op, p op = true → op.rangeRole = .other)
    (h : c.Follows t) : ∃ u, (u = t ∨ u = .free) ∧
      Conducts t ((takeOperators p c.stop c.words).1.map .operator) u (takeOperators p c.stop c.words).2 := by
  have hwords := takeOperators_words p c.stop c.words
  have hothers := fun o => @of_mem_takeOperators p c.stop c.words o
  generalize takeOperators p c.stop c.words = taken at hwords hothers ⊢
  obtain ⟨os, c'⟩ := taken
  dsimp only at hwords hothers ⊢
  induction os generalizing c t with
  | nil =>
    have hwords : c.words = c'.words := hwords
    exact ⟨t, .inl rfl, .nil ⟨hwords ▸ h.turns, hwords ▸ h.regular⟩⟩
  | cons o os ih =>
    obtain ⟨-, u, hu, hrest⟩ := h.of_cons hwords .nowhere
    have ho : o.op.rangeRole = .other := hp o.op (hothers o List.mem_cons_self)
    have hnext : t.next o.op.rangeRole = some u := hu
    obtain ⟨v, hv, hconducts⟩ := ih hrest rfl fun o ho => hothers o (List.mem_cons_of_mem _ ho)
    refine ⟨v, .inr ?_, (Conducts.operator hnext hrest).append hconducts⟩
    rw [ho] at hnext
    obtain ⟨-, rfl⟩ := RangeTurn.next_other.mp hnext
    exact hv.elim id id

/-! ## §2 Derivations -/

theorem conducts_takeSemicolon (h : c.Follows .free) :
    Conducts .free (takeSemicolon c).1 .free (takeSemicolon c).2 := by
  unfold takeSemicolon
  split
  · next span rest hwords =>
    obtain ⟨-, u, hu, hrest⟩ := h.of_cons hwords span.endPoint
    cases hu
    exact ⟨rfl, List.forall_mem_singleton.mpr (Operand.within_atom _), hrest⟩
  · exact .nil h

theorem Operand.rangeRole_ne_joint (content : Operand) : content.rangeRole ≠ .joint := by
  unfold Operand.rangeRole
  split <;> exact RangeRole.noConfusion

/-- Behind an operand a range has not begun, or its mark was the operand. -/
theorem Operand.turn_of_next {content : Operand} (h : t.next content.rangeRole = some u) :
    u = .free ∨ u = .marked := by
  have hnot := (not_congr (RangeTurn.joint_iff h)).mp content.rangeRole_ne_joint
  cases u <;> simp at hnot ⊢

theorem Word.eq_of_joint (h : word.rangeRole = .joint) : ∃ span, word = .operator (.bond .range) span := by
  unfold Word.rangeRole at h
  split at h
  · exact ⟨_, by rw [Op.rangeRole_eq_joint.mp h]⟩
  · next content _ => exact absurd h content.rangeRole_ne_joint
  · cases h

/-- Behind a range mark comes a joint. -/
theorem Cursor.Follows.exists_joint (h : c.Follows .marked) :
    ∃ span rest, c.words = .operator (.bond .range) span :: rest := by
  cases hwords : c.words with
  | nil =>
    have hturns := h.turns
    rw [hwords] at hturns
    cases hturns
  | cons word rest =>
    obtain ⟨-, u, hu, -⟩ := h.of_cons hwords .nowhere
    obtain ⟨span, rfl⟩ := Word.eq_of_joint (RangeTurn.joint_of_marked hu)
    exact ⟨span, rest, rfl⟩

theorem Word.rangeRole_of_isElse (h : word.isElse = true) : word.rangeRole = .other := by
  cases word <;> first | rfl | cases h

mutual
/-- **A chain takes turns**, and so do the words behind it. -/
theorem Groups.conducts : ∀ {c : Cursor} {chain : Chain} {c' : Cursor}, Groups c chain c' →
    c.Follows .free → Conducts .free chain .free c'
  | _, _, _, .alone, h => by
    obtain ⟨-, u, hu, hrest⟩ := h.of_cons rfl .nowhere
    exact .operand (Operand.within_atom _) rfl ⟨rfl, fun _ h => (nomatch h)⟩
  | _, _, _, .chunks _ hfirst hmore, h => by
    obtain ⟨u, hu, hconducts⟩ := hfirst.conducts h
    exact (hconducts.append (hmore.conducts hu hconducts.rest)).append
      (conducts_takeSemicolon (hmore.conducts hu hconducts.rest).rest)
theorem GroupsMore.conducts : ∀ {c : Cursor} {chain : Chain} {c' : Cursor} {t : RangeTurn},
    GroupsMore c chain c' → t = .free ∨ t = .marked → c.Follows t → Conducts t chain .free c'
  | c, _, _, _, .stop hstop, ht, h => by
    rcases ht with rfl | rfl
    · exact .nil h
    · -- the joint behind a range mark is a binary operator
      obtain ⟨span, rest, hwords⟩ := h.exists_joint
      cases hstop _ _ _ hwords
  | _, _, _, _, .more hwords _ _ hnext hmore, _, h => by
    obtain ⟨-, u, hu, hrest⟩ := h.of_cons hwords _
    obtain ⟨v, hv, hconducts⟩ := hnext.conducts hrest
    exact ((Conducts.operator hu hrest).append hconducts).append (hmore.conducts hv hconducts.rest)
theorem GroupsChunk.conducts : ∀ {c : Cursor} {chain : Chain} {c' : Cursor} {t : RangeTurn},
    GroupsChunk c chain c' → c.Follows t → ∃ u, (u = .free ∨ u = .marked) ∧ Conducts t chain u c'
  | _, _, _, _, .around hwords hoperand, h => by
    obtain ⟨u, -, hbefore⟩ := conducts_operators rangeRole_of_isBefore h
    obtain ⟨hword, v, hv, hrest⟩ := hbefore.rest.of_cons hwords _
    obtain ⟨hregular, hrole, hleft⟩ := hoperand.conducts hword hv hrest
    obtain ⟨w, hw, hafter⟩ := conducts_operators rangeRole_of_isOnlyAfter hleft
    rw [← hrole] at hv
    refine ⟨w, ?_, ?_⟩
    · rcases hw with rfl | rfl
      · exact Operand.turn_of_next hv
      · exact .inl rfl
    · exact hbefore.append ((Conducts.operand hregular hv hleft).append hafter)
theorem GroupsOperand.conducts : ∀ {word : Word} {c : Cursor} {content : Operand} {span : Span}
    {c' : Cursor} {t u : RangeTurn}, GroupsOperand word c content span c' → word.Regular →
    t.next word.rangeRole = some u → c.Follows u →
      content.Regular ∧ content.rangeRole = word.rangeRole ∧ c'.Follows u
  | _, _, _, _, _, _, _, .content, hword, _, h => ⟨hword _ rfl, rfl, h⟩
  | _, _, _, _, _, _, _, .flow _ harm harms, _, hnext, h => by
    obtain ⟨-, rfl⟩ := RangeTurn.next_other.mp hnext
    obtain ⟨hfirst, hrest⟩ := harm.conducts h
    obtain ⟨hmore, hleft⟩ := harms.conducts hrest
    refine ⟨Operand.within_of_chains rfl ?_, rfl, hleft⟩
    intro chain hchain
    rw [Operand.chains, List.flatMap_cons, List.append_assoc] at hchain
    exact (List.mem_append.mp hchain).elim (hfirst chain) (hmore chain)
  | _, _, _, _, _, _, _, .declare _ _ htarget, _, hnext, h => by
    obtain ⟨-, rfl⟩ := RangeTurn.next_other.mp hnext
    have hconducts := htarget.conducts h
    have hfilled := List.forall_mem_singleton.mpr hconducts.filled
    exact ⟨Operand.within_of_chains rfl hfilled, rfl, hconducts.rest⟩
  | _, _, _, _, _, _, _, .bare .., _, _, h => ⟨Operand.within_of_chains rfl fun _ h => (nomatch h), rfl, h⟩
  | _, _, _, _, _, _, _, .keyword _ _ _ _ htarget, _, hnext, h => by
    obtain ⟨-, rfl⟩ := RangeTurn.next_other.mp hnext
    have hconducts := htarget.conducts h
    have hfilled := List.forall_mem_singleton.mpr hconducts.filled
    exact ⟨Operand.within_of_chains rfl hfilled, rfl, hconducts.rest⟩
theorem GroupsArm.conducts : ∀ {k : Keyword} {c : Cursor} {arm : Arm} {c' : Cursor},
    GroupsArm k c arm c' → c.Follows .free →
      (∀ chain ∈ arm.chains, chain.Filled KeepsTurns Operand.Encloses) ∧ c'.Follows .free
  | _, _, _, _, .parts _ hcondition _ hclause, h => by
    have hfirst := hcondition.conducts h
    have hlast := hclause.conducts hfirst.rest
    exact ⟨List.forall_mem_cons.mpr ⟨hfirst.filled, List.forall_mem_singleton.mpr hlast.filled⟩,
      hlast.rest⟩
theorem GroupsArms.conducts : ∀ {c : Cursor} {arms : List Arm} {otherwise : Option Chain}
    {c' : Cursor}, GroupsArms c arms otherwise c' → c.Follows .free →
      (∀ chain ∈ arms.flatMap Arm.chains ++ otherwise.toList,
        chain.Filled KeepsTurns Operand.Encloses) ∧ c'.Follows .free
  | _, _, _, _, .stop _, h => ⟨fun _ h => (nomatch h), h⟩
  | _, _, _, _, .arm hwords _ harm harms, h => by
    obtain ⟨-, u, hu, hrest⟩ := h.of_cons hwords .nowhere
    cases hu
    obtain ⟨-, u, hu, hrest⟩ := hrest.of_cons rfl _
    cases hu
    obtain ⟨hfirst, hleft⟩ := harm.conducts hrest
    obtain ⟨hmore, hbehind⟩ := harms.conducts hleft
    refine ⟨fun chain hchain => ?_, hbehind⟩
    rw [List.flatMap_cons, List.append_assoc] at hchain
    exact (List.mem_append.mp hchain).elim (hfirst chain) (hmore chain)
  | _, _, _, _, .otherwise hwords helse _ _ hchain, h => by
    obtain ⟨-, u, hu, hrest⟩ := h.of_cons hwords _
    rw [Word.rangeRole_of_isElse helse] at hu
    cases hu
    have hconducts := hchain.conducts hrest
    exact ⟨List.forall_mem_singleton.mpr hconducts.filled, hconducts.rest⟩
end

theorem GroupsAll.filled (h : GroupsAll c chains) (hc : c.Follows .free) :
    ∀ chain ∈ chains, chain.Filled KeepsTurns Operand.Encloses := by
  induction h with
  | nil => exact fun _ h => nomatch h
  | cons hchain _ ih =>
    have hconducts := hchain.conducts hc
    exact List.forall_mem_cons.mpr ⟨hconducts.filled, ih hconducts.rest⟩

/-! ## §3 Items -/

/-- A word is to ranges what its item is, if that is no marker. -/
theorem rangeRole_wordOf {item : Tree} (h : item.marker? = none) :
    (wordOf item).rangeRole = item.rangeRole := by
  cases item with
  | leaf l span =>
    rw [wordOf]
    cases l with
    | operator op => exact (Tree.rangeRole_ofOperator ⟨op, span⟩).symm
    | marker m => cases h
    | atom a => cases a <;> rfl
    | _ => rfl
  | block kind base inner span =>
    rw [wordOf]
    cases ofWords (wordsOf inner) <;> rfl
  | istring pieces span =>
    rw [wordOf]
    cases piecesOf span pieces <;> rfl

theorem map_rangeRole_wordsOf {items : List Tree} (h : ∀ item ∈ items, item.marker? = none) :
    (wordsOf items).map Word.rangeRole = items.map Tree.rangeRole := by
  induction items with
  | nil => rw [wordsOf, List.map_nil, List.map_nil]
  | cons item rest ih =>
    obtain ⟨hitem, hrest⟩ := List.forall_mem_cons.mp h
    rw [wordsOf, List.map_cons, List.map_cons, rangeRole_wordOf hitem, ih hrest]

/-- **Items that have turns at every level grant chains that take turns.** -/
theorem grants_keepsTurns : Grants Tree.HaveTurns KeepsTurns Operand.Encloses where
  chains hturns hregular h := by
    refine ((ofWords_ok_iff _ .nowhere).mp h).filled ⟨?_, hregular⟩
    rw [map_rangeRole_wordsOf hturns.unmarked]
    exact hturns.turns
  holes := id

end Chain
end DewyFront
