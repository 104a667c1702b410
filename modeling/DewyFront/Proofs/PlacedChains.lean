/-
# DewyFront.Proofs.PlacedChains — grouping keeps words in order

Grouping takes words from the front, and the place behind the last of them is where the next chain
begins. So the links of a chain stand in order, and so do the chains of a list. What a keyword takes
stands between the keyword and that place, which its operand ends at. What is refused is refused at a
word or behind one.

* §1 chains in order, with all that is inside;
* §2 words and cursors;
* §3 one level of words;
* §4 all levels.
-/
import DewyFront.Chain.Grouping
import DewyFront.Proofs.PlacedItems

namespace DewyFront

variable {p : Nat → Prop} {lo hi lo' hi' : Nat}

namespace Chain

/-! ## §1 Chains -/

mutual
/-- **`Placed`** — what is inside of the operands of a chain is in order, between the ends of each. -/
def Placed (p : Nat → Prop) : List Link → Prop
  | [] => True
  | .operator _ :: rest => Placed p rest
  | .operand content span :: rest => PlacedOperand p span.start span.stop content ∧ Placed p rest
/-- What is inside of an operand is in order between two offsets. -/
def PlacedOperand (p : Nat → Prop) (lo hi : Nat) : Operand → Prop
  | .atom _ | .keyword _ none => True
  | .block _ _ inner | .escape inner => PlacedAll p lo hi inner
  | .istring pieces => PlacedPieces p lo hi pieces
  | .flow arms none => PlacedArms p lo hi arms
  | .flow arms (some otherwise) =>
    PlacedArms p lo hi arms ∧ Span.Ascends p lo hi (otherwise.map Link.span) ∧ Placed p otherwise
  | .declare _ target => Span.Ascends p lo hi (target.map Link.span) ∧ Placed p target
  | .keyword _ (some operand) => Span.Ascends p lo hi (operand.map Link.span) ∧ Placed p operand
/-- **`PlacedAll`** — chains are in order between two offsets, with all that is inside. -/
def PlacedAll (p : Nat → Prop) (lo hi : Nat) : List (List Link) → Prop
  | [] => lo ≤ hi
  | chain :: chains => ∃ middle,
    (Span.Ascends p lo middle (chain.map Link.span) ∧ Placed p chain) ∧ PlacedAll p middle hi chains
/-- The holes of a string stand between two offsets, and what is inside of each is in order. -/
def PlacedPieces (p : Nat → Prop) (lo hi : Nat) : List Piece → Prop
  | [] => True
  | .text _ :: rest => PlacedPieces p lo hi rest
  | .hole content span :: rest =>
    (span.On p ∧ (Span.mk lo hi).Covers span ∧ PlacedOperand p span.start span.stop content) ∧
      PlacedPieces p lo hi rest
/-- The conditions and clauses of arms stand between two offsets, and each is in order. -/
def PlacedArms (p : Nat → Prop) (lo hi : Nat) : List Arm → Prop
  | [] => True
  | .mk _ condition clause :: rest =>
    (Span.Ascends p lo hi (condition.map Link.span) ∧ Placed p condition) ∧
      (Span.Ascends p lo hi (clause.map Link.span) ∧ Placed p clause) ∧ PlacedArms p lo hi rest
end

/-- What is inside of a link is in order between its ends. -/
def Link.Placed (p : Nat → Prop) : Link → Prop
  | .operator _ => True
  | .operand content span => PlacedOperand p span.start span.stop content

/-- **`Links`** — links in order, with all that is inside. -/
abbrev Links (p : Nat → Prop) (lo hi : Nat) (chain : Chain) : Prop :=
  InOrder p Link.span (Link.Placed p) lo hi chain

variable {chain : Chain} {chains : List Chain} {arms : List Arm} {pieces : List Piece}

theorem links_iff : Links p lo hi chain ↔
    Span.Ascends p lo hi (chain.map Link.span) ∧ Placed p chain := by
  have hall : (∀ link ∈ chain, link.Placed p) ↔ Placed p chain := by
    induction chain with
    | nil => simp [Placed]
    | cons link chain ih => cases link <;> rw [List.forall_mem_cons, ih, Placed] <;> simp [Link.Placed]
  rw [← hall]
  exact ⟨fun h => ⟨h.ascends, h.all⟩, fun h => ⟨h.1, h.2⟩⟩

theorem placedAll_cons : PlacedAll p lo hi (chain :: chains) ↔
    ∃ middle, Links p lo middle chain ∧ PlacedAll p middle hi chains := by
  simp only [PlacedAll, links_iff]

theorem placedArms_cons {k : Keyword} {condition clause : Chain} :
    PlacedArms p lo hi (.mk k condition clause :: arms) ↔
      Links p lo hi condition ∧ Links p lo hi clause ∧ PlacedArms p lo hi arms := by
  simp only [PlacedArms, links_iff]

theorem placedOperand_flow {otherwise : Option Chain} :
    PlacedOperand p lo hi (.flow arms otherwise) ↔
      PlacedArms p lo hi arms ∧ ∀ chain ∈ otherwise, Links p lo hi chain := by
  cases otherwise <;> simp [PlacedOperand, links_iff]

theorem PlacedAll.mono (h : PlacedAll p lo hi chains) (hlo : lo' ≤ lo) (hhi : hi ≤ hi') :
    PlacedAll p lo' hi' chains := by
  induction chains generalizing lo lo' with
  | nil =>
    rw [PlacedAll] at h ⊢
    exact hlo.trans (h.trans hhi)
  | cons chain chains ih =>
    obtain ⟨middle, hchain, hchains⟩ := placedAll_cons.mp h
    exact placedAll_cons.mpr ⟨middle, hchain.mono hlo le_rfl, ih hchains le_rfl⟩

theorem PlacedArms.mono (h : PlacedArms p lo hi arms) (hlo : lo' ≤ lo) (hhi : hi ≤ hi') :
    PlacedArms p lo' hi' arms := by
  induction arms with
  | nil => rwa [PlacedArms] at h ⊢
  | cons arm arms ih =>
    cases arm
    obtain ⟨hcondition, hclause, hrest⟩ := placedArms_cons.mp h
    exact placedArms_cons.mpr ⟨hcondition.mono hlo hhi, hclause.mono hlo hhi, ih hrest⟩

theorem PlacedArms.cons {arm : Arm} (harm : PlacedArms p lo hi [arm]) (h : PlacedArms p lo hi arms) :
    PlacedArms p lo hi (arm :: arms) := by
  cases arm
  obtain ⟨hcondition, hclause, -⟩ := placedArms_cons.mp harm
  exact placedArms_cons.mpr ⟨hcondition, hclause, h⟩

theorem links_operator {o : Operator} (h : o.span.On p) : Links p o.span.start o.span.stop [.operator o] :=
  InOrder.cons_iff.mpr ⟨le_rfl, h, trivial, .nil le_rfl⟩

theorem links_operand {content : Operand} {span : Span} (h : span.On p)
    (hcontent : PlacedOperand p span.start span.stop content) :
    Links p span.start span.stop [.operand content span] :=
  InOrder.cons_iff.mpr ⟨le_rfl, h, hcontent, .nil le_rfl⟩

theorem placedOperand_atom (a : Atom) : PlacedOperand p lo hi (.atom a) := by
  rw [PlacedOperand]
  trivial

/-! ## §2 Words -/

/-- What is inside of a word is grouped in order between its ends, or refused for some of the places. -/
def Word.Placed (p : Nat → Prop) : Word → Prop
  | .operand content span => EndsOn p (PlacedOperand p span.start span.stop) content
  | _ => True

/-- **`Words`** — words in order, with all that is inside. -/
abbrev Words (p : Nat → Prop) (lo hi : Nat) (words : List Word) : Prop :=
  InOrder p Word.span (Word.Placed p) lo hi words

/-- **`Cursor.At`** — a cursor that stands at an offset, with the words behind it in order. -/
structure Cursor.At (p : Nat → Prop) (lo hi : Nat) (c : Cursor) : Prop where
  stop_eq : c.stop = .point lo
  here : p lo
  words : Words p lo hi c.words

/-- What is read at a cursor: links in order, and behind them the cursor. -/
def Reads (p : Nat → Prop) (lo hi : Nat) (read : Chain × Cursor) : Prop :=
  ∃ middle, Links p lo middle read.1 ∧ read.2.At p middle hi

/-- What an operand takes: what is inside is in order between its ends, and behind it is the cursor. -/
def Takes (p : Nat → Prop) (start hi : Nat) (taken : Operand × Span × Cursor) : Prop :=
  taken.2.1.start = start ∧ taken.2.1.On p ∧
    PlacedOperand p taken.2.1.start taken.2.1.stop taken.1 ∧ taken.2.2.At p taken.2.1.stop hi

/-- What the parts of a flow expression take. -/
def Flows (p : Nat → Prop) (lo hi : Nat) (taken : List Arm × Option Chain × Cursor) : Prop :=
  ∃ middle, lo ≤ middle ∧ PlacedArms p lo middle taken.1 ∧
    (∀ chain ∈ taken.2.1, Links p lo middle chain) ∧ taken.2.2.At p middle hi

variable {c : Cursor} {word : Word} {words rest : List Word} {last : Option Operator}

theorem Cursor.At.on_stop (h : c.At p lo hi) : c.stop.On p := h.stop_eq ▸ Span.on_point h.here

/-- Behind a word that is taken, the words go on where it ends. -/
theorem at_behind (h : Words p lo hi (word :: rest)) :
    lo ≤ word.span.start ∧ word.span.On p ∧ word.Placed p ∧
      (Cursor.behind word rest).At p word.span.stop hi := by
  obtain ⟨hle, hon, hword, hrest⟩ := InOrder.cons_iff.mp h
  exact ⟨hle, hon, hword, rfl, hon.stop, hrest⟩

theorem reads_nil (h : c.At p lo hi) : Reads p lo hi ([], c) := ⟨lo, .nil le_rfl, h⟩

/-- What is read behind something read before. -/
theorem Reads.behind {front : Chain} {middle : Nat} {read : Chain × Cursor}
    (hfront : Links p lo middle front) (h : Reads p middle hi read) :
    Reads p lo hi (front ++ read.1, read.2) := by
  obtain ⟨stop, hlinks, hat⟩ := h
  exact ⟨stop, hfront.append hlinks, hat⟩

theorem Flows.mono {taken : List Arm × Option Chain × Cursor} (h : Flows p lo hi taken)
    (hlo : lo' ≤ lo) : Flows p lo' hi taken := by
  obtain ⟨middle, hle, harms, hotherwise, hat⟩ := h
  exact ⟨middle, hlo.trans hle, harms.mono hlo le_rfl,
    fun chain hchain => (hotherwise chain hchain).mono hlo le_rfl, hat⟩

/-- What an arm takes in front of others. -/
theorem Flows.cons {arm : Arm} {middle : Nat} {taken : List Arm × Option Chain × Cursor}
    (hle : lo ≤ middle) (harm : PlacedArms p lo middle [arm]) (h : Flows p middle hi taken) :
    Flows p lo hi (arm :: taken.1, taken.2.1, taken.2.2) := by
  obtain ⟨stop, hstop, harms, hotherwise, hat⟩ := h
  exact ⟨stop, hle.trans hstop, (harm.mono le_rfl hstop).cons (harms.mono hle le_rfl),
    fun chain hchain => (hotherwise chain hchain).mono hle le_rfl, hat⟩

theorem reads_takeOperators (q : Op → Bool) {stop : Span} (h : (Cursor.mk words stop).At p lo hi) :
    Reads p lo hi ((takeOperators q stop words).1.map .operator, (takeOperators q stop words).2) := by
  induction words generalizing lo stop with
  | nil => exact reads_nil h
  | cons word rest ih =>
    cases word with
    | operator op span =>
      obtain ⟨hle, hon, -, hrest⟩ := at_behind h.words
      unfold takeOperators
      split
      · have hfirst := (links_operator (o := ⟨op, span⟩) hon).mono hle le_rfl
        exact (ih hrest).behind hfirst
      · exact reads_nil h
    | _ => exact reads_nil h

theorem reads_takeSemicolon (h : c.At p lo hi) : Reads p lo hi (takeSemicolon c) := by
  obtain ⟨words, stop⟩ := c
  cases words with
  | nil => exact reads_nil h
  | cons word rest =>
    cases word with
    | semicolon span =>
      obtain ⟨hle, hon, -, hrest⟩ := at_behind h.words
      have hjoint : Links p span.start span.start [.operator ⟨.bond .semicolon, .point span.start⟩] :=
        links_operator (o := ⟨.bond .semicolon, .point span.start⟩) (Span.on_point hon.start)
      exact ⟨span.stop, (hjoint.append (links_operand hon (placedOperand_atom _))).mono hle le_rfl, hrest⟩
    | _ => exact reads_nil h

/-! ## §3 One level -/

/-- **`Places`** — with `n` for the depth of calls, grouping keeps words in order. -/
structure Places (p : Nat → Prop) (n : Nat) : Prop where
  group : ∀ {lo hi c}, Cursor.At p lo hi c → EndsOn p (Reads p lo hi) (group n c)
  chunks : ∀ {lo hi c}, Cursor.At p lo hi c → EndsOn p (Reads p lo hi) (chunks n c)
  chunk : ∀ {lo hi last c}, (∀ o ∈ last, o.span.On p) → Cursor.At p lo hi c →
    EndsOn p (Reads p lo hi) (chunk n last c)
  operand : ∀ {hi word c}, word.span.On p → word.Placed p → Cursor.At p word.span.stop hi c →
    EndsOn p (Takes p word.span.start hi) (operand n word c)
  arm : ∀ {k span lo hi c}, Span.On p span → Cursor.At p lo hi c →
    EndsOn p (fun taken => ∃ middle, lo ≤ middle ∧ PlacedArms p lo middle [taken.1] ∧
      taken.2.At p middle hi) (arm n k span c)
  arms : ∀ {lo hi c}, Cursor.At p lo hi c → EndsOn p (Flows p lo hi) (Chain.arms n c)
  closing : ∀ {lo hi c}, Cursor.At p lo hi c → EndsOn p (Flows p lo hi) (closing n c)

namespace Places

variable {n : Nat}

theorem zero (p : Nat → Prop) : Places p 0 where
  group _ := trivial
  chunks _ := trivial
  chunk _ _ := trivial
  operand _ _ _ := trivial
  arm _ _ := trivial
  arms _ := trivial
  closing _ := trivial

theorem group_succ (ih : Places p n) (h : c.At p lo hi) :
    EndsOn p (Reads p lo hi) (Chain.group (n + 1) c) := by
  rw [Chain.group]
  split
  · next op span hwords =>
    have hw := h.words
    rw [hwords] at hw
    obtain ⟨hle, hon, -, hrest⟩ := at_behind hw
    exact ⟨span.stop, (links_operand hon (placedOperand_atom _)).mono hle le_rfl, hrest⟩
  · refine (ih.chunk (by simp) h).bind ?_
    rintro ⟨first, c₁⟩ ⟨middle₁, hfirst, h₁⟩
    refine (ih.chunks h₁).bind ?_
    rintro ⟨more, c₂⟩ ⟨middle₂, hmore, h₂⟩
    exact (reads_takeSemicolon h₂).behind (hfirst.append hmore)

theorem chunks_succ (ih : Places p n) (h : c.At p lo hi) :
    EndsOn p (Reads p lo hi) (Chain.chunks (n + 1) c) := by
  rw [Chain.chunks]
  split
  · next op span rest hwords =>
    have hw := h.words
    rw [hwords] at hw
    obtain ⟨hle, hon, -, hrest⟩ := at_behind hw
    split
    · dsimp only
      split
      · exact ParseError.on_missingOperand hon
      · have hlast : ∀ o ∈ some (Operator.mk op span), o.span.On p :=
          fun o ho => Option.mem_some_iff.mp ho ▸ hon
        refine (ih.chunk hlast hrest).bind ?_
        rintro ⟨next, c₁⟩ ⟨middle₁, hnext, h₁⟩
        refine (ih.chunks h₁).bind ?_
        rintro ⟨more, c₂⟩ hmore
        have hoperator := (links_operator (o := ⟨op, span⟩) hon).mono hle le_rfl
        exact hmore.behind (hoperator.append hnext)
    · exact reads_nil h
  · exact reads_nil h

theorem chunk_succ (ih : Places p n) (hlast : ∀ o ∈ last, o.span.On p) (h : c.At p lo hi) :
    EndsOn p (Reads p lo hi) (Chain.chunk (n + 1) last c) := by
  have hbefore := reads_takeOperators Op.isBefore (show Cursor.At p lo hi ⟨c.words, c.stop⟩ from h)
  rw [Chain.chunk]
  generalize takeOperators Op.isBefore c.stop c.words = found at hbefore ⊢
  obtain ⟨before, c₁⟩ := found
  obtain ⟨middle₁, hlinks, h₁⟩ := hbefore
  dsimp only at hlinks h₁ ⊢
  split
  · -- The operator in front is refused, or the place where an operand should be.
    have hoperator : ∀ o ∈ before.getLast? <|> last, o.span.On p := by
      cases hfound : before.getLast? with
      | none => exact hlast
      | some found =>
        have hmem := List.mem_map_of_mem (f := Link.operator) (List.mem_of_getLast? hfound)
        exact fun o ho => Option.mem_some_iff.mp ho ▸ (hlinks.of_mem hmem).1
    unfold missingChunk
    cases hnext : before.getLast? <|> last with
    | none => exact ParseError.on_of_spans_eq rfl h₁.on_stop
    | some o => exact ParseError.on_of_spans_eq rfl (hoperator o hnext)
  · next word rest hwords =>
    have hw := h₁.words
    rw [hwords] at hw
    obtain ⟨hle, hon, hword, hrest⟩ := at_behind hw
    refine (ih.operand hon hword hrest).bind ?_
    rintro ⟨content, span, c₂⟩ ⟨hstart, hspan, hcontent, h₂⟩
    dsimp only at hstart hspan hcontent h₂ ⊢
    have hafter := reads_takeOperators isOnlyAfter
      (show Cursor.At p span.stop hi ⟨c₂.words, c₂.stop⟩ from h₂)
    have hoperand := (links_operand hspan hcontent).mono (hstart ▸ hle) le_rfl
    have hread := (hafter.behind hoperand).behind hlinks
    exact hread

theorem arm_succ (ih : Places p n) {k : Keyword} {span : Span} (hspan : span.On p) (h : c.At p lo hi) :
    EndsOn p (fun taken => ∃ middle, lo ≤ middle ∧ PlacedArms p lo middle [taken.1] ∧
      taken.2.At p middle hi) (Chain.arm (n + 1) k span c) := by
  rw [Chain.arm]
  split
  · exact ParseError.on_of_spans_eq rfl hspan
  · refine (ih.group h).bind ?_
    rintro ⟨condition, c₁⟩ ⟨middle₁, hcondition, h₁⟩
    dsimp only
    split
    · exact ParseError.on_of_spans_eq rfl hspan
    · refine (ih.group h₁).bind ?_
      rintro ⟨clause, c₂⟩ ⟨middle₂, hclause, h₂⟩
      have hle := hcondition.le
      refine ⟨middle₂, hle.trans hclause.le, placedArms_cons.mpr
        ⟨hcondition.mono le_rfl hclause.le, hclause.mono hle le_rfl, ?_⟩, h₂⟩
      rw [PlacedArms]
      trivial

theorem closing_succ (ih : Places p n) (h : c.At p lo hi) :
    EndsOn p (Flows p lo hi) (Chain.closing (n + 1) c) := by
  rw [Chain.closing]
  split
  · exact ParseError.on_of_spans_eq rfl h.on_stop
  · refine (ih.group h).bind ?_
    rintro ⟨otherwise, c₁⟩ ⟨middle, hotherwise, h₁⟩
    refine ⟨middle, hotherwise.le, ?_, ?_, h₁⟩
    · show PlacedArms p lo middle []
      rw [PlacedArms]
      trivial
    · simpa using hotherwise

theorem arms_succ (ih : Places p n) (h : c.At p lo hi) :
    EndsOn p (Flows p lo hi) (Chain.arms (n + 1) c) := by
  obtain ⟨words, stop⟩ := c
  have hnone : Flows p lo hi ([], none, ⟨words, stop⟩) := by
    refine ⟨lo, le_rfl, ?_, by simp, h⟩
    rw [PlacedArms]
    trivial
  have hclosing {word : Word} {rest : List Word} (hw : Words p lo hi (word :: rest)) :
      EndsOn p (Flows p lo hi) (Chain.closing n (.behind word rest)) := by
    obtain ⟨hle, hon, -, hrest⟩ := at_behind hw
    exact (ih.closing hrest).mono fun _ htaken => htaken.mono (hle.trans hon.le)
  cases words with
  | nil => exact hnone
  | cons word rest =>
    cases word with
    | closingElse span => exact hclosing h.words
    | keyword k span =>
      cases k with
      | elseWord =>
        cases rest with
        | nil => exact hclosing h.words
        | cons next more =>
          cases next with
          | keyword k' span' =>
            -- Another arm if the keyword is one of flow, and the last clause otherwise.
            rw [Chain.arms]
            dsimp only
            split
            · obtain ⟨hle, hon, -, helse⟩ := at_behind h.words
              obtain ⟨hle', hon', -, hrest⟩ := at_behind helse.words
              refine (ih.arm hon' hrest).bind ?_
              rintro ⟨found, c₁⟩ ⟨middle, hmiddle, hfound, h₁⟩
              refine (ih.arms h₁).bind ?_
              rintro ⟨arms, otherwise, c₂⟩ htaken
              have hflows := htaken.cons hmiddle hfound
              exact hflows.mono (hle.trans (hon.le.trans (hle'.trans hon'.le)))
            · exact hclosing h.words
          | _ => exact hclosing h.words
      | _ => exact hnone
    | _ => exact hnone

/-- What is inside of a keyword's operand ends where the last word taken does. -/
theorem takes_keyword {content : Operand} {span : Span} {middle : Nat} (hspan : span.On p)
    (hcontent : PlacedOperand p span.start middle content) (hle : span.stop ≤ middle)
    (h : c.At p middle hi) : Takes p span.start hi (content, span.merge c.stop, c) := by
  have hmerge : span.merge c.stop = ⟨span.start, middle⟩ := by
    rw [h.stop_eq]
    exact Span.merge_eq (hspan.le.trans hle) hle
  rw [hmerge]
  exact ⟨rfl, ⟨hspan.start, h.here, hspan.le.trans hle⟩, hcontent, h⟩

theorem operand_succ (ih : Places p n) (hspan : word.span.On p) (hword : word.Placed p)
    (h : c.At p word.span.stop hi) :
    EndsOn p (Takes p word.span.start hi) (Chain.operand (n + 1) word c) := by
  cases word with
  | operand content span =>
    exact EndsOn.bind (q := PlacedOperand p span.start span.stop) hword fun content hcontent =>
      ⟨rfl, hspan, hcontent, h⟩
  | semicolon span => exact ParseError.on_of_spans_eq rfl hspan
  | operator op span => exact ParseError.on_of_spans_eq rfl hspan
  | closingElse span => exact ParseError.on_of_spans_eq rfl hspan
  | unsettled span => trivial
  | keyword k span =>
    have htarget : ∀ {target : Chain} {middle : Nat}, Links p span.stop middle target →
        Links p span.start middle target := fun htarget => htarget.mono hspan.le le_rfl
    rw [Chain.operand]
    split
    · exact ParseError.on_of_spans_eq rfl hspan
    · split
      · refine (ih.arm hspan h).bind ?_
        rintro ⟨first, c₁⟩ ⟨middle₁, hle₁, hfirst, h₁⟩
        refine (ih.arms h₁).bind ?_
        rintro ⟨more, otherwise, c₂⟩ htaken
        obtain ⟨middle, hle, harms, hotherwise, h₂⟩ := htaken.cons hle₁ hfirst
        refine takes_keyword hspan (placedOperand_flow.mpr ⟨harms.mono hspan.le le_rfl, ?_⟩) hle h₂
        exact fun chain hchain => htarget (hotherwise chain hchain)
      · split
        · split
          · exact ParseError.on_of_spans_eq rfl hspan.endPoint
          · refine (ih.group h).bind ?_
            rintro ⟨target, c₁⟩ ⟨middle, hlinks, h₁⟩
            refine takes_keyword hspan ?_ hlinks.le h₁
            rw [PlacedOperand]
            exact links_iff.mp (htarget hlinks)
        · split
          · refine takes_keyword hspan ?_ le_rfl h
            rw [PlacedOperand]
            trivial
          · refine (ih.group h).bind ?_
            rintro ⟨target, c₁⟩ ⟨middle, hlinks, h₁⟩
            refine takes_keyword hspan ?_ hlinks.le h₁
            rw [PlacedOperand]
            exact links_iff.mp (htarget hlinks)

end Places

/-- **Grouping keeps words in order**, at any depth of calls. -/
theorem places (p : Nat → Prop) (n : Nat) : Places p n := by
  induction n with
  | zero => exact .zero p
  | succ n ih =>
    exact ⟨ih.group_succ, ih.chunks_succ, ih.chunk_succ, ih.operand_succ, ih.arm_succ, ih.arms_succ,
      ih.closing_succ⟩

/-! ## §4 All levels -/

theorem placed_groupFrom (depth n : Nat) (h : c.At p lo hi) :
    EndsOn p (PlacedAll p lo hi) (groupFrom depth n c) := by
  have hnil : PlacedAll p lo hi [] := by
    rw [PlacedAll]
    exact h.words.le
  induction n generalizing lo c with
  | zero =>
    unfold groupFrom
    split
    · exact hnil
    · trivial
  | succ n ih =>
    unfold groupFrom
    split
    · exact hnil
    · refine ((places p depth).group h).bind ?_
      rintro ⟨chain, c₁⟩ ⟨middle, hlinks, h₁⟩
      have hrest : PlacedAll p middle hi [] := by
        rw [PlacedAll]
        exact h₁.words.le
      refine (ih h₁ hrest).bind fun chains hchains => ?_
      exact placedAll_cons.mpr ⟨middle, hlinks, hchains⟩

/-- **The chains of words in order are in order.** -/
theorem placed_ofWords (h : Words p lo hi words) : EndsOn p (PlacedAll p lo hi) (ofWords words) := by
  cases words with
  | nil =>
    show PlacedAll p lo hi []
    rw [PlacedAll]
    exact h.le
  | cons word rest =>
    obtain ⟨hle, hon, hword, hrest⟩ := InOrder.cons_iff.mp h
    have hat : Cursor.At p word.span.start hi ⟨word :: rest, .point word.span.start⟩ :=
      ⟨rfl, hon.start, InOrder.cons_iff.mpr ⟨le_rfl, hon, hword, hrest⟩⟩
    exact (placed_groupFrom _ _ hat).mono fun chains hchains => hchains.mono hle le_rfl

/-- Items stand within their span, or in the place of them where there are none. -/
theorem level_innerSpan {items : List Tree} {span : Span} (hspan : span.On p)
    (h : Tree.Level p span.start span.stop items) : (innerSpan items span).On p ∧
      span.Covers (innerSpan items span) ∧
      Tree.Level p (innerSpan items span).start (innerSpan items span).stop items := by
  unfold innerSpan
  split
  · next first last hfirst hlast =>
    obtain ⟨hlevel, hmerge, hstart, hstop⟩ := h.tighten hfirst hlast
    have hfirst := h.of_mem (List.mem_of_head? hfirst)
    have hlast := h.of_mem (List.mem_of_getLast? hlast)
    refine ⟨hfirst.1.merge hlast.1, hfirst.2.1.merge hlast.2.1, ?_⟩
    rw [hmerge]
    exact hlevel
  · exact ⟨hspan, .refl span, h⟩

@[simp] theorem span_wordOf (item : Tree) : (wordOf item).span = item.span := by
  cases item with
  | leaf l span =>
    rw [wordOf]
    cases l with
    | atom a => cases a <;> rfl
    | _ => rfl
  | block kind base inner span => rw [wordOf, Word.span, Tree.span]
  | istring pieces span => rw [wordOf, Word.span, Tree.span]

theorem map_span_wordsOf (items : List Tree) :
    (wordsOf items).map Word.span = items.map Tree.span := by
  induction items with
  | nil => rw [wordsOf, List.map_nil, List.map_nil]
  | cons item rest ih => rw [wordsOf, List.map_cons, List.map_cons, span_wordOf, ih]

theorem placed_inner {items : List Tree} (h : Span.Ascends p lo hi (items.map Tree.span))
    (hwords : ∀ word ∈ wordsOf items, word.Placed p) :
    EndsOn p (PlacedAll p lo hi) (ofWords (wordsOf items)) :=
  placed_ofWords ⟨by rwa [map_span_wordsOf], hwords⟩

mutual
/-- **Items in order are words in order**, with what is inside of them grouped. -/
theorem placed_wordOf : ∀ {item : Tree}, item.Placed p → (wordOf item).Placed p
  | .leaf l span, h => by
    rw [wordOf]
    unfold leafWord
    split
    · trivial
    · next a _ =>
      show PlacedOperand p span.start span.stop (.atom a)
      exact placedOperand_atom a
    all_goals trivial
  | .block kind base inner span, h => by
    rw [Tree.Placed] at h
    rw [wordOf]
    refine (placed_inner h.2.1 (placed_wordsOf h.2.2)).map fun chains hchains => ?_
    rw [PlacedOperand]
    exact hchains
  | .istring pieces span, h => by
    rw [Tree.Placed] at h
    rw [wordOf]
    refine (placed_piecesOf h.1 h.2).map fun pieces hpieces => ?_
    rw [PlacedOperand]
    exact hpieces
theorem placed_wordsOf : ∀ {items : List Tree}, Tree.PlacedAll p items →
    ∀ word ∈ wordsOf items, word.Placed p
  | [], _ => by
    rw [wordsOf]
    exact fun word hword => nomatch hword
  | item :: rest, h => by
    rw [Tree.PlacedAll] at h
    rw [wordsOf, List.forall_mem_cons]
    exact ⟨placed_wordOf h.1, placed_wordsOf h.2⟩
theorem placed_piecesOf {span : Span} (hspan : span.On p) : ∀ {pieces : List Tree.Piece},
    Tree.PlacedPieces p span pieces →
      EndsOn p (PlacedPieces p span.start span.stop) (piecesOf span pieces)
  | [], _ => by
    rw [piecesOf]
    show PlacedPieces p span.start span.stop []
    rw [PlacedPieces]
    trivial
  | .text t :: rest, h => by
    rw [Tree.PlacedPieces] at h
    rw [piecesOf]
    refine (placed_piecesOf hspan h).bind fun more hmore => ?_
    show PlacedPieces p span.start span.stop (_ :: more)
    rw [PlacedPieces]
    exact hmore
  | .block kind base inner :: rest, h | .escape kind base inner :: rest, h => by
    rw [Tree.PlacedPieces] at h
    obtain ⟨hon, hcovers, hinner⟩ := level_innerSpan hspan (Tree.level_iff.mpr h.1)
    rw [piecesOf]
    refine (placed_inner hinner.ascends (placed_wordsOf h.1.2)).bind fun chains hchains => ?_
    refine (placed_piecesOf hspan h.2).bind fun more hmore => ?_
    show PlacedPieces p span.start span.stop (_ :: more)
    rw [PlacedPieces, PlacedOperand]
    exact ⟨⟨hon, hcovers, hchains⟩, hmore⟩
end

/-- **The chains of items in order are in order**, at every level. -/
theorem placed_ofTrees {items : List Tree} (h : Tree.Level p lo hi items) :
    EndsOn p (PlacedAll p lo hi) (ofTrees items) :=
  placed_inner h.ascends (placed_wordsOf (Tree.placedAll_iff.mpr h.all))

end Chain

end DewyFront
