/-
# DewyFront.Proofs.Grouping — grouping makes chains that reduction can take

A chain that grouping makes keeps the order of the words it takes. So a contested juxtaposition still
stands in front of an operand, and a semicolon comes last, behind its own juxtaposition: what
reduction asks of a chain. The same holds of the chains inside its operands, and with it every chain
of a source is reduced without a fault.

* §1 words;
* §2 stretches of a chain;
* §3 operators around an operand;
* §4 grouping;
* §5 settled items.
-/
import DewyFront.Proofs.GroupedInsides
import DewyFront.Proofs.Lowering
import DewyFront.Proofs.Semicolons

namespace DewyFront

namespace Chain

/-! ## §1 Words -/

/-- A word that is an operator applies no contested juxtaposition element by element. -/
def Word.IsBare : Word → Prop
  | operator op _ => op.IsBare
  | _ => True

/-- Whether a word is a contested juxtaposition. -/
def Word.joins : Word → Bool
  | operator op _ => op.isContested
  | _ => false

/-- **`Tied`** — operators are bare, and an operand comes behind every contested juxtaposition. -/
def Tied : List Word → Prop
  | [] => True
  | word :: rest =>
    word.IsBare ∧ (word.joins = true → ∃ content span more, rest = .operand content span :: more) ∧
      Tied rest

/-- **`SoundWords`** — words are tied, and no operand among them is a semicolon. -/
structure SoundWords (words : List Word) : Prop where
  spelled : ∀ word ∈ words, word.IsSpelled
  tied : Tied words

variable {words left : List Word}

theorem Tied.of_suffix (hleft : left <:+ words) (h : Tied words) : Tied left := by
  obtain ⟨taken, rfl⟩ := hleft
  induction taken with
  | nil => exact h
  | cons word taken ih => exact ih h.2.2

theorem Tied.of_spends {written : (Op → List Sign) → List Sign} (h : Tied words)
    (hspends : Spends words left written) : Tied left := by
  obtain ⟨taken, heq, -⟩ := hspends
  exact h.of_suffix ⟨taken, heq.symm⟩

theorem SoundWords.of_suffix (hleft : left <:+ words) (h : SoundWords words) : SoundWords left :=
  ⟨fun word hword => h.spelled word (hleft.subset hword), h.tied.of_suffix hleft⟩

/-! ## §2 Stretches -/

/-- **`Stretch`** — links that keep their ties wherever they stand. -/
structure Stretch (chain : Chain) : Prop where
  tight : IsTight chain
  bare : IsBare chain

variable {chain front back : Chain}

theorem isTight_nil : IsTight [] := by
  rintro (_ | ⟨_, _⟩) o back h <;> cases h

theorem isTight_operand {content : Operand} {span : Span} (h : IsTight chain) :
    IsTight (.operand content span :: chain) := by
  rintro (_ | ⟨link, front⟩) o back heq hc
  · cases heq
  · cases heq
    exact h front o back rfl hc

theorem isTight_operator {o : Operator} (h : IsTight chain)
    (hnext : o.op.isContested = true → ∃ content span rest, chain = .operand content span :: rest) :
    IsTight (.operator o :: chain) := by
  rintro (_ | ⟨link, front⟩) p back heq hc
  · cases heq
    exact hnext hc
  · cases heq
    exact h front p back rfl hc

theorem isTight_append (hf : IsTight front) (hb : IsTight back) : IsTight (front ++ back) := by
  induction front with
  | nil => exact hb
  | cons link front ih =>
    have hfront : IsTight front := fun inner o rest heq hc =>
      hf (link :: inner) o rest (by rw [heq]; rfl) hc
    cases link with
    | operand content span => exact isTight_operand (ih hfront)
    | operator o =>
      refine isTight_operator (ih hfront) fun hc => ?_
      obtain ⟨content, span, rest, rfl⟩ := hf [] o front rfl hc
      exact ⟨content, span, rest ++ back, rfl⟩

theorem stretch_nil : Stretch [] := ⟨isTight_nil, by simp [IsBare]⟩

theorem Stretch.operand {content : Operand} {span : Span} (h : Stretch chain) :
    Stretch (.operand content span :: chain) where
  tight := isTight_operand h.tight
  bare o ho := h.bare o (by simpa using ho)

theorem Stretch.operator {o : Operator} (h : Stretch chain) (ho : o.op.IsBare)
    (hnext : o.op.isContested = true → ∃ content span rest, chain = .operand content span :: rest) :
    Stretch (.operator o :: chain) where
  tight := isTight_operator h.tight hnext
  bare p hp := by
    rcases List.mem_cons.mp hp with heq | hp
    · cases heq
      exact ho
    · exact h.bare p hp

theorem Stretch.append (hf : Stretch front) (hb : Stretch back) : Stretch (front ++ back) where
  tight := isTight_append hf.tight hb.tight
  bare o ho := by
    rcases List.mem_append.mp ho with ho | ho
    · exact hf.bare o ho
    · exact hb.bare o ho

/-- Operators that are not contested make a stretch. -/
theorem stretch_operators {os : List Operator}
    (h : ∀ o ∈ os, o.op.IsBare ∧ o.op.isContested = false) (hb : Stretch back) :
    Stretch (os.map .operator ++ back) := by
  induction os with
  | nil => exact hb
  | cons o os ih =>
    obtain ⟨hbare, hc⟩ := h o List.mem_cons_self
    refine .operator (ih fun p hp => h p (List.mem_cons_of_mem _ hp)) hbare fun hcontested => ?_
    rw [hc] at hcontested
    cases hcontested

theorem stretch_semicolonLinks (span : Span) : Stretch (semicolonLinks span) :=
  stretch_nil.operand.operator (Op.isBare_of_holdsContested_eq_false rfl) fun hc => by cases hc

/-- **A stretch with a semicolon behind it is closed.** -/
theorem isClosed_append_semicolon {span : Span}
    (h : ∀ s, .operand (.atom .semicolon) s ∉ front) : IsClosed (front ++ semicolonLinks span) := by
  intro inner s back heq
  rcases List.append_eq_append_iff.mp heq with ⟨links, rfl, hlinks⟩ | ⟨links, rfl, hlinks⟩
  · match links, hlinks with
    | [], hlinks => cases hlinks
    | [_], hlinks =>
      cases hlinks
      exact ⟨rfl, front, _, rfl⟩
    | _ :: _ :: links, hlinks =>
      cases links <;> cases hlinks
  · cases links with
    | nil => cases hlinks
    | cons link links =>
      cases hlinks
      exact absurd (by simp) (h s)

/-! ## §3 Operators around an operand -/

theorem isContested_of_isBefore {op : Op} (h : op.isBefore = true) : op.isContested = false := by
  cases hc : op.isContested with
  | false => rfl
  | true =>
    simp [Op.isBefore, Op.holdsContested_iff.mp (Op.holdsContested_of_isContested hc)] at h

theorem isContested_of_isOnlyAfter {op : Op} (h : isOnlyAfter op = true) :
    op.isContested = false := by
  cases hc : op.isContested with
  | false => rfl
  | true =>
    simp [isOnlyAfter, Op.isAfter,
      Op.holdsContested_iff.mp (Op.holdsContested_of_isContested hc)] at h

variable {p : Op → Bool}

/-- Operators that are taken from around an operand are bare, and none is contested. -/
theorem takeOperators_tied (stop : Span) (h : Tied words)
    (hp : ∀ op, p op = true → op.isContested = false) :
    (∀ o ∈ (takeOperators p stop words).1, o.op.IsBare ∧ o.op.isContested = false) ∧
      Tied (takeOperators p stop words).2.words := by
  fun_induction takeOperators p stop words with
  | case1 stop op span rest hop more c heq ih =>
    obtain ⟨hmore, hc⟩ := ih h.2.2
    rw [heq] at hmore hc
    refine ⟨?_, hc⟩
    intro o ho
    rcases List.mem_cons.mp ho with rfl | ho
    · exact ⟨h.1, hp op hop⟩
    · exact hmore o ho
  | case2 | case3 => exact ⟨by simp, h⟩

/-! ## §4 Grouping -/

variable {c c' : Cursor}

/-- A chunk of tied words is a stretch. -/
theorem GroupsChunk.stretch (h : GroupsChunk c chain c') (hc : Tied c.words) : Stretch chain := by
  cases h with
  | @around _ c₁ word rest content span hwords hoperand =>
    obtain ⟨hbefore, hword⟩ := takeOperators_tied c.stop hc fun _ => isContested_of_isBefore
    rw [hwords] at hword
    have hleft := hword.of_spends hoperand.spends
    obtain ⟨hafter, -⟩ := takeOperators_tied c₁.stop hleft fun _ => isContested_of_isOnlyAfter
    refine stretch_operators hbefore (Stretch.operand ?_)
    simpa using stretch_operators hafter stretch_nil

/-- A chunk begins with an operand if its words do. -/
theorem GroupsChunk.begins (h : GroupsChunk c chain c') {content : Except (Failure ParseError) Operand}
    {span : Span} {rest : List Word} (hwords : c.words = .operand content span :: rest) :
    ∃ found s more, chain = .operand found s :: more := by
  cases h with
  | @around _ _ _ _ found s _ _ =>
    rw [hwords, takeOperators]
    · exact ⟨found, s, _, rfl⟩
    · simp

/-- What follows a chunk of tied words is a stretch as well. -/
theorem GroupsMore.stretch (h : GroupsMore c chain c') (hc : Tied c.words) : Stretch chain := by
  induction h using GroupsMore.induct with
  | stop => exact stretch_nil
  | more hwords _ _ hnext _ ih =>
    rw [hwords] at hc
    obtain ⟨hop, hbehind, hrest⟩ := hc
    have hmore := ih (hrest.of_spends hnext.spends)
    refine ((hnext.stretch hrest).append hmore).operator hop fun hcontested => ?_
    -- The word behind a contested juxtaposition is an operand, and the chunk begins with it.
    obtain ⟨content, span, tail, hoperand⟩ := hbehind hcontested
    obtain ⟨found, span', tail', rfl⟩ := hnext.begins hoperand
    exact ⟨found, span', _, rfl⟩

/-- **A chain of sound words is one that reduction can take.** -/
theorem Groups.isGrouped (h : Groups c chain c') (hc : SoundWords c.words) : IsGrouped chain := by
  cases h with
  | alone =>
    exact ⟨isClosed_of_notMem (by simp), stretch_nil.operand.tight, stretch_nil.operand.bare⟩
  | @chunks _ c₁ c₂ first more hlone hfirst hmore =>
    have hstretch := (hfirst.stretch hc.tied).append (hmore.stretch (hc.tied.of_spends hfirst.spends))
    have hunclosed : ∀ span, .operand (.atom .semicolon) span ∉ first ++ more := fun span hmem =>
      (List.mem_append.mp hmem).elim (hfirst.unclosed hc.spelled span)
        (hmore.unclosed (fun word hword => hc.spelled word (hfirst.spends.mem hword)) span)
    unfold takeSemicolon
    split
    · next span _ _ =>
      have hends := hstretch.append (stretch_semicolonLinks span)
      exact ⟨isClosed_append_semicolon hunclosed, hends.tight, hends.bare⟩
    · rw [List.append_nil]
      exact ⟨isClosed_of_notMem hunclosed, hstretch.tight, hstretch.bare⟩

theorem provides_isGrouped : Provides SoundWords IsGrouped := ⟨SoundWords.of_suffix, Groups.isGrouped⟩

/-! ## §5 Settled items -/

theorem isBare_wordOf {item : Tree} (h : item.IsBare) : (wordOf item).IsBare := by
  cases item with
  | leaf l span =>
    rw [wordOf]
    cases l with
    | operator op => exact h
    | atom a => cases a <;> trivial
    | _ => trivial
  | block | istring =>
    rw [wordOf]
    trivial

/-- A contested word is a contested item. -/
theorem joins_of_wordOf {item : Tree} (h : (wordOf item).joins = true) : item.joins = true := by
  cases item with
  | block | istring =>
    rw [wordOf] at h
    cases h
  | leaf l s =>
    rw [wordOf] at h
    cases l with
    | operator op => exact h
    | atom a => cases a <;> cases h
    | _ => cases h

theorem wordOf_of_isOperand {item : Tree} (h : item.IsOperand) :
    ∃ content span, wordOf item = .operand content span := by
  cases item with
  | block | istring =>
    rw [wordOf]
    exact ⟨_, _, rfl⟩
  | leaf l s =>
    rw [wordOf]
    cases l with
    | atom a => cases a <;> first | exact ⟨_, _, rfl⟩ | cases h
    | _ => cases h

/-- Settled items are tied words. -/
theorem tied_wordsOf {items : List Tree} (h : Tree.Settles Tree.IsOperand items) : Tied (wordsOf items) := by
  induction items with
  | nil =>
    rw [wordsOf]
    trivial
  | cons item rest ih =>
    obtain ⟨hitem, hnext, hrest⟩ := h
    rw [wordsOf]
    refine ⟨isBare_wordOf hitem, fun hj => ?_, ih hrest⟩
    obtain ⟨next, tail, rfl, hoperand⟩ := hnext (joins_of_wordOf hj)
    obtain ⟨content, span, hword⟩ := wordOf_of_isOperand hoperand
    rw [wordsOf, hword]
    exact ⟨content, span, _, rfl⟩

theorem ofSettled_soundWords : Tree.OfSettled fun items => SoundWords (wordsOf items) :=
  fun hfresh h => ⟨isSpelled_wordsOf _, tied_wordsOf (Tree.settles_settleLevel hfresh h)⟩

/-- **The chains of settled items are sound.** -/
theorem ofTrees_sound {items settled : List Tree} {chains : List Chain} (hlexed : Tree.AllLexed items)
    (hsettled : Tree.settle items = .ok settled) (h : ofTrees settled = .ok chains) :
    ∀ chain ∈ chains, chain.Sound :=
  filled_of_ofTrees provides_isGrouped.grants
    (Tree.everyLevel_of_ofSettled ofSettled_soundWords hlexed hsettled) h

end Chain

end DewyFront
