/-
# DewyFront.Proofs.Derivations — grouping told without its bound

Grouping calls itself with a number that bounds the depth of calls. What it makes of words is a
derivation that knows of no number: one rule for each way a chain, a chunk or an operand may go. Every
outcome of grouping has a derivation, and a derivation takes words from the front, whose signs are
those of what it makes of them.

* §1 operators around an operand;
* §2 derivations;
* §3 outcomes have derivations;
* §4 what a derivation takes;
* §5 lists of words.
-/
import DewyFront.Proofs.Outcomes
import DewyFront.Proofs.Signs

namespace DewyFront

namespace Chain

/-! ## §1 Operators around an operand -/

/-- The word of an operator. -/
def Word.ofOperator (o : Operator) : Word := .operator o.op o.span

variable {p : Op → Bool} {stop : Span} {words : List Word}

/-- The operators that are taken stand in front of those that are left. -/
theorem takeOperators_words (p : Op → Bool) (stop : Span) (words : List Word) :
    words = (takeOperators p stop words).1.map Word.ofOperator ++
      (takeOperators p stop words).2.words := by
  fun_induction takeOperators p stop words with
  | case1 stop op span rest hop more c heq ih =>
    rw [heq] at ih
    rw [List.map_cons, List.cons_append, ← ih]
    rfl
  | case2 | case3 => rfl

theorem length_takeOperators (p : Op → Bool) (stop : Span) (words : List Word) :
    (takeOperators p stop words).2.words.length ≤ words.length := by
  have h := congrArg List.length (takeOperators_words p stop words)
  rw [List.length_append] at h
  omega

theorem of_mem_takeOperators {o : Operator} (h : o ∈ (takeOperators p stop words).1) :
    p o.op = true := by
  fun_induction takeOperators p stop words with
  | case1 stop op span rest hop more c heq ih =>
    rw [heq] at ih
    rcases List.mem_cons.mp h with rfl | h
    · exact hop
    · exact ih h
  | case2 | case3 => cases h

/-- No operator of the kind that is taken is left in front. -/
theorem takeOperators_head {op : Op} {span : Span} {rest : List Word}
    (h : (takeOperators p stop words).2.words = .operator op span :: rest) : p op = false := by
  fun_induction takeOperators p stop words with
  | case1 stop op span rest hop more c heq ih =>
    rw [heq] at ih
    exact ih h
  | case2 stop op span rest hop =>
    cases h
    simpa using hop
  | case3 stop words hne => exact absurd h (hne _ _ _)

/-- Where the words begin does not decide what is taken, nor where the place is behind it. -/
theorem takeOperators_stop (p : Op → Bool) (stop stop' : Span) (words : List Word) :
    (takeOperators p stop' words).1 = (takeOperators p stop words).1 ∧
      (takeOperators p stop' words).2.words = (takeOperators p stop words).2.words := by
  cases words with
  | nil => exact ⟨rfl, rfl⟩
  | cons word rest =>
    cases word with
    | operator op span =>
      unfold takeOperators
      split
      · exact ⟨rfl, rfl⟩
      · exact ⟨rfl, rfl⟩
    | _ => exact ⟨rfl, rfl⟩

/-! ## §2 Derivations -/

mutual
/-- **`Groups`** — a chain that begins at a place, and the place behind it. -/
inductive Groups : Cursor → Chain → Cursor → Prop
  | alone {op : Op} {span stop : Span} :
      Groups ⟨[.operator op span], stop⟩ [.operand (.atom (.operator op)) span] ⟨[], span.endPoint⟩
  | chunks {c c₁ c₂ : Cursor} {first more : Chain}
      (hlone : ∀ op span, c.words ≠ [.operator op span]) (hfirst : GroupsChunk c first c₁)
      (hmore : GroupsMore c₁ more c₂) :
      Groups c (first ++ more ++ (takeSemicolon c₂).1) (takeSemicolon c₂).2
/-- **`GroupsMore`** — binary operators, each with the chunk behind it. -/
inductive GroupsMore : Cursor → Chain → Cursor → Prop
  | stop {c : Cursor}
      (h : ∀ op span rest, c.words = .operator op span :: rest → op.isBinary = false) :
      GroupsMore c [] c
  | more {c c₁ c₂ : Cursor} {op : Op} {span : Span} {rest : List Word} {next more : Chain}
      (hwords : c.words = .operator op span :: rest) (hop : op.isBinary = true)
      (hend : (Cursor.mk rest span.endPoint).atEnd = false)
      (hnext : GroupsChunk ⟨rest, span.endPoint⟩ next c₁) (hmore : GroupsMore c₁ more c₂) :
      GroupsMore c (.operator ⟨op, span⟩ :: next ++ more) c₂
/-- **`GroupsChunk`** — an operand with the operators around it. -/
inductive GroupsChunk : Cursor → Chain → Cursor → Prop
  | around {c c₁ : Cursor} {word : Word} {rest : List Word} {content : Operand} {span : Span}
      (hwords : (takeOperators Op.isBefore c.stop c.words).2.words = word :: rest)
      (hoperand : GroupsOperand word (.behind word rest) content span c₁) :
      GroupsChunk c
        ((takeOperators Op.isBefore c.stop c.words).1.map .operator ++
          .operand content span :: (takeOperators isOnlyAfter c₁.stop c₁.words).1.map .operator)
        (takeOperators isOnlyAfter c₁.stop c₁.words).2
/-- **`GroupsOperand`** — the operand that a word is or that a keyword begins. -/
inductive GroupsOperand : Word → Cursor → Operand → Span → Cursor → Prop
  | content {content : Operand} {span : Span} {c : Cursor} :
      GroupsOperand (.operand (.ok content) span) c content span c
  | flow {k : Keyword} {span : Span} {c c₁ c₂ : Cursor} {arm : Arm} {arms : List Arm}
      {otherwise : Option Chain} (hk : k.isFlow = true) (harm : GroupsArm k c arm c₁)
      (harms : GroupsArms c₁ arms otherwise c₂) :
      GroupsOperand (.keyword k span) c (.flow (arm :: arms) otherwise) (span.merge c₂.stop) c₂
  | declare {k : Keyword} {span : Span} {c c₁ : Cursor} {target : Chain}
      (hk : k.isDeclaration = true) (hend : c.atEnd = false) (htarget : Groups c target c₁) :
      GroupsOperand (.keyword k span) c (.declare k target) (span.merge c₁.stop) c₁
  | bare {k : Keyword} {span : Span} {c : Cursor} (helse : k ≠ .elseWord)
      (hflow : k.isFlow = false) (hdeclaration : k.isDeclaration = false)
      (hend : c.atEnd = true) :
      GroupsOperand (.keyword k span) c (.keyword k none) (span.merge c.stop) c
  | keyword {k : Keyword} {span : Span} {c c₁ : Cursor} {target : Chain} (helse : k ≠ .elseWord)
      (hflow : k.isFlow = false) (hdeclaration : k.isDeclaration = false)
      (hend : c.atEnd = false) (htarget : Groups c target c₁) :
      GroupsOperand (.keyword k span) c (.keyword k (some target)) (span.merge c₁.stop) c₁
/-- **`GroupsArm`** — the condition and the clause of a flow keyword. -/
inductive GroupsArm : Keyword → Cursor → Arm → Cursor → Prop
  | parts {k : Keyword} {c c₁ c₂ : Cursor} {condition clause : Chain} (hend : c.atEnd = false)
      (hcondition : Groups c condition c₁) (hend₁ : c₁.atEnd = false)
      (hclause : Groups c₁ clause c₂) : GroupsArm k c (.mk k condition clause) c₂
/-- **`GroupsArms`** — what follows the first arm of a flow expression. -/
inductive GroupsArms : Cursor → List Arm → Option Chain → Cursor → Prop
  | stop {c : Cursor} (h : ∀ word rest, c.words = word :: rest → word.isElse = false) :
      GroupsArms c [] none c
  | arm {c c₁ c₂ : Cursor} {elseSpan span : Span} {k : Keyword} {rest : List Word} {arm : Arm}
      {arms : List Arm} {otherwise : Option Chain}
      (hwords : c.words = .keyword .elseWord elseSpan :: .keyword k span :: rest)
      (hk : k.isFlow = true) (harm : GroupsArm k ⟨rest, span.endPoint⟩ arm c₁)
      (harms : GroupsArms c₁ arms otherwise c₂) : GroupsArms c (arm :: arms) otherwise c₂
  | otherwise {c c₁ : Cursor} {word : Word} {rest : List Word} {chain : Chain}
      (hwords : c.words = word :: rest) (helse : word.isElse = true)
      (hflow : ∀ elseSpan k span more,
        c.words = .keyword .elseWord elseSpan :: .keyword k span :: more → k.isFlow = false)
      (hend : (Cursor.behind word rest).atEnd = false) (hchain : Groups (.behind word rest) chain c₁) :
      GroupsArms c [] (some chain) c₁
end

/-- **Induction along the chunks of a chain**; the chunks themselves are taken as they are. -/
theorem GroupsMore.induct {motive : ∀ c chain c', GroupsMore c chain c' → Prop}
    (stop : ∀ {c : Cursor}
      (h : ∀ op span rest, c.words = .operator op span :: rest → op.isBinary = false),
      motive c [] c (.stop h))
    (more : ∀ {c c₁ c₂ : Cursor} {op : Op} {span : Span} {rest : List Word} {next more : Chain}
      (hwords : c.words = .operator op span :: rest) (hop : op.isBinary = true)
      (hend : (Cursor.mk rest span.endPoint).atEnd = false)
      (hnext : GroupsChunk ⟨rest, span.endPoint⟩ next c₁) (hmore : GroupsMore c₁ more c₂),
      motive c₁ more c₂ hmore →
        motive c (.operator ⟨op, span⟩ :: next ++ more) c₂ (.more hwords hop hend hnext hmore)) :
    ∀ {c : Cursor} {chain : Chain} {c' : Cursor} (h : GroupsMore c chain c'), motive c chain c' h
  | _, _, _, .stop h => stop h
  | _, _, _, .more hwords hop hend hnext hmore =>
    more hwords hop hend hnext hmore (induct stop more hmore)

/-! ## §3 Outcomes -/

/-- **`Derives`** — with `n` for the depth of calls, what grouping makes has a derivation. -/
structure Derives (n : Nat) : Prop where
  group : ∀ {c chain c'}, group n c = .ok (chain, c') → Groups c chain c'
  chunks : ∀ {c chain c'}, chunks n c = .ok (chain, c') → GroupsMore c chain c'
  chunk : ∀ {last c chain c'}, chunk n last c = .ok (chain, c') → GroupsChunk c chain c'
  operand : ∀ {word c content span c'}, operand n word c = .ok (content, span, c') →
    GroupsOperand word c content span c'
  arm : ∀ {k span c found c'}, arm n k span c = .ok (found, c') → GroupsArm k c found c'
  arms : ∀ {c found otherwise c'}, arms n c = .ok (found, otherwise, c') →
    GroupsArms c found otherwise c'
  closing : ∀ {c found otherwise c'}, closing n c = .ok (found, otherwise, c') →
    found = [] ∧ c.atEnd = false ∧ ∃ chain, otherwise = some chain ∧ Groups c chain c'

namespace Derives

variable {n : Nat} {c c' : Cursor} {chain : Chain}

theorem group_succ (ih : Derives n) (h : Chain.group (n + 1) c = .ok (chain, c')) :
    Groups c chain c' := by
  unfold Chain.group at h
  split at h
  · next op span hwords =>
    cases h
    obtain ⟨words, stop⟩ := c
    obtain rfl : words = [.operator op span] := hwords
    exact .alone
  · next hlone =>
    obtain ⟨⟨first, c₁⟩, hfirst, h⟩ := bind_ok_iff.mp h
    obtain ⟨⟨more, c₂⟩, hmore, h⟩ := bind_ok_iff.mp h
    cases h
    exact .chunks hlone (ih.chunk hfirst) (ih.chunks hmore)

theorem chunks_succ (ih : Derives n) (h : Chain.chunks (n + 1) c = .ok (chain, c')) :
    GroupsMore c chain c' := by
  unfold Chain.chunks at h
  split at h
  · next op span rest hwords =>
    dsimp only at h
    split at h
    · next hop =>
      split at h
      · cases h
      · next hend =>
        obtain ⟨⟨next, c₁⟩, hnext, h⟩ := bind_ok_iff.mp h
        obtain ⟨⟨more, c₂⟩, hmore, h⟩ := bind_ok_iff.mp h
        cases h
        exact .more hwords hop (by simpa using hend) (ih.chunk hnext) (ih.chunks hmore)
    · next hop =>
      cases h
      refine .stop fun op' span' rest' hwords' => ?_
      cases hwords.symm.trans hwords'
      simpa using hop
  · next hne =>
    cases h
    exact .stop fun op span rest hwords => absurd hwords (hne _ _ _)

theorem chunk_succ (ih : Derives n) {last : Option Operator}
    (h : Chain.chunk (n + 1) last c = .ok (chain, c')) : GroupsChunk c chain c' := by
  unfold Chain.chunk at h
  dsimp only at h
  split at h
  · cases h
  · next word rest hwords =>
    obtain ⟨⟨content, span, c₁⟩, hoperand, h⟩ := bind_ok_iff.mp h
    cases h
    exact .around hwords (ih.operand hoperand)

theorem arm_succ (ih : Derives n) {k : Keyword} {span : Span} {found : Arm}
    (h : Chain.arm (n + 1) k span c = .ok (found, c')) : GroupsArm k c found c' := by
  unfold Chain.arm at h
  split at h
  · cases h
  · next hend =>
    obtain ⟨⟨condition, c₁⟩, hcondition, h⟩ := bind_ok_iff.mp h
    dsimp only at h
    split at h
    · cases h
    · next hend₁ =>
      obtain ⟨⟨clause, c₂⟩, hclause, h⟩ := bind_ok_iff.mp h
      cases h
      exact .parts (by simpa using hend) (ih.group hcondition) (by simpa using hend₁)
        (ih.group hclause)

theorem closing_succ (ih : Derives n) {found : List Arm} {otherwise : Option Chain}
    (h : Chain.closing (n + 1) c = .ok (found, otherwise, c')) :
    found = [] ∧ c.atEnd = false ∧ ∃ chain, otherwise = some chain ∧ Groups c chain c' := by
  unfold Chain.closing at h
  split at h
  · cases h
  · next hend =>
    obtain ⟨⟨chain, c₁⟩, hchain, h⟩ := bind_ok_iff.mp h
    cases h
    exact ⟨rfl, by simpa using hend, chain, rfl, ih.group hchain⟩

theorem arms_succ (ih : Derives n) {found : List Arm} {otherwise : Option Chain}
    (h : Chain.arms (n + 1) c = .ok (found, otherwise, c')) : GroupsArms c found otherwise c' := by
  unfold Chain.arms at h
  split at h
  · next elseSpan k span rest hwords =>
    split at h
    · next hk =>
      obtain ⟨⟨first, c₁⟩, hfirst, h⟩ := bind_ok_iff.mp h
      obtain ⟨⟨more, last, c₂⟩, hmore, h⟩ := bind_ok_iff.mp h
      cases h
      exact .arm hwords hk (ih.arm hfirst) (ih.arms hmore)
    · next hk =>
      -- The keyword behind the `else` begins the last clause.
      obtain ⟨rfl, hend, chain, rfl, hchain⟩ := ih.closing h
      refine .otherwise hwords rfl (fun _ _ _ _ hwords' => ?_) hend hchain
      cases hwords.symm.trans hwords'
      simpa using hk
  · next span rest hne hwords =>
    -- No keyword stands behind the `else`.
    obtain ⟨rfl, hend, chain, rfl, hchain⟩ := ih.closing h
    refine .otherwise hwords rfl (fun _ _ _ _ hwords' => ?_) hend hchain
    cases hwords.symm.trans hwords'
    exact absurd rfl (hne _ _ _)
  · next span rest hwords =>
    obtain ⟨rfl, hend, chain, rfl, hchain⟩ := ih.closing h
    refine .otherwise hwords rfl (fun _ _ _ _ hwords' => ?_) hend hchain
    cases hwords.symm.trans hwords'
  · next hflow helse hclosing =>
    cases h
    refine .stop fun word rest hwords => ?_
    cases word with
    | keyword k span =>
      cases k with
      | elseWord => exact absurd hwords (helse _ _)
      | _ => rfl
    | closingElse span => exact absurd hwords (hclosing _ _)
    | _ => rfl

theorem operand_succ (ih : Derives n) {word : Word} {content : Operand} {span : Span}
    (h : Chain.operand (n + 1) word c = .ok (content, span, c')) :
    GroupsOperand word c content span c' := by
  unfold Chain.operand at h
  split at h
  · obtain ⟨content, rfl, h⟩ := bind_ok_iff.mp h
    cases h
    exact .content
  · cases h
  · cases h
  · cases h
  · cases h
  · next k span =>
    split at h
    · cases h
    · next helse =>
      split at h
      · next hflow =>
        obtain ⟨⟨first, c₁⟩, hfirst, h⟩ := bind_ok_iff.mp h
        obtain ⟨⟨more, last, c₂⟩, hmore, h⟩ := bind_ok_iff.mp h
        cases h
        exact .flow hflow (ih.arm hfirst) (ih.arms hmore)
      · next hflow =>
        have hflow : k.isFlow = false := by simpa using hflow
        split at h
        · next hdeclaration =>
          split at h
          · cases h
          · next hend =>
            obtain ⟨⟨target, c₁⟩, htarget, h⟩ := bind_ok_iff.mp h
            cases h
            exact .declare hdeclaration (by simpa using hend) (ih.group htarget)
        · next hdeclaration =>
          have hdeclaration : k.isDeclaration = false := by simpa using hdeclaration
          split at h
          · next hend =>
            cases h
            exact .bare helse hflow hdeclaration hend
          · next hend =>
            obtain ⟨⟨target, c₁⟩, htarget, h⟩ := bind_ok_iff.mp h
            cases h
            exact .keyword helse hflow hdeclaration (by simpa using hend) (ih.group htarget)

end Derives

/-- **Every outcome of grouping has a derivation.** -/
theorem derives : ∀ n, Derives n
  | 0 => by constructor <;> intros <;> contradiction
  | n + 1 =>
    have ih := derives n
    ⟨ih.group_succ, ih.chunks_succ, ih.chunk_succ, ih.operand_succ, ih.arm_succ, ih.arms_succ,
      ih.closing_succ⟩

/-! ## §4 What is taken -/

/-- Grouping can take a word: what is inside of it is grouped, and settling leaves it. -/
def Word.IsTaken : Word → Prop
  | operand content _ => ∃ o, content = .ok o
  | unsettled _ => False
  | _ => True

/-- **`Spends`** — some words are left of others, and those in front of them are taken and have the given
signs. -/
def Spends (words left : List Word) (written : (Op → List Sign) → List Sign) : Prop :=
  ∃ taken, words = taken ++ left ∧ (∀ word ∈ taken, word.IsTaken) ∧
    ∀ read, taken.flatMap (Word.signs read) = written read

namespace Spends

variable {words middle left : List Word} {written more : (Op → List Sign) → List Sign}

theorem refl (words : List Word) : Spends words words fun _ => [] :=
  ⟨[], rfl, (fun _ h => by cases h), fun _ => rfl⟩

theorem trans (h : Spends words middle written) (hmore : Spends middle left more) :
    Spends words left fun read => written read ++ more read := by
  obtain ⟨taken, rfl, hall, hwritten⟩ := h
  obtain ⟨taken', rfl, hall', hmore⟩ := hmore
  refine ⟨taken ++ taken', by rw [List.append_assoc], List.forall_mem_append.mpr ⟨hall, hall'⟩,
    fun read => ?_⟩
  rw [List.flatMap_append, hwritten, hmore]

theorem word {word : Word} (hword : word.IsTaken) (left : List Word) :
    Spends (word :: left) left fun read => word.signs read :=
  ⟨[word], rfl, by simpa using hword, fun read => by rw [List.flatMap_singleton]⟩

theorem congr (h : Spends words left written) (heq : ∀ read, written read = more read) :
    Spends words left more := by
  obtain ⟨taken, hwords, hall, hwritten⟩ := h
  exact ⟨taken, hwords, hall, fun read => (hwritten read).trans (heq read)⟩

theorem length_le (h : Spends words left written) : left.length ≤ words.length := by
  obtain ⟨taken, rfl, -⟩ := h
  rw [List.length_append]
  exact Nat.le_add_left _ _

/-- A word that is left is one of the words. -/
theorem mem (h : Spends words left written) {word : Word} (hword : word ∈ left) : word ∈ words := by
  obtain ⟨taken, rfl, -⟩ := h
  exact List.mem_append_right _ hword

theorem operators (p : Op → Bool) (stop : Span) (words : List Word) :
    Spends words (takeOperators p stop words).2.words fun read =>
      signs read ((takeOperators p stop words).1.map .operator) := by
  refine ⟨_, takeOperators_words p stop words, ?_, fun read => ?_⟩
  · intro word hword
    obtain ⟨o, -, rfl⟩ := List.mem_map.mp hword
    trivial
  · dsimp only
    rw [signs_operators, List.flatMap_map]
    rfl

theorem semicolon (c : Cursor) :
    Spends c.words (takeSemicolon c).2.words fun read => signs read (takeSemicolon c).1 := by
  unfold takeSemicolon
  split
  · next span rest hwords =>
    rw [hwords]
    refine (Spends.word (by trivial) _).congr fun read => ?_
    simp [Word.signs, semicolonLinks, signs, operandSigns, atomSigns]
  · exact (Spends.refl _).congr fun read => by rw [signs]

end Spends

theorem isTaken_of_isElse {word : Word} (h : word.isElse = true) : word.IsTaken := by
  cases word with
  | keyword k span => trivial
  | closingElse span => trivial
  | _ => cases h

theorem signs_of_isElse {word : Word} {read : Op → List Sign} (h : word.isElse = true) :
    word.signs read = [.keyword .elseWord] := by
  cases word with
  | keyword k span => cases k <;> first | rfl | cases h
  | closingElse span => rfl
  | _ => cases h

mutual
/-- **A chain is written like the words that it takes.** -/
theorem Groups.spends : ∀ {c : Cursor} {chain : Chain} {c' : Cursor}, Groups c chain c' →
    Spends c.words c'.words fun read => signs read chain
  | _, _, _, .alone => (Spends.word (by trivial) _).congr fun read => by
      simp [Word.signs, signs, operandSigns, atomSigns]
  | _, _, _, .chunks _ hfirst hmore => by
    -- The first chunk, the chunks behind it, and the semicolon if there is one.
    refine ((hfirst.spends.trans hmore.spends).trans (.semicolon _)).congr fun read => ?_
    rw [signs_append, signs_append]
theorem GroupsMore.spends : ∀ {c : Cursor} {chain : Chain} {c' : Cursor}, GroupsMore c chain c' →
    Spends c.words c'.words fun read => signs read chain
  | _, _, _, .stop _ => (Spends.refl _).congr fun read => by rw [signs]
  | _, _, _, .more hwords _ _ hnext hmore => by
    rw [hwords]
    refine ((Spends.word (by trivial) _).trans (hnext.spends.trans hmore.spends)).congr fun read => ?_
    rw [List.cons_append, signs, signs_append]
    rfl
theorem GroupsChunk.spends : ∀ {c : Cursor} {chain : Chain} {c' : Cursor}, GroupsChunk c chain c' →
    Spends c.words c'.words fun read => signs read chain
  | c, _, _, .around hwords hoperand => by
    have hbefore := Spends.operators Op.isBefore c.stop c.words
    rw [hwords] at hbefore
    refine (hbefore.trans (hoperand.spends.trans (.operators _ _ _))).congr fun read => ?_
    rw [signs_append, signs]
/-- An operand is written like its word and the words behind that it takes. -/
theorem GroupsOperand.spends : ∀ {word : Word} {c : Cursor} {content : Operand} {span : Span}
    {c' : Cursor}, GroupsOperand word c content span c' →
    Spends (word :: c.words) c'.words fun read => operandSigns read span content
  | _, _, _, _, _, .content => by
    refine Spends.word ?_ _
    exact ⟨_, rfl⟩
  | _, _, _, _, _, .flow _ harm harms => by
    -- The keyword of the first arm is the word itself, so no `else` stands in front of it.
    obtain ⟨condition, clause, rfl, hparts⟩ := harm.spends
    refine ((Spends.word (by trivial) _).trans (hparts.trans harms.spends)).congr fun read => ?_
    simp [operandSigns_flow, armSigns, Word.signs]
  | _, _, _, _, _, .declare _ _ htarget => by
    refine ((Spends.word (by trivial) _).trans htarget.spends).congr fun read => ?_
    rw [operandSigns, Word.signs, List.singleton_append]
  | _, _, _, _, _, .bare .. => by
    refine (Spends.word (by trivial) _).congr fun read => ?_
    rw [operandSigns, Word.signs]
  | _, _, _, _, _, .keyword _ _ _ _ htarget => by
    refine ((Spends.word (by trivial) _).trans htarget.spends).congr fun read => ?_
    rw [operandSigns, Word.signs, List.singleton_append]
/-- An arm is written like its keyword and the words behind that it takes. -/
theorem GroupsArm.spends : ∀ {k : Keyword} {c : Cursor} {arm : Arm} {c' : Cursor},
    GroupsArm k c arm c' → ∃ condition clause, arm = .mk k condition clause ∧
      Spends c.words c'.words fun read => signs read condition ++ signs read clause
  | _, _, _, _, .parts _ hcondition _ hclause =>
    ⟨_, _, rfl, hcondition.spends.trans hclause.spends⟩
theorem GroupsArms.spends : ∀ {c : Cursor} {arms : List Arm} {otherwise : Option Chain}
    {c' : Cursor}, GroupsArms c arms otherwise c' → Spends c.words c'.words fun read =>
      armSigns read [.keyword .elseWord] arms ++ otherwiseSigns read otherwise
  | _, _, _, _, .stop _ => (Spends.refl _).congr fun read => by
      rw [armSigns, otherwiseSigns, List.append_nil]
  | _, _, _, _, .arm hwords _ harm harms => by
    obtain ⟨condition, clause, rfl, hparts⟩ := harm.spends
    rw [hwords]
    refine ((Spends.word (by trivial) _).trans ((Spends.word (by trivial) _).trans
      (hparts.trans harms.spends))).congr fun read => ?_
    simp [armSigns, Word.signs]
  | _, _, _, _, .otherwise hwords helse _ _ hchain => by
    rw [hwords]
    refine ((Spends.word (isTaken_of_isElse helse) _).trans hchain.spends).congr fun read => ?_
    rw [signs_of_isElse helse, armSigns, otherwiseSigns]
    rfl
end

variable {c c' : Cursor} {chain : Chain}

theorem GroupsArm.length_le {k : Keyword} {arm : Arm} (h : GroupsArm k c arm c') :
    c'.words.length ≤ c.words.length := by
  obtain ⟨condition, clause, -, hparts⟩ := h.spends
  exact hparts.length_le

theorem GroupsOperand.length_le {word : Word} {content : Operand} {span : Span}
    (h : GroupsOperand word c content span c') : c'.words.length ≤ c.words.length := by
  cases h with
  | content | bare => exact Nat.le_refl _
  | flow _ harm harms => exact Nat.le_trans harms.spends.length_le harm.length_le
  | declare _ _ htarget => exact htarget.spends.length_le
  | keyword _ _ _ _ htarget => exact htarget.spends.length_le

/-- A chunk takes a word. -/
theorem GroupsChunk.length_lt (h : GroupsChunk c chain c') : c'.words.length < c.words.length := by
  cases h with
  | @around _ c₁ word rest content span hwords hoperand =>
    have hbefore := length_takeOperators Op.isBefore c.stop c.words
    have hrest : c₁.words.length ≤ rest.length := hoperand.length_le
    have hafter := length_takeOperators isOnlyAfter c₁.stop c₁.words
    rw [hwords, List.length_cons] at hbefore
    omega

/-- A chain takes a word. -/
theorem Groups.length_lt (h : Groups c chain c') : c'.words.length < c.words.length := by
  cases h with
  | alone => exact Nat.zero_lt_one
  | chunks _ hfirst hmore =>
    exact Nat.lt_of_le_of_lt (Spends.semicolon _).length_le
      (Nat.lt_of_le_of_lt hmore.spends.length_le hfirst.length_lt)

/-! ## §5 Lists of words -/

/-- **`GroupsAll`** — the chains of all words that are left. -/
inductive GroupsAll : Cursor → List Chain → Prop
  | nil {c : Cursor} (h : c.words = []) : GroupsAll c []
  | cons {c c₁ : Cursor} {chain : Chain} {chains : List Chain} (hchain : Groups c chain c₁)
      (hrest : GroupsAll c₁ chains) : GroupsAll c (chain :: chains)

variable {d : Cursor} {chains : List Chain}

/-- Whatever the words are grouped to has a derivation. -/
theorem groupsAll_of_groupFrom {depth n : Nat} (h : groupFrom depth n c = .ok chains) :
    GroupsAll c chains := by
  induction n generalizing c chains with
  | zero =>
    unfold groupFrom at h
    split at h
    · next hend =>
      cases h
      exact .nil (List.isEmpty_iff.mp hend)
    · cases h
  | succ n ih =>
    unfold groupFrom at h
    split at h
    · next hend =>
      cases h
      exact .nil (List.isEmpty_iff.mp hend)
    · obtain ⟨⟨chain, c₁⟩, hchain, h⟩ := bind_ok_iff.mp h
      obtain ⟨more, hmore, h⟩ := bind_ok_iff.mp h
      cases h
      exact .cons ((derives depth).group hchain) (ih hmore)

/-- What a chunk is does not depend on what stands in front of it. -/
theorem GroupsChunk.restart (h : GroupsChunk c chain c') (hwords : d.words = c.words) :
    GroupsChunk d chain c' := by
  obtain ⟨words, stop⟩ := d
  obtain rfl : words = c.words := hwords
  cases h with
  | around hrest hoperand =>
    obtain ⟨hbefore, hleft⟩ := takeOperators_stop Op.isBefore c.stop stop c.words
    rw [← hbefore]
    exact .around (hleft.trans hrest) hoperand

/-- What a chain is does not depend on what stands in front of it. -/
theorem Groups.restart (h : Groups c chain c') (hwords : d.words = c.words) : Groups d chain c' := by
  cases h with
  | alone =>
    obtain ⟨words, stop⟩ := d
    cases hwords
    exact .alone
  | chunks hlone hfirst hmore =>
    exact .chunks (fun op span => by rw [hwords]; exact hlone op span) (hfirst.restart hwords) hmore

theorem GroupsAll.restart (h : GroupsAll c chains) (hwords : d.words = c.words) :
    GroupsAll d chains := by
  cases h with
  | nil hnil => exact .nil (hwords.trans hnil)
  | cons hchain hrest => exact .cons (hchain.restart hwords) hrest

theorem groupsAll_of_ofWords {words : List Word} (stop : Span) (h : ofWords words = .ok chains) :
    GroupsAll ⟨words, stop⟩ chains :=
  (groupsAll_of_groupFrom h).restart rfl

/-- All words are taken, and the chains are written like them. -/
theorem GroupsAll.signsAll_eq (h : GroupsAll c chains) : (∀ word ∈ c.words, word.IsTaken) ∧
    ∀ read, signsAll read chains = c.words.flatMap (Word.signs read) := by
  induction h with
  | nil hnil =>
    rw [hnil]
    exact ⟨(fun _ h => by cases h), fun read => by rw [signsAll, List.flatMap_nil]⟩
  | cons hchain _ ih =>
    obtain ⟨hrest, hmore⟩ := ih
    obtain ⟨taken, hwords, htaken, hwritten⟩ := hchain.spends
    rw [hwords]
    refine ⟨List.forall_mem_append.mpr ⟨htaken, hrest⟩, fun read => ?_⟩
    rw [signsAll, List.flatMap_append, hwritten, hmore]

end Chain

end DewyFront
