/-
# DewyFront.Proofs.Semicolons — where a semicolon ends its expression, and where it does not

A semicolon is taken by the innermost chain. If that is a chain of its own list, nothing behind the
semicolon belongs to it. If it is the target of a declaration or the operand of a keyword, the chain
around that goes on behind the semicolon, and takes an operator that stands there. So words behind a
semicolon are grouped by themselves unless both is the case: the semicolon is inside of a keyword's
operand, and an operator follows that may stand behind an operand.

* §1 words that end with a semicolon, and words behind;
* §2 derivations with more words behind;
* §3 the semicolon of a chain;
* §4 what a chain leaves;
* §5 lists of words;
* §6 words without keywords;
* §7 items.
-/
import DewyFront.Proofs.Depth

namespace DewyFront

namespace Chain

/-! ## §1 Words before and behind -/

/-- **`Terminated`** — the last word is a semicolon, if there is one. -/
def Terminated (words : List Word) : Prop := ∀ word ∈ words.getLast?, ∃ span, word = .semicolon span

/-- **`Begins`** — no word in front could go on with a chain: it is no semicolon and no `else`, and no
operator that stands between or behind operands. -/
def Begins (words : List Word) : Prop :=
  ∀ word ∈ words.head?, word.isElse = false ∧ (∀ span, word ≠ .semicolon span) ∧
    ∀ op span, word = .operator op span → op.isBinary = false ∧ isOnlyAfter op = false

/-- A place with more words behind those that are left. -/
def Cursor.append (c : Cursor) (back : List Word) : Cursor := ⟨c.words ++ back, c.stop⟩

variable {words left rest back : List Word} {word : Word} {c c' : Cursor} {chain : Chain}
  {written : (Op → List Sign) → List Sign}

theorem Terminated.of_append {front : List Word} (h : Terminated (front ++ left)) :
    Terminated left := by
  intro word hword
  apply h word
  rw [List.getLast?_append, Option.mem_def.mp hword]
  rfl

theorem Terminated.of_spends (h : Terminated words) (hspends : Spends words left written) :
    Terminated left := by
  obtain ⟨taken, rfl, -⟩ := hspends
  exact h.of_append

/-- The last word is not one that is no semicolon. -/
theorem Terminated.ne_nil (h : Terminated (word :: rest)) (hword : ∀ span, word ≠ .semicolon span) :
    rest ≠ [] := by
  rintro rfl
  obtain ⟨span, rfl⟩ := h word rfl
  exact hword span rfl

theorem Terminated.tail (h : Terminated (word :: rest)) : Terminated rest :=
  Terminated.of_append (show Terminated ([word] ++ rest) from h)

theorem ne_nil_of_spends (h : Spends words left written) (hne : left ≠ []) : words ≠ [] := by
  obtain ⟨taken, rfl, -⟩ := h
  simp [hne]

theorem atEnd_append (h : c.words ≠ []) : (c.append back).atEnd = c.atEnd := by
  obtain ⟨words, stop⟩ := c
  cases words with
  | nil => exact absurd rfl h
  | cons word rest => cases word <;> rfl

theorem ne_nil_of_atEnd (h : c.atEnd = false) : c.words ≠ [] := by
  intro hwords
  rw [Cursor.atEnd, hwords] at h
  cases h

theorem takeOperators_append {p : Op → Bool} (stop : Span) (h : Terminated words)
    (hback : words ≠ [] ∨ ∀ op span rest, back = .operator op span :: rest → p op = false) :
    takeOperators p stop (words ++ back) =
      ((takeOperators p stop words).1, (takeOperators p stop words).2.append back) := by
  induction words generalizing stop with
  | nil =>
    have hback := hback.resolve_left (absurd rfl)
    cases back with
    | nil => rfl
    | cons word rest =>
      cases word with
      | operator op span =>
        rw [List.nil_append, takeOperators, if_neg (Bool.eq_false_iff.mp (hback op span rest rfl))]
        rfl
      | _ => rfl
  | cons word rest ih =>
    cases word with
    | operator op span =>
      rw [List.cons_append, takeOperators, takeOperators]
      split
      · rw [ih span.endPoint h.tail (.inl (h.ne_nil (fun _ h => by cases h)))]
      · rfl
    | _ => rfl

theorem takeSemicolon_append (h : c.words ≠ [] ∨ Begins back) :
    takeSemicolon (c.append back) = ((takeSemicolon c).1, (takeSemicolon c).2.append back) := by
  obtain ⟨words, stop⟩ := c
  cases words with
  | cons word rest => cases word <;> rfl
  | nil =>
    have hback := h.resolve_left (absurd rfl)
    cases back with
    | nil => rfl
    | cons word rest =>
      cases word with
      | semicolon span =>
        obtain ⟨-, hne, -⟩ := hback _ rfl
        exact absurd rfl (hne span)
      | _ => rfl

/-! ## §2 More words behind -/

theorem ne_nil_of_length_lt {n : Nat} (h : n < words.length) : words ≠ [] := by
  rintro rfl
  cases h

/-- A chain whose chunks are there with more words behind is there as well. -/
theorem Groups.of_extended {c₁ c₂ : Cursor} {first more : Chain}
    (hlone : ∀ op span, c.words ≠ [.operator op span]) (hne : c.words ≠ [])
    (hfirst : GroupsChunk (c.append back) first (c₁.append back))
    (hmore : GroupsMore (c₁.append back) more (c₂.append back))
    (hback : c₂.words ≠ [] ∨ Begins back) :
    Groups (c.append back) (first ++ more ++ (takeSemicolon c₂).1)
      ((takeSemicolon c₂).2.append back) := by
  have hchunks := Groups.chunks (fun op span hwords => ?_) hfirst hmore
  · rwa [takeSemicolon_append hback] at hchunks
  · have hlength := congrArg List.length hwords
    have hpos := List.length_pos_iff.mpr hne
    rw [Cursor.append, List.length_append, List.length_singleton] at hlength
    have hnil : back = [] := List.length_eq_zero_iff.mp (by omega)
    rw [Cursor.append, hnil, List.append_nil] at hwords
    exact hlone op span hwords

mutual
/-- **Words behind a semicolon leave a chain as it is**, if some of the chain's own words are left, or
if nothing behind goes on with it. -/
theorem Groups.extend : ∀ {c : Cursor} {chain : Chain} {c' : Cursor}, Groups c chain c' →
    Terminated c.words → (c'.words ≠ [] ∨ Begins back) →
      Groups (c.append back) chain (c'.append back)
  | _, _, _, .alone, h, _ => absurd rfl (h.ne_nil (fun _ h => by cases h))
  | c, _, _, @Groups.chunks _ c₁ c₂ _ _ hlone hfirst hmore, h, hback => by
    have hback₂ : c₂.words ≠ [] ∨ Begins back :=
      hback.imp_left (ne_nil_of_spends (Spends.semicolon c₂))
    have hback₁ := hback₂.imp_left (ne_nil_of_spends hmore.spends)
    exact Groups.of_extended hlone (ne_nil_of_length_lt hfirst.length_lt) (hfirst.extend h hback₁)
      (hmore.extend (h.of_spends hfirst.spends) hback₂) hback₂
theorem GroupsMore.extend : ∀ {c : Cursor} {chain : Chain} {c' : Cursor}, GroupsMore c chain c' →
    Terminated c.words → (c'.words ≠ [] ∨ Begins back) →
      GroupsMore (c.append back) chain (c'.append back)
  | c, _, _, .stop hstop, _, hback => by
    refine .stop fun op span rest hwords => ?_
    obtain ⟨words, stop⟩ := c
    cases words with
    | nil =>
      have hhead : back.head? = some (.operator op span) := congrArg List.head? hwords
      exact ((hback.resolve_left (absurd rfl) _ hhead).2.2 op span rfl).1
    | cons word rest =>
      cases hwords
      exact hstop op span rest rfl
  | c, _, _, .more hwords hop hend hnext hmore, h, hback => by
    rw [hwords] at h
    refine .more (by rw [Cursor.append, hwords]; rfl) hop ?_
      (hnext.extend h.tail (hback.imp_left (ne_nil_of_spends hmore.spends)))
      (hmore.extend (h.tail.of_spends hnext.spends) hback)
    exact (atEnd_append (h.ne_nil (fun _ h => by cases h))).trans hend
theorem GroupsChunk.extend : ∀ {c : Cursor} {chain : Chain} {c' : Cursor}, GroupsChunk c chain c' →
    Terminated c.words → (c'.words ≠ [] ∨ Begins back) →
      GroupsChunk (c.append back) chain (c'.append back)
  | c, _, _, @GroupsChunk.around _ c₁ word rest content span hwords hoperand, h, hback => by
    have hspends := Spends.operators Op.isBefore c.stop c.words
    have hleft := h.of_spends hspends
    rw [hwords] at hleft
    have hne : c.words ≠ [] := ne_nil_of_spends hspends (by rw [hwords]; exact List.cons_ne_nil _ _)
    have hbefore : takeOperators Op.isBefore (c.append back).stop (c.append back).words =
        ((takeOperators Op.isBefore c.stop c.words).1,
          (takeOperators Op.isBefore c.stop c.words).2.append back) :=
      takeOperators_append c.stop h (.inl hne)
    have hback₁ : c₁.words ≠ [] ∨ Begins back :=
      hback.imp_left (ne_nil_of_spends (.operators isOnlyAfter c₁.stop c₁.words))
    have hafter : takeOperators isOnlyAfter (c₁.append back).stop (c₁.append back).words =
        ((takeOperators isOnlyAfter c₁.stop c₁.words).1,
          (takeOperators isOnlyAfter c₁.stop c₁.words).2.append back) := by
      refine takeOperators_append c₁.stop (hleft.of_spends hoperand.spends) (hback₁.imp_right ?_)
      rintro hbegins op span rest rfl
      exact ((hbegins _ rfl).2.2 op span rfl).2
    have hchunk := GroupsChunk.around (c := c.append back) (by rw [hbefore, Cursor.append, hwords]; rfl)
      (hoperand.extend hleft hback₁)
    rwa [hbefore, hafter] at hchunk
theorem GroupsOperand.extend : ∀ {word : Word} {c : Cursor} {content : Operand} {span : Span}
    {c' : Cursor}, GroupsOperand word c content span c' → Terminated (word :: c.words) →
      (c'.words ≠ [] ∨ Begins back) → GroupsOperand word (c.append back) content span (c'.append back)
  | _, _, _, _, _, .content, _, _ => .content
  | _, _, _, _, _, .flow hk harm harms, h, hback => by
    obtain ⟨condition, clause, -, hparts⟩ := harm.spends
    exact .flow hk (harm.extend h.tail (hback.imp_left (ne_nil_of_spends harms.spends)))
      (harms.extend (h.tail.of_spends hparts) hback)
  | _, _, _, _, _, .declare hk hend htarget, h, hback =>
    .declare hk ((atEnd_append (ne_nil_of_atEnd hend)).trans hend) (htarget.extend h.tail hback)
  | _, _, _, _, _, .bare helse hflow hdeclaration hend, h, _ =>
    .bare helse hflow hdeclaration ((atEnd_append (h.ne_nil (fun _ h => by cases h))).trans hend)
  | _, _, _, _, _, .keyword helse hflow hdeclaration hend htarget, h, hback =>
    .keyword helse hflow hdeclaration ((atEnd_append (ne_nil_of_atEnd hend)).trans hend)
      (htarget.extend h.tail hback)
theorem GroupsArm.extend : ∀ {k : Keyword} {c : Cursor} {arm : Arm} {c' : Cursor},
    GroupsArm k c arm c' → Terminated c.words → (c'.words ≠ [] ∨ Begins back) →
      GroupsArm k (c.append back) arm (c'.append back)
  | _, _, _, _, .parts hend hcondition hend₁ hclause, h, hback => by
    have hne := ne_nil_of_atEnd hend₁
    exact .parts ((atEnd_append (ne_nil_of_atEnd hend)).trans hend)
      (hcondition.extend h (.inl hne)) ((atEnd_append hne).trans hend₁)
      (hclause.extend (h.of_spends hcondition.spends) hback)
theorem GroupsArms.extend : ∀ {c : Cursor} {arms : List Arm} {otherwise : Option Chain}
    {c' : Cursor}, GroupsArms c arms otherwise c' → Terminated c.words →
      (c'.words ≠ [] ∨ Begins back) → GroupsArms (c.append back) arms otherwise (c'.append back)
  | c, _, _, _, .stop hstop, _, hback => by
    refine .stop fun word rest hwords => ?_
    obtain ⟨words, stop⟩ := c
    cases words with
    | nil =>
      have hhead : back.head? = some word := congrArg List.head? hwords
      exact (hback.resolve_left (absurd rfl) _ hhead).1
    | cons first more =>
      cases hwords
      exact hstop word more rfl
  | c, _, _, _, .arm hwords hk harm harms, h, hback => by
    obtain ⟨condition, clause, -, hparts⟩ := harm.spends
    rw [hwords] at h
    exact .arm (by rw [Cursor.append, hwords]; rfl) hk
      (harm.extend h.tail.tail (hback.imp_left (ne_nil_of_spends harms.spends)))
      (harms.extend (h.tail.tail.of_spends hparts) hback)
  | c, _, _, _, @GroupsArms.otherwise _ _ word rest _ hwords helse hflow hend hchain, h, hback => by
    rw [hwords] at h
    have hne : rest ≠ [] := h.ne_nil (by rintro span rfl; cases helse)
    refine .otherwise (by rw [Cursor.append, hwords]; rfl) helse ?_
      ((atEnd_append hne).trans hend) (hchain.extend h.tail hback)
    intro elseSpan k span more heq
    obtain ⟨next, tail, rfl⟩ := List.exists_cons_of_ne_nil hne
    rw [Cursor.append, hwords] at heq
    cases heq
    exact hflow elseSpan k span tail hwords
end

/-! ## §3 The semicolon of a chain -/

/-- **`EndsWithSemicolon`** — the last link of a chain is a semicolon of its own. -/
def EndsWithSemicolon (chain : Chain) : Prop :=
  ∃ span, chain.getLast? = some (.operand (.atom .semicolon) span)

/-- A word is no operand that is a semicolon: semicolons are words of their own. -/
def Word.IsSpelled : Word → Prop
  | operand content _ => content ≠ .ok (.atom .semicolon)
  | _ => True

theorem GroupsOperand.ne_semicolon {content : Operand} {span : Span}
    (h : GroupsOperand word c content span c') (hword : word.IsSpelled) :
    content ≠ .atom .semicolon := by
  cases h with
  | content =>
    rintro rfl
    exact hword rfl
  | _ => exact fun h => by cases h

/-- No link of a chunk is a semicolon. -/
theorem GroupsChunk.unclosed (h : GroupsChunk c chain c') (hc : ∀ word ∈ c.words, word.IsSpelled)
    (span : Span) : .operand (.atom .semicolon) span ∉ chain := by
  cases h with
  | @around _ c₁ word rest content s hwords hoperand =>
    have hword : word.IsSpelled := by
      apply hc word
      rw [takeOperators_words Op.isBefore c.stop c.words, hwords]
      exact List.mem_append_right _ List.mem_cons_self
    have hne := hoperand.ne_semicolon hword
    intro hmem
    rcases List.mem_append.mp hmem with hmem | hmem
    · obtain ⟨o, -, ho⟩ := List.mem_map.mp hmem
      cases ho
    · rcases List.mem_cons.mp hmem with heq | hmem
      · cases heq
        exact hne rfl
      · obtain ⟨o, -, ho⟩ := List.mem_map.mp hmem
        cases ho

/-- No link behind a chunk is a semicolon, up to the end of the chunks. -/
theorem GroupsMore.unclosed (h : GroupsMore c chain c') (hc : ∀ word ∈ c.words, word.IsSpelled)
    (span : Span) : .operand (.atom .semicolon) span ∉ chain := by
  induction h using GroupsMore.induct with
  | stop => exact List.not_mem_nil
  | more hwords _ _ hnext _ ih =>
    rw [hwords] at hc
    obtain ⟨-, hrest⟩ := List.forall_mem_cons.mp hc
    intro hmem
    rcases List.mem_append.mp hmem with hmem | hmem
    · rcases List.mem_cons.mp hmem with heq | hmem
      · cases heq
      · exact hnext.unclosed hrest span hmem
    · exact ih (fun word hword => hrest word (hnext.spends.mem hword)) hmem

/-- **Nothing behind the semicolon of a chain belongs to it.** -/
theorem Groups.extend_of_semicolon (h : Groups c chain c') (hc : ∀ word ∈ c.words, word.IsSpelled)
    (hterminated : Terminated c.words) (hends : EndsWithSemicolon chain) :
    Groups (c.append back) chain (c'.append back) := by
  obtain ⟨span, hlast⟩ := hends
  cases h with
  | alone => cases hlast
  | @chunks _ c₁ c₂ first more hlone hfirst hmore =>
    -- A semicolon is no link of a chunk, so the chunks leave it.
    have hne : c₂.words ≠ [] := by
      intro hnil
      have hnone : (takeSemicolon c₂).1 = [] := by rw [takeSemicolon, hnil]
      rw [hnone, List.append_nil] at hlast
      rcases List.mem_append.mp (List.mem_of_getLast? hlast) with hmem | hmem
      · exact hfirst.unclosed hc span hmem
      · exact hmore.unclosed (fun word hword => hc word (hfirst.spends.mem hword)) span hmem
    exact Groups.of_extended hlone (ne_nil_of_length_lt hfirst.length_lt)
      (hfirst.extend hterminated (.inl (ne_nil_of_spends hmore.spends hne)))
      (hmore.extend (hterminated.of_spends hfirst.spends) (.inl hne)) (.inl hne)

/-! ## §4 What is left -/

/-- An operator that a chunk leaves is not one that only stands behind operands. -/
theorem GroupsChunk.leaves {op : Op} {span : Span} (h : GroupsChunk c chain c')
    (hwords : c'.words = .operator op span :: rest) : isOnlyAfter op = false := by
  cases h with
  | around => exact takeOperators_head hwords

/-- An operator that the chunks of a chain leave goes on with none. -/
theorem GroupsMore.leaves (h : GroupsMore c chain c')
    (hc : ∀ op span rest, c.words = .operator op span :: rest → isOnlyAfter op = false) (op : Op)
    (span : Span) (rest : List Word) (hwords : c'.words = .operator op span :: rest) :
    op.isBinary = false ∧ isOnlyAfter op = false := by
  induction h using GroupsMore.induct with
  | stop hstop => exact ⟨hstop op span rest hwords, hc op span rest hwords⟩
  | more _ _ _ hnext _ ih => exact ih (fun _ _ _ => hnext.leaves) hwords

/-- **A chain without a semicolon of its own goes on as long as it can.** -/
theorem Groups.leaves {op : Op} {span : Span} (h : Groups c chain c')
    (hwords : c'.words = .operator op span :: rest) :
    EndsWithSemicolon chain ∨ op.isBinary = false ∧ isOnlyAfter op = false := by
  cases h with
  | alone => cases hwords
  | @chunks _ c₁ c₂ first more hlone hfirst hmore =>
    unfold takeSemicolon at hwords ⊢
    split at hwords
    · next s left hleft =>
      left
      exact ⟨s, by simp [semicolonLinks]⟩
    · exact .inr (hmore.leaves (fun _ _ _ => hfirst.leaves) op span rest hwords)

/-- A chain begins with a word that may begin one. -/
theorem Groups.head (h : Groups c chain c') : ∀ word ∈ c.words.head?,
    word.isElse = false ∧ ∀ span, word ≠ .semicolon span := by
  intro word hword
  cases h with
  | alone =>
    cases hword
    exact ⟨rfl, fun _ h => by cases h⟩
  | chunks _ hfirst _ =>
    cases hfirst with
    | around hwords hoperand =>
      obtain ⟨tail, htail⟩ := List.head?_eq_some_iff.mp hword
      rw [htail] at hwords
      cases word with
      | operator op span => exact ⟨rfl, fun _ h => by cases h⟩
      | operand content span => exact ⟨rfl, fun _ h => by cases h⟩
      | unsettled span => exact ⟨rfl, fun _ h => by cases h⟩
      | semicolon span =>
        cases hwords
        cases hoperand
      | closingElse span =>
        cases hwords
        cases hoperand
      | keyword k span =>
        refine ⟨?_, fun _ h => by cases h⟩
        cases hwords
        cases hoperand with
        | flow hk => cases k <;> first | rfl | cases hk
        | declare hk => cases k <;> first | rfl | cases hk
        | bare helse => cases k <;> first | rfl | exact absurd rfl helse
        | keyword helse => cases k <;> first | rfl | exact absurd rfl helse

/-! ## §5 Lists of words -/

variable {front chains : List Chain} {stop : Span}

theorem Groups.unique {other : Chain} {d : Cursor} (h : Groups c chain c') (h' : Groups c other d) :
    chain = other ∧ c' = d := by
  have hfound := h.found (Nat.le_refl _)
  rw [h'.found (Nat.le_refl _)] at hfound
  cases hfound
  exact ⟨rfl, rfl⟩

theorem GroupsAll.eq_nil_iff (h : GroupsAll c chains) : chains = [] ↔ c.words = [] := by
  cases h with
  | nil hnil => exact ⟨fun _ => hnil, fun _ => rfl⟩
  | cons hchain hrest =>
    have hne := ne_nil_of_length_lt hchain.length_lt
    exact ⟨(fun h => by cases h), fun hnil => absurd hnil hne⟩

/-- Words that are grouped by themselves go on with no chain, if no operator in front does. -/
theorem GroupsAll.begins (h : GroupsAll ⟨back, stop⟩ chains)
    (hoperator : ∀ op span, back.head? = some (.operator op span) →
      op.isBinary = false ∧ isOnlyAfter op = false) : Begins back := by
  intro word hword
  cases h with
  | nil hnil =>
    obtain rfl : back = [] := hnil
    cases hword
  | cons hchain hrest =>
    obtain ⟨helse, hsemicolon⟩ := hchain.head word hword
    refine ⟨helse, hsemicolon, ?_⟩
    rintro op span rfl
    exact hoperator op span hword

/-- **Words behind a semicolon are grouped by themselves**, if the last chain ends with the semicolon or
nothing behind goes on with it. -/
theorem GroupsAll.append (h : GroupsAll c front) (hc : ∀ word ∈ c.words, word.IsSpelled)
    (hterminated : Terminated c.words) (hne : c.words ≠ [])
    (hends : (∃ chain ∈ front.getLast?, EndsWithSemicolon chain) ∨ Begins back)
    (hback : GroupsAll ⟨back, stop⟩ chains) : GroupsAll (c.append back) (front ++ chains) := by
  induction h with
  | nil hnil => exact absurd hnil hne
  | @cons c c₁ chain front hchain hrest ih =>
    by_cases hnil : c₁.words = []
    · -- This is the last chain, so what ends it decides.
      obtain rfl : front = [] := hrest.eq_nil_iff.mpr hnil
      have hextended : Groups (c.append back) chain (c₁.append back) := by
        rcases hends with ⟨last, hlast, hsemicolon⟩ | hbegins
        · cases hlast
          exact hchain.extend_of_semicolon hc hterminated hsemicolon
        · exact hchain.extend hterminated (.inr hbegins)
      refine .cons hextended (hback.restart ?_)
      rw [Cursor.append, hnil, List.nil_append]
    · have hfront : front ≠ [] := fun heq => hnil (hrest.eq_nil_iff.mp heq)
      rw [List.getLast?_cons_of_ne_nil hfront] at hends
      exact .cons (hchain.extend hterminated (.inl hnil))
        (ih (fun word hword => hc word (hchain.spends.mem hword))
          (hterminated.of_spends hchain.spends) hnil hends)

/-- Words with the same chains have the same signs, so none with a sign is in front of the others. -/
theorem GroupsAll.eq_nil_of_append {d : Cursor} (h : GroupsAll c chains) (h' : GroupsAll d chains)
    (hwords : c.words = words ++ d.words) (read : Op → List Sign) :
    words.flatMap (Word.signs read) = [] := by
  have hsigns := (h.signsAll_eq.2 read).symm.trans (h'.signsAll_eq.2 read)
  rw [hwords, List.flatMap_append] at hsigns
  simpa using hsigns

theorem ne_nil_of_terminated (hterminated : Terminated words) (hne : words ≠ []) :
    words.flatMap (Word.signs fun _ => [.backtick]) ≠ [] := by
  obtain ⟨span, hspan⟩ := hterminated _ (List.getLast?_eq_some_getLast hne)
  intro hnil
  have hnone := List.flatMap_eq_nil_iff.mp hnil _ (List.getLast_mem hne)
  rw [hspan, Word.signs] at hnone
  cases hnone

/-- **What a chain leaves is the words behind**, if they have the chains of those: fewer words or more
would have other signs. -/
theorem GroupsAll.words_eq_of_append {d : Cursor} {taken : List Word} {op : Op} {span : Span}
    (hback : GroupsAll ⟨back, stop⟩ chains) (h : GroupsAll d chains)
    (hwords : words ++ back = taken ++ d.words) (hhead : back.head? = some (.operator op span))
    (hterminated : Terminated words) : d.words = back := by
  rcases List.append_eq_append_iff.mp hwords with ⟨extra, -, hextra⟩ | ⟨extra, hextra, hd⟩
  · -- Fewer: the operator in front of the words behind would have no sign.
    have hnone := hback.eq_nil_of_append h hextra fun _ => [.backtick]
    cases extra with
    | nil => exact hextra.symm
    | cons word extra =>
      rw [hextra] at hhead
      cases hhead
      cases hnone
  · -- More: the semicolon would have none.
    have hnone := h.eq_nil_of_append hback hd fun _ => [.backtick]
    by_cases hempty : extra = []
    · rw [hd, hempty, List.nil_append]
    · rw [hextra] at hterminated
      exact absurd hnone (ne_nil_of_terminated hterminated.of_append hempty)

/-- **Otherwise they are not**: the last chain would have left an operator that goes on with it. -/
theorem GroupsAll.of_append (h : GroupsAll c front) (hterminated : Terminated c.words)
    (hne : c.words ≠ []) (hall : GroupsAll (c.append back) (front ++ chains))
    (hback : GroupsAll ⟨back, stop⟩ chains) :
    (∃ chain ∈ front.getLast?, EndsWithSemicolon chain) ∨
      ∀ op span, back.head? = some (.operator op span) →
        op.isBinary = false ∧ isOnlyAfter op = false := by
  induction h with
  | nil hnil => exact absurd hnil hne
  | @cons c c₁ chain front hchain hrest ih =>
    cases hall with
    | @cons _ d _ _ hchain' hrest' =>
      by_cases hnil : c₁.words = []
      · obtain rfl : front = [] := hrest.eq_nil_iff.mpr hnil
        by_cases hsemicolon : EndsWithSemicolon chain
        · exact .inl ⟨chain, rfl, hsemicolon⟩
        · right
          intro op span hhead
          obtain ⟨taken, htaken, -⟩ := hchain'.spends
          have hleft := hback.words_eq_of_append hrest' htaken hhead hterminated
          obtain ⟨tail, htail⟩ := List.head?_eq_some_iff.mp hhead
          rw [htail] at hleft
          exact (hchain'.leaves hleft).resolve_left hsemicolon
      · -- The chain is the same with the words behind, so those it leaves are grouped like before.
        have hfront : front ≠ [] := fun heq => hnil (hrest.eq_nil_iff.mp heq)
        rw [List.getLast?_cons_of_ne_nil hfront]
        obtain ⟨-, rfl⟩ := (hchain.extend hterminated (.inl hnil)).unique hchain'
        exact ih (hterminated.of_spends hchain.spends) hnil hrest'

/-! ## §6 Words without keywords -/

/-- Without keywords an operand is its word, so a chunk leaves the semicolon. -/
theorem GroupsChunk.leaves_semicolon (h : GroupsChunk c chain c') (hterminated : Terminated c.words)
    (hkeyword : ∀ word ∈ c.words, ∀ k span, word ≠ .keyword k span) : c'.words ≠ [] := by
  cases h with
  | @around _ c₁ word rest content span hwords hoperand =>
    have hspends := Spends.operators Op.isBefore c.stop c.words
    rw [hwords] at hspends
    have hrest : rest ≠ [] := by
      apply (hterminated.of_spends hspends).ne_nil
      rintro s rfl
      cases hoperand
    have hc₁ : c₁.words = rest := by
      cases hoperand with
      | content => rfl
      | _ => exact absurd rfl (hkeyword _ (hspends.mem List.mem_cons_self) _ _)
    rw [hc₁]
    -- Were nothing left, the semicolon would be an operator.
    intro hnil
    have hall := takeOperators_words isOnlyAfter c₁.stop rest
    rw [hnil, List.append_nil] at hall
    obtain ⟨s, hlast⟩ := (hterminated.of_spends hspends).tail _ (List.getLast?_eq_some_getLast hrest)
    have hmem := List.getLast_mem hrest
    rw [hlast, hall] at hmem
    obtain ⟨o, -, ho⟩ := List.mem_map.mp hmem
    cases ho

theorem GroupsMore.leaves_semicolon (h : GroupsMore c chain c') (hne : c.words ≠ [])
    (hterminated : Terminated c.words)
    (hkeyword : ∀ word ∈ c.words, ∀ k span, word ≠ .keyword k span) : c'.words ≠ [] := by
  induction h using GroupsMore.induct with
  | stop => exact hne
  | more hwords _ _ hnext _ ih =>
    rw [hwords] at hterminated hkeyword
    obtain ⟨-, hrest⟩ := List.forall_mem_cons.mp hkeyword
    exact ih (hnext.leaves_semicolon hterminated.tail hrest)
      (hterminated.tail.of_spends hnext.spends) fun word hword => hrest word (hnext.spends.mem hword)

/-- Without keywords the chain that comes last ends with the semicolon. -/
theorem GroupsAll.endsWithSemicolon (h : GroupsAll c chains) (hne : c.words ≠ [])
    (hterminated : Terminated c.words)
    (hkeyword : ∀ word ∈ c.words, ∀ k span, word ≠ .keyword k span) :
    ∃ chain ∈ chains.getLast?, EndsWithSemicolon chain := by
  induction h with
  | nil hnil => exact absurd hnil hne
  | @cons c c₁ chain chains hchain hrest ih =>
    by_cases hnil : c₁.words = []
    · obtain rfl : chains = [] := hrest.eq_nil_iff.mpr hnil
      refine ⟨chain, rfl, ?_⟩
      cases hchain with
      | alone => exact absurd rfl (hterminated.ne_nil (fun _ h => by cases h))
      | @chunks _ d d₂ first more hlone hfirst hmore =>
        have hleft : d₂.words ≠ [] :=
          hmore.leaves_semicolon (hfirst.leaves_semicolon hterminated hkeyword)
            (hterminated.of_spends hfirst.spends)
            fun word hword => hkeyword word (hfirst.spends.mem hword)
        unfold takeSemicolon at hnil ⊢
        split at hnil
        · next s left hwords => exact ⟨s, by simp [semicolonLinks]⟩
        · exact absurd hnil hleft
    · have hfront : chains ≠ [] := fun heq => hnil (hrest.eq_nil_iff.mp heq)
      rw [List.getLast?_cons_of_ne_nil hfront]
      exact ih hnil (hterminated.of_spends hchain.spends)
        fun word hword => hkeyword word (hchain.spends.mem hword)

/-! ## §7 Items -/

theorem wordsOf_append (xs ys : List Tree) : wordsOf (xs ++ ys) = wordsOf xs ++ wordsOf ys := by
  induction xs with
  | nil => rw [List.nil_append, wordsOf, List.nil_append]
  | cons item xs ih => rw [List.cons_append, wordsOf, wordsOf, ih, List.cons_append]

/-- The words of items are spelled. -/
theorem isSpelled_wordsOf (items : List Tree) : ∀ word ∈ wordsOf items, word.IsSpelled := by
  induction items with
  | nil =>
    rw [wordsOf]
    exact fun _ h => by cases h
  | cons item rest ih =>
    rw [wordsOf]
    refine List.forall_mem_cons.mpr ⟨?_, ih⟩
    cases item with
    | leaf l span =>
      rw [wordOf]
      cases l with
      | atom a =>
        cases a with
        | semicolon => trivial
        | _ => exact fun h => by cases h
      | _ => trivial
    | block kind base inner span =>
      rw [wordOf]
      intro heq
      obtain ⟨chains, -, heq⟩ := map_ok_iff.mp heq
      cases heq
    | istring pieces span =>
      rw [wordOf]
      intro heq
      obtain ⟨found, -, heq⟩ := map_ok_iff.mp heq
      cases heq

/-- A word is an operator if its item is. -/
theorem head?_wordsOf {items : List Tree} {op : Op} {span : Span} :
    (wordsOf items).head? = some (.operator op span) ↔
      ∃ item ∈ items.head?, item.operator? = some op ∧ item.span = span := by
  cases items with
  | nil =>
    rw [wordsOf]
    simp
  | cons item rest =>
    rw [wordsOf]
    cases item with
    | leaf l s =>
      rw [wordOf]
      cases l with
      | operator o => simp [leafWord, Tree.operator?, Tree.span]
      | atom a => cases a <;> simp [leafWord, Tree.operator?]
      | _ => simp [leafWord, Tree.operator?]
    | block | istring =>
      rw [wordOf]
      simp [Tree.operator?]

/-- An item of a semicolon. -/
def semicolonAt (span : Span) : Tree := .leaf (.atom .semicolon) span

theorem wordsOf_semicolon (items : List Tree) (span : Span) :
    wordsOf (items ++ [semicolonAt span]) = wordsOf items ++ [.semicolon span] := by
  rw [wordsOf_append]
  rfl

theorem terminated_semicolon (words : List Word) (span : Span) :
    Terminated (words ++ [.semicolon span]) := by
  intro word hword
  rw [List.getLast?_concat] at hword
  cases hword
  exact ⟨span, rfl⟩

/-- Items that are no keywords are words that are none. -/
theorem ne_keyword_wordsOf {items : List Tree} (h : ∀ item ∈ items, item.keyword? = none) :
    ∀ word ∈ wordsOf items, ∀ k span, word ≠ .keyword k span := by
  induction items with
  | nil =>
    rw [wordsOf]
    exact fun _ h => by cases h
  | cons item rest ih =>
    obtain ⟨hitem, hrest⟩ := List.forall_mem_cons.mp h
    rw [wordsOf]
    refine List.forall_mem_cons.mpr ⟨fun k span => ?_, ih hrest⟩
    cases item with
    | leaf l s =>
      rw [wordOf]
      cases l with
      | keyword k => cases hitem
      | atom a => cases a <;> exact fun h => by cases h
      | _ => exact fun h => by cases h
    | block | istring =>
      rw [wordOf]
      exact fun h => by cases h

/-- The words before, with the semicolon and the words behind. -/
theorem wordsOf_append_semicolon (before behind : List Tree) (span : Span) :
    wordsOf (before ++ semicolonAt span :: behind) =
      (Cursor.append ⟨wordsOf before ++ [.semicolon span], .nowhere⟩ (wordsOf behind)).words := by
  rw [Cursor.append, List.append_assoc, wordsOf_append]
  rfl

section

variable {before behind : List Tree} {span : Span}
  (hbefore : ofTrees (before ++ [semicolonAt span]) = .ok front)
  (hbehind : ofTrees behind = .ok chains)

include hbefore

theorem groupsAll_of_semicolon :
    GroupsAll ⟨wordsOf before ++ [.semicolon span], .nowhere⟩ front := by
  rw [← wordsOf_semicolon]
  exact (ofWords_ok_iff _ .nowhere).mp hbefore

include hbehind

/-- Items behind a semicolon are grouped by themselves, if no chain around it goes on. -/
theorem ofTrees_append_semicolon
    (hends : (∃ chain ∈ front.getLast?, EndsWithSemicolon chain) ∨ Begins (wordsOf behind)) :
    ofTrees (before ++ semicolonAt span :: behind) = .ok (front ++ chains) := by
  have hspelled := isSpelled_wordsOf (before ++ [semicolonAt span])
  rw [wordsOf_semicolon] at hspelled
  rw [ofTrees, ofWords_ok_iff _ .nowhere, wordsOf_append_semicolon]
  exact (groupsAll_of_semicolon hbefore).append hspelled (terminated_semicolon _ _) (by simp) hends
    ((ofWords_ok_iff _ .nowhere).mp hbehind)

/-- **A semicolon ends its expression where no keyword stands before it.** -/
theorem ofTrees_append_semicolon_of_keyword? (hplain : ∀ item ∈ before, item.keyword? = none) :
    ofTrees (before ++ semicolonAt span :: behind) = .ok (front ++ chains) := by
  refine ofTrees_append_semicolon hbefore hbehind (.inl ?_)
  refine (groupsAll_of_semicolon hbefore).endsWithSemicolon (by simp) (terminated_semicolon _ _) ?_
  intro word hword
  rcases List.mem_append.mp hword with hword | hword
  · exact ne_keyword_wordsOf hplain word hword
  · obtain rfl := List.mem_singleton.mp hword
    exact fun _ _ h => by cases h

/-- **What stands behind a semicolon is grouped by itself, unless it goes on with a chain around it**:
the last chain of what stands before ends with that semicolon, or what stands behind begins with no
operator that may stand between or behind operands. -/
theorem ofTrees_append_semicolon_iff :
    ofTrees (before ++ semicolonAt span :: behind) = .ok (front ++ chains) ↔
      (∃ chain ∈ front.getLast?, EndsWithSemicolon chain) ∨
        ∀ item ∈ behind.head?, ∀ op ∈ item.operator?,
          op.isBinary = false ∧ isOnlyAfter op = false := by
  have hback : GroupsAll ⟨wordsOf behind, .nowhere⟩ chains := (ofWords_ok_iff _ .nowhere).mp hbehind
  constructor
  · intro hall
    rw [ofTrees, ofWords_ok_iff _ .nowhere, wordsOf_append_semicolon] at hall
    have hends := (groupsAll_of_semicolon hbefore).of_append (terminated_semicolon _ _) (by simp)
      hall hback
    refine hends.imp_right fun h item hitem op hop => ?_
    exact h op item.span (head?_wordsOf.mpr ⟨item, hitem, hop, rfl⟩)
  · intro hends
    refine ofTrees_append_semicolon hbefore hbehind (hends.imp_right fun h => hback.begins ?_)
    intro op span hhead
    obtain ⟨item, hitem, hop, -⟩ := head?_wordsOf.mp hhead
    exact h item hitem op hop

end

/-- A name behind a declaration: it begins an expression of its own. -/
theorem ofTrees_append_semicolon_iff_of_name :
    let before : List Tree := [.leaf (.keyword .letWord) ⟨0, 3⟩, .leaf (.atom (.identifier ['x'])) ⟨4, 5⟩]
    let behind : List Tree := [.leaf (.atom (.identifier ['y'])) ⟨7, 8⟩]
    ∃ front chains, ofTrees (before ++ [semicolonAt ⟨5, 6⟩]) = .ok front ∧
      ofTrees behind = .ok chains ∧
        ofTrees (before ++ semicolonAt ⟨5, 6⟩ :: behind) = .ok (front ++ chains) := by
  intro before behind
  obtain ⟨front, hfront⟩ := exists_ok_of_isSome
    (show (ofTrees (before ++ [semicolonAt ⟨5, 6⟩])).toOption.isSome = true by decide +kernel)
  obtain ⟨chains, hchains⟩ := exists_ok_of_isSome
    (show (ofTrees behind).toOption.isSome = true by decide +kernel)
  refine ⟨front, chains, hfront, hchains, ?_⟩
  apply (ofTrees_append_semicolon_iff hfront hchains).mpr
  right
  intro item hitem op hop
  cases hitem
  cases hop

/-- A sign behind a declaration is taken as an operator on it: `let x = 1; -y` is one chain, although
`let x = 1;` and `-y` are one chain each. -/
theorem exists_ofTrees_append_semicolon_ne : ∃ before behind span front chains,
    (∀ item ∈ before, (∀ k ∈ item.keyword?, k.isFlow = false ∧ k ≠ .elseWord) ∧
      (∀ s, item ≠ .leaf .closingElse s) ∧ ∀ s, item ≠ semicolonAt s) ∧
    ofTrees (before ++ [semicolonAt span]) = .ok front ∧ ofTrees behind = .ok chains ∧
      ofTrees (before ++ semicolonAt span :: behind) ≠ .ok (front ++ chains) := by
  let before : List Tree := [.leaf (.keyword .letWord) ⟨0, 3⟩, .leaf (.atom (.identifier ['x'])) ⟨4, 5⟩,
    .leaf (.operator (.symbol .assign)) ⟨6, 7⟩, .leaf (.atom (.integer ⟨.decimal, ['1']⟩)) ⟨8, 9⟩]
  let behind : List Tree :=
    [.leaf (.operator (.symbol .minus)) ⟨11, 12⟩, .leaf (.atom (.identifier ['y'])) ⟨12, 13⟩]
  have hfront : (ofTrees (before ++ [semicolonAt ⟨9, 10⟩])).toOption.map List.length = some 1 := by
    decide +kernel
  have hbehind : (ofTrees behind).toOption.map List.length = some 1 := by decide +kernel
  have hall : (ofTrees (before ++ semicolonAt ⟨9, 10⟩ :: behind)).toOption.map List.length =
      some 1 := by
    decide +kernel
  obtain ⟨front, hfront, hone⟩ := Option.map_eq_some_iff.mp hfront
  obtain ⟨chains, hbehind, hmore⟩ := Option.map_eq_some_iff.mp hbehind
  refine ⟨before, behind, ⟨9, 10⟩, front, chains, ?_, toOption_eq_some_iff.mp hfront,
    toOption_eq_some_iff.mp hbehind, fun heq => ?_⟩
  · simp [before, Tree.keyword?, Keyword.isFlow, semicolonAt]
  · rw [heq] at hall
    have htwo : (front ++ chains).length = 2 := by rw [List.length_append, hone, hmore]
    have hlength : (front ++ chains).length = 1 := Option.some.inj hall
    omega

end Chain

end DewyFront
