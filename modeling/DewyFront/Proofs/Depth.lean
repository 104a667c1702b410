/-
# DewyFront.Proofs.Depth — the bound that grouping is given is enough

Between two words grouping calls itself at most four times. So with four calls for each word every
derivation is found, and grouping ends in a result or in a refusal, never because its bound is used up.

* §1 derivations are found;
* §2 lists of words;
* §3 grouping ends in no fault.
-/
import DewyFront.Proofs.Derivations

namespace DewyFront

namespace Chain

variable {c c' : Cursor} {chain : Chain} {chains : List Chain}

/-! ## §1 Derivations are found -/

theorem ne_elseWord_of_isFlow {k : Keyword} (h : k.isFlow = true) : k ≠ .elseWord := by
  rintro rfl
  cases h

theorem isFlow_of_isDeclaration {k : Keyword} (h : k.isDeclaration = true) :
    k ≠ .elseWord ∧ k.isFlow = false :=
  match k, h with
  | .letWord, _ | .constWord, _ => ⟨(fun h => by cases h), rfl⟩

theorem closing_of_group {n : Nat} (hend : c.atEnd = false) (h : group n c = .ok (chain, c')) :
    closing (n + 1) c = .ok ([], some chain, c') := by
  unfold closing
  rw [if_neg (Bool.eq_false_iff.mp hend)]
  exact bind_ok_iff.mpr ⟨_, h, rfl⟩

/-- An `else` that no flow keyword follows begins the last clause. -/
theorem arms_of_closing {n : Nat} {word : Word} {rest : List Word} {arms : List Arm}
    {otherwise : Option Chain} (hwords : c.words = word :: rest) (helse : word.isElse = true)
    (hflow : ∀ elseSpan k span more,
      c.words = .keyword .elseWord elseSpan :: .keyword k span :: more → k.isFlow = false)
    (h : closing n (.behind word rest) = .ok (arms, otherwise, c')) :
    Chain.arms (n + 1) c = .ok (arms, otherwise, c') := by
  unfold Chain.arms
  split
  · next elseSpan k span more hwords' =>
    rw [if_neg (Bool.eq_false_iff.mp (hflow _ _ _ _ hwords'))]
    cases hwords.symm.trans hwords'
    exact h
  · next hwords' =>
    cases hwords.symm.trans hwords'
    exact h
  · next hwords' =>
    cases hwords.symm.trans hwords'
    exact h
  · next hkeyword hclosed =>
    -- No other word is an `else`.
    cases word with
    | keyword k span =>
      cases k <;> first | exact absurd hwords (hkeyword _ _) | cases helse
    | closingElse span => exact absurd hwords (hclosed _ _)
    | _ => cases helse

mutual
/-- **What has a derivation is found**, if the bound is four calls for each word and two for the
chain. -/
theorem Groups.found : ∀ {c : Cursor} {chain : Chain} {c' : Cursor} {n : Nat}, Groups c chain c' →
    4 * c.words.length + 2 ≤ n → group n c = .ok (chain, c')
  | _, _, _, n + 1, .alone, _ => rfl
  | c, _, _, n + 1, .chunks hlone hfirst hmore, hn => by
    -- The first chunk takes a word, which pays for the calls behind it.
    have hlt := hfirst.length_lt
    unfold group
    split
    · next op span hwords => exact absurd hwords (hlone op span)
    · exact bind_ok_iff.mpr ⟨_, hfirst.found (by omega),
        bind_ok_iff.mpr ⟨_, hmore.found (by omega), rfl⟩⟩
theorem GroupsMore.found : ∀ {c : Cursor} {chain : Chain} {c' : Cursor} {n : Nat},
    GroupsMore c chain c' → 4 * c.words.length + 1 ≤ n → chunks n c = .ok (chain, c')
  | c, _, _, n + 1, .stop hstop, _ => by
    unfold chunks
    split
    · next op span rest hwords =>
      dsimp only
      rw [if_neg (by rw [hstop op span rest hwords]; exact Bool.false_ne_true)]
    · rfl
  | c, _, _, n + 1, .more hwords hop hend hnext hmore, hn => by
    have hlt := hnext.length_lt
    rw [hwords, List.length_cons] at hn
    dsimp only at hlt
    unfold chunks
    rw [hwords]
    dsimp only
    rw [if_pos hop, if_neg (Bool.eq_false_iff.mp hend)]
    exact bind_ok_iff.mpr ⟨_, hnext.found (by dsimp only; omega),
      bind_ok_iff.mpr ⟨_, hmore.found (by omega), rfl⟩⟩
theorem GroupsChunk.found : ∀ {c : Cursor} {chain : Chain} {c' : Cursor} {n : Nat}
    {last : Option Operator}, GroupsChunk c chain c' → 4 * c.words.length + 1 ≤ n →
    chunk n last c = .ok (chain, c')
  | _, _, _, n + 1, last, @GroupsChunk.around c _ word rest _ _ hwords hoperand, hn => by
    have hbefore := length_takeOperators Op.isBefore c.stop c.words
    rw [hwords, List.length_cons] at hbefore
    have hrest : (Cursor.behind word rest).words.length = rest.length := rfl
    unfold chunk
    dsimp only
    rw [hwords]
    exact bind_ok_iff.mpr ⟨_, hoperand.found (by omega), rfl⟩
theorem GroupsOperand.found : ∀ {word : Word} {c : Cursor} {content : Operand} {span : Span}
    {c' : Cursor} {n : Nat}, GroupsOperand word c content span c' → 4 * c.words.length + 4 ≤ n →
    operand n word c = .ok (content, span, c')
  | _, _, _, _, _, n + 1, .content, _ => rfl
  | _, c, _, _, _, n + 1, .flow hk harm harms, hn => by
    have hle := harm.length_le
    unfold operand
    dsimp only
    rw [if_neg (ne_elseWord_of_isFlow hk), if_pos hk]
    exact bind_ok_iff.mpr ⟨_, harm.found (by omega),
      bind_ok_iff.mpr ⟨_, harms.found (by omega), rfl⟩⟩
  | _, c, _, _, _, n + 1, .declare hk hend htarget, hn => by
    obtain ⟨helse, hflow⟩ := isFlow_of_isDeclaration hk
    unfold operand
    dsimp only
    rw [if_neg helse, if_neg (Bool.eq_false_iff.mp hflow), if_pos hk,
      if_neg (Bool.eq_false_iff.mp hend)]
    exact bind_ok_iff.mpr ⟨_, htarget.found (by omega), rfl⟩
  | _, c, _, _, _, n + 1, .bare helse hflow hdeclaration hend, hn => by
    unfold operand
    dsimp only
    rw [if_neg helse, if_neg (Bool.eq_false_iff.mp hflow),
      if_neg (Bool.eq_false_iff.mp hdeclaration), if_pos hend]
  | _, c, _, _, _, n + 1, .keyword helse hflow hdeclaration hend htarget, hn => by
    unfold operand
    dsimp only
    rw [if_neg helse, if_neg (Bool.eq_false_iff.mp hflow),
      if_neg (Bool.eq_false_iff.mp hdeclaration), if_neg (Bool.eq_false_iff.mp hend)]
    exact bind_ok_iff.mpr ⟨_, htarget.found (by omega), rfl⟩
theorem GroupsArm.found : ∀ {k : Keyword} {span : Span} {c : Cursor} {arm : Arm} {c' : Cursor}
    {n : Nat}, GroupsArm k c arm c' → 4 * c.words.length + 3 ≤ n →
    Chain.arm n k span c = .ok (arm, c')
  | k, _, c, _, _, n + 1, .parts hend hcondition hend₁ hclause, hn => by
    -- The clause is grouped at the same depth as the condition, but has fewer words.
    have hlt := hcondition.length_lt
    unfold Chain.arm
    rw [if_neg (Bool.eq_false_iff.mp hend)]
    refine bind_ok_iff.mpr ⟨_, hcondition.found (by omega), ?_⟩
    dsimp only
    rw [if_neg (Bool.eq_false_iff.mp hend₁)]
    exact bind_ok_iff.mpr ⟨_, hclause.found (by omega), rfl⟩
theorem GroupsArms.found : ∀ {c : Cursor} {arms : List Arm} {otherwise : Option Chain}
    {c' : Cursor} {n : Nat}, GroupsArms c arms otherwise c' → 4 * c.words.length + 1 ≤ n →
    Chain.arms n c = .ok (arms, otherwise, c')
  | c, _, _, _, n + 1, .stop hstop, _ => by
    unfold Chain.arms
    split
    · next hwords => cases hstop _ _ hwords
    · next hwords => cases hstop _ _ hwords
    · next hwords => cases hstop _ _ hwords
    · rfl
  | c, _, _, _, n + 1, .arm hwords hk harm harms, hn => by
    have hle := harm.length_le
    rw [hwords, List.length_cons, List.length_cons] at hn
    dsimp only at hle
    unfold Chain.arms
    rw [hwords]
    dsimp only
    rw [if_pos hk]
    exact bind_ok_iff.mpr ⟨_, harm.found (by dsimp only; omega),
      bind_ok_iff.mpr ⟨_, harms.found (by omega), rfl⟩⟩
  | _, _, _, _, n + 1, @GroupsArms.otherwise c c' word rest chain hwords helse hflow hend hchain,
      hn => by
    rw [hwords, List.length_cons] at hn
    obtain ⟨m, rfl⟩ : ∃ m, n = m + 1 := ⟨n - 1, by omega⟩
    have hrest : (Cursor.behind word rest).words.length = rest.length := rfl
    exact arms_of_closing hwords helse hflow (closing_of_group hend (hchain.found (by omega)))
end

/-! ## §2 Lists of words -/

theorem GroupsAll.found {depth n : Nat} (h : GroupsAll c chains) (hn : c.words.length ≤ n)
    (hdepth : 4 * c.words.length + 2 ≤ depth) : groupFrom depth n c = .ok chains := by
  induction h generalizing n with
  | nil hnil => cases n <;> simp [groupFrom, hnil]
  | @cons c c₁ chain chains hchain hrest ih =>
    have hlt := hchain.length_lt
    obtain ⟨n, rfl⟩ : ∃ m, n = m + 1 := ⟨n - 1, by omega⟩
    have hne : c.words.isEmpty = false := by
      rw [List.isEmpty_eq_false_iff, ← List.length_pos_iff]
      omega
    unfold groupFrom
    rw [hne, if_neg Bool.false_ne_true]
    exact bind_ok_iff.mpr ⟨_, hchain.found hdepth,
      bind_ok_iff.mpr ⟨_, ih (by omega) (by omega), rfl⟩⟩

/-- **Words are grouped as the derivations say**, whatever stands in front of them. -/
theorem ofWords_ok_iff (words : List Word) (stop : Span) :
    ofWords words = .ok chains ↔ GroupsAll ⟨words, stop⟩ chains := by
  constructor
  · exact groupsAll_of_ofWords stop
  · intro h
    exact GroupsAll.found (c := ⟨words, _⟩) (h.restart rfl) (Nat.le_refl _) (by dsimp only; omega)

/-! ## §3 Faults -/

/-- **`Word.IsHandled`** — grouping has a word for it, and what is inside of it ends in no fault. -/
def Word.IsHandled : Word → Prop
  | operand content _ => Faultless content
  | unsettled _ => False
  | _ => True

/-- Every word that is left is handled. -/
def Cursor.IsHandled (c : Cursor) : Prop := ∀ word ∈ c.words, word.IsHandled

theorem Cursor.IsHandled.of_spends {written : (Op → List Sign) → List Sign} (hc : c.IsHandled)
    (h : Spends c.words c'.words written) : c'.IsHandled :=
  fun word hword => hc word (h.mem hword)

theorem Cursor.IsHandled.of_cons {word : Word} {words : List Word} (hc : c.IsHandled)
    (hwords : c.words = word :: words) (stop : Span) :
    word.IsHandled ∧ (Cursor.mk words stop).IsHandled := by
  have hall := hc
  unfold Cursor.IsHandled at hall
  rw [hwords] at hall
  exact List.forall_mem_cons.mp hall

/-- **`EndsWell`** — with `n` for the depth of calls, grouping ends in no fault where that is enough for
the words that are left. -/
structure EndsWell (n : Nat) : Prop where
  group : ∀ {c}, c.IsHandled → 4 * c.words.length + 2 ≤ n → Faultless (group n c)
  chunks : ∀ {c}, c.IsHandled → 4 * c.words.length + 1 ≤ n → Faultless (chunks n c)
  chunk : ∀ {last c}, c.IsHandled → 4 * c.words.length + 1 ≤ n → Faultless (chunk n last c)
  operand : ∀ {word c}, word.IsHandled → c.IsHandled → 4 * c.words.length + 4 ≤ n →
    Faultless (operand n word c)
  arm : ∀ {k span c}, c.IsHandled → 4 * c.words.length + 3 ≤ n → Faultless (arm n k span c)
  arms : ∀ {c}, c.IsHandled → 4 * c.words.length + 1 ≤ n → Faultless (arms n c)
  closing : ∀ {c}, c.IsHandled → 4 * c.words.length + 3 ≤ n → Faultless (closing n c)

namespace EndsWell

variable {n : Nat}

theorem group_succ (ih : EndsWell n) (hc : c.IsHandled) (hn : 4 * c.words.length + 2 ≤ n + 1) :
    Faultless (Chain.group (n + 1) c) := by
  unfold Chain.group
  split
  · exact .ok _
  · refine .bind (ih.chunk hc (by omega)) ?_
    rintro ⟨first, c₁⟩ hfirst
    have hfirst := (derives n).chunk hfirst
    have hlt := hfirst.length_lt
    exact .bind (ih.chunks (hc.of_spends hfirst.spends) (by omega)) fun _ _ => .ok _

theorem chunks_succ (ih : EndsWell n) (hc : c.IsHandled) (hn : 4 * c.words.length + 1 ≤ n + 1) :
    Faultless (Chain.chunks (n + 1) c) := by
  unfold Chain.chunks
  split
  · next op span rest hwords =>
    dsimp only
    split
    · split
      · exact .refuse _
      · have hrest : (Cursor.mk rest span.endPoint).IsHandled := (hc.of_cons hwords _).2
        rw [hwords, List.length_cons] at hn
        refine .bind (ih.chunk hrest (by dsimp only; omega)) ?_
        rintro ⟨next, c₁⟩ hnext
        have hnext := (derives n).chunk hnext
        have hlt : c₁.words.length < rest.length := hnext.length_lt
        exact .bind (ih.chunks (hrest.of_spends hnext.spends) (by dsimp only; omega))
          fun _ _ => .ok _
    · exact .ok _
  · exact .ok _

theorem chunk_succ (ih : EndsWell n) {last : Option Operator} (hc : c.IsHandled)
    (hn : 4 * c.words.length + 1 ≤ n + 1) : Faultless (Chain.chunk (n + 1) last c) := by
  have hbefore := Spends.operators Op.isBefore c.stop c.words
  have hle := hbefore.length_le
  have hleft := hc.of_spends hbefore
  unfold Chain.chunk
  dsimp only
  split
  · exact .refuse _
  · next word rest hwords =>
    obtain ⟨hword, hrest⟩ := hleft.of_cons hwords word.span.endPoint
    rw [hwords, List.length_cons] at hle
    have hlength : (Cursor.behind word rest).words.length = rest.length := rfl
    exact .bind (ih.operand hword hrest (by omega)) fun _ _ => .ok _

theorem arm_succ (ih : EndsWell n) {k : Keyword} {span : Span} (hc : c.IsHandled)
    (hn : 4 * c.words.length + 3 ≤ n + 1) : Faultless (Chain.arm (n + 1) k span c) := by
  unfold Chain.arm
  split
  · exact .refuse _
  · refine .bind (ih.group hc (by omega)) ?_
    rintro ⟨condition, c₁⟩ hcondition
    have hcondition := (derives n).group hcondition
    have hlt := hcondition.length_lt
    dsimp only
    split
    · exact .refuse _
    · exact .bind (ih.group (hc.of_spends hcondition.spends) (by omega)) fun _ _ => .ok _

theorem closing_succ (ih : EndsWell n) (hc : c.IsHandled) (hn : 4 * c.words.length + 3 ≤ n + 1) :
    Faultless (Chain.closing (n + 1) c) := by
  unfold Chain.closing
  split
  · exact .refuse _
  · exact .bind (ih.group hc (by omega)) fun _ _ => .ok _

theorem arms_succ (ih : EndsWell n) (hc : c.IsHandled) (hn : 4 * c.words.length + 1 ≤ n + 1) :
    Faultless (Chain.arms (n + 1) c) := by
  unfold Chain.arms
  split
  · next elseSpan k span rest hwords =>
    have hrest := (hc.of_cons hwords elseSpan.endPoint).2
    rw [hwords, List.length_cons] at hn
    split
    · have hmore := (hrest.of_cons rfl span.endPoint).2
      rw [List.length_cons] at hn
      refine .bind (ih.arm hmore (by dsimp only; omega)) ?_
      rintro ⟨arm, c₁⟩ harm
      have harm := (derives n).arm harm
      have hle : c₁.words.length ≤ rest.length := harm.length_le
      obtain ⟨condition, clause, -, hparts⟩ := harm.spends
      exact .bind (ih.arms (hmore.of_spends hparts) (by omega)) fun _ _ => .ok _
    · exact ih.closing hrest (by dsimp only; omega)
  · next span rest _ hwords =>
    rw [hwords, List.length_cons] at hn
    exact ih.closing (hc.of_cons hwords _).2 (by dsimp only; omega)
  · next span rest hwords =>
    rw [hwords, List.length_cons] at hn
    exact ih.closing (hc.of_cons hwords _).2 (by dsimp only; omega)
  · exact .ok _

theorem operand_succ (ih : EndsWell n) {word : Word} (hword : word.IsHandled) (hc : c.IsHandled)
    (hn : 4 * c.words.length + 4 ≤ n + 1) : Faultless (Chain.operand (n + 1) word c) := by
  unfold Chain.operand
  split
  · exact .bind hword fun _ _ => .ok _
  · exact .refuse _
  · exact .refuse _
  · exact .refuse _
  · exact hword.elim
  · split
    · exact .refuse _
    · split
      · refine .bind (ih.arm hc (by omega)) ?_
        rintro ⟨arm, c₁⟩ harm
        have harm := (derives n).arm harm
        have hle := harm.length_le
        obtain ⟨condition, clause, -, hparts⟩ := harm.spends
        exact .bind (ih.arms (hc.of_spends hparts) (by omega)) fun _ _ => .ok _
      · split
        · split
          · exact .refuse _
          · exact .bind (ih.group hc (by omega)) fun _ _ => .ok _
        · split
          · exact .ok _
          · exact .bind (ih.group hc (by omega)) fun _ _ => .ok _

end EndsWell

/-- **Grouping ends in no fault** where its bound is enough. -/
theorem endsWell : ∀ n, EndsWell n
  | 0 => by constructor <;> intros <;> omega
  | n + 1 =>
    have ih := endsWell n
    ⟨ih.group_succ, ih.chunks_succ, ih.chunk_succ, ih.operand_succ, ih.arm_succ, ih.arms_succ,
      ih.closing_succ⟩

theorem groupFrom_faultless {depth n : Nat} (hc : c.IsHandled) (hn : c.words.length ≤ n)
    (hdepth : 4 * c.words.length + 2 ≤ depth) : Faultless (groupFrom depth n c) := by
  induction n generalizing c with
  | zero =>
    unfold groupFrom
    rw [if_pos (List.isEmpty_iff.mpr (List.length_eq_zero_iff.mp (Nat.le_zero.mp hn)))]
    exact .ok _
  | succ n ih =>
    unfold groupFrom
    split
    · exact .ok _
    · refine .bind ((endsWell depth).group hc hdepth) ?_
      rintro ⟨chain, c₁⟩ hchain
      have hchain := (derives depth).group hchain
      have hlt := hchain.length_lt
      exact .bind (ih (hc.of_spends hchain.spends) (by omega) (by omega)) fun _ _ => .ok _

/-- **Words are grouped or refused**: the bound that grouping is given never stops it. -/
theorem ofWords_faultless {words : List Word} (h : ∀ word ∈ words, word.IsHandled) :
    Faultless (ofWords words) :=
  groupFrom_faultless h (Nat.le_refl _) (by dsimp only; omega)

end Chain

end DewyFront
