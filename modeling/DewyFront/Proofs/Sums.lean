/-
# DewyFront.Proofs.Sums — what stands for a sum of two chains

Operators in the rows above those of the plus sign bind harder than it on either side. So a tree reads
the same slots whether or not they are an operand of a sum, and a sum of two chains stands for the
sums of what the chains stand for. Where candidates are held is another matter: an ambiguity of one
summand may become one of the whole sum.

* §1 operators above a row;
* §2 trees beside a plus sign;
* §3 settled chains;
* §4 sums.
-/
import DewyFront.Proofs.Nesting

namespace DewyFront

/-! ## §1 Rows -/

namespace Level

/-- A level that binds to its left binds with a power of its row. -/
theorem lt_powers_fst {l : Level} (h : 0 < l.powers.1) : 2 * l.row < l.powers.1 := by
  obtain ⟨row, assoc⟩ := l
  cases assoc with
  | before => exact absurd h (Nat.lt_irrefl 0)
  | left | right | after | flat | alone =>
    simp only [powers]
    omega

/-- A level that binds to its right binds with a power of its row. -/
theorem lt_powers_snd {l : Level} (h : 0 < l.powers.2) : 2 * l.row < l.powers.2 := by
  obtain ⟨row, assoc⟩ := l
  cases assoc with
  | after => exact absurd h (Nat.lt_irrefl 0)
  | left | right | before | flat | alone =>
    simp only [powers]
    omega

end Level

namespace Op

/-- All rows of an operator are above a row. -/
def IsAbove (row : Nat) (op : Op) : Prop := ∀ level ∈ op.levels, row < level.row

instance (row : Nat) (op : Op) : Decidable (op.IsAbove row) :=
  inferInstanceAs (Decidable (∀ level ∈ op.levels, row < level.row))

variable {op p : Op} {row : Nat}

/-- **An operator binds its left operand with a power of its rows.** -/
theorem lt_leftPower_of_isAbove (hop : op.holdsContested = false) (h : op.IsAbove row)
    (hne : op.leftPower ≠ .none) : 2 * row + 2 < op.leftPower.low := by
  rcases leftPower_eq hop with hnone | ⟨l, hl, heq⟩
  · exact absurd hnone hne
  · have hrow := h l hl
    have hpos : 0 < l.powers.1 := by
      refine Nat.pos_of_ne_zero fun hz => ?_
      rw [heq, hz] at hne
      exact hne rfl
    have hlt := Level.lt_powers_fst hpos
    rw [heq]
    show 2 * row + 2 < l.powers.1
    omega

/-- **An operator binds its right operand with a power of its rows.** -/
theorem lt_rightPower_of_isAbove (hop : op.holdsContested = false) (h : op.IsAbove row)
    (hne : op.rightPower ≠ .none) : 2 * row + 2 < op.rightPower.low := by
  have hpos : 0 < op.rightPower.low := by
    refine Nat.pos_of_ne_zero fun hz => hne ?_
    exact rightPower_eq_none hop hz
  obtain ⟨l, hl, heq⟩ := exists_level_of_rightPower hop (Nat.le_refl _) (rightPower_low_le op) hpos
  have hrow := h l hl
  have hlt := Level.lt_powers_snd (heq ▸ hpos)
  omega

/-- Settling leaves an operator above a row. -/
theorem IsAbove.narrowings (h : op.IsAbove row) (hp : p ∈ op.narrowings) : p.IsAbove row := by
  intro level hlevel
  cases hc : op.isContested with
  | false =>
    rw [narrowings_of_isContested_eq_false hc, List.mem_singleton] at hp
    exact h level (hp ▸ hlevel)
  | true =>
    obtain ⟨l, hl, hls, -⟩ := levels_of_mem_narrowings hp hc
    rw [hls, List.mem_singleton] at hlevel
    exact hlevel ▸ h l hl

end Op

namespace Climbing

open Reduction

/-! ## §2 Trees beside a plus sign -/

/-- Every operator of a list is in rows above those of the plus sign. -/
def AboveSum (slots : List Slot) : Prop :=
  ∀ o, .operator o ∈ slots → o.op.IsAbove 20 ∧ o.op.holdsContested = false

/-- **`Beside`** — a neighbour, or a plus sign in its place. -/
def Beside (neighbour neighbour' : Option Op) : Prop :=
  neighbour' = neighbour ∨ neighbour' = some (.symbol .plus)

variable {left left' right right' : Option Op} {o : Operator}

/-- What binds an operand harder than its left neighbour binds it harder than a plus sign. -/
theorem Beside.powerFrom_lt (h : Beside left left') (ho : o.op.IsAbove 20)
    (hop : o.op.holdsContested = false) (hlt : (powerFrom left).high < o.op.leftPower.low) :
    (powerFrom left').high < o.op.leftPower.low := by
  rcases h with rfl | rfl
  · exact hlt
  · have hne : o.op.leftPower ≠ .none := by
      intro hnone
      rw [hnone] at hlt
      exact absurd hlt (Nat.not_lt_zero _)
    have hlow := Op.lt_leftPower_of_isAbove hop ho hne
    have hplus : (powerFrom (some (.symbol .plus))).high = 41 := rfl
    omega

/-- What binds an operand harder than its right neighbour binds it harder than a plus sign. -/
theorem Beside.powerTo_lt (h : Beside right right') (ho : o.op.IsAbove 20)
    (hop : o.op.holdsContested = false) (hlt : (powerTo right).high < o.op.rightPower.low) :
    (powerTo right').high < o.op.rightPower.low := by
  rcases h with rfl | rfl
  · exact hlt
  · have hne : o.op.rightPower ≠ .none := by
      intro hnone
      rw [hnone] at hlt
      exact absurd hlt (Nat.not_lt_zero _)
    have hlow := Op.lt_rightPower_of_isAbove hop ho hne
    have hplus : (powerTo (some (.symbol .plus))).high = 39 := rfl
    omega

/-- No operator in a row above that of the comma begins a flat run. -/
theorem not_isFlat_of_isAbove {op : Op} (h : op.IsAbove 20) : op.isFlat = false := by
  refine Bool.eq_false_iff.mpr fun hflat => ?_
  obtain ⟨level, hl, hassoc⟩ := Op.isFlat_iff.mp hflat
  obtain ⟨htabled, hle⟩ := Op.isTabled_of_mem_levels hl
  have hrow := h level hl
  -- the flat rows of the table are 16 and 17
  rw [hassoc] at htabled
  unfold Precedence.assocOf at htabled
  split at htabled <;> first | (exfalso; omega) | cases htabled

/-- **A tree reads the same slots beside a plus sign.** -/
theorem Reads.beside : ∀ {left right : Option Op} {s : List Slot} {e : Expr}, Reads left s e right →
    AboveSum s → ∀ {left' right' : Option Op}, Beside left left' → Beside right right' →
      Reads left' s e right'
  | _, _, _, _, .operand e, _, _, _, _, _ => .operand e
  | _, _, _, _, @Reads.binary _ _ s t l r o hbinary hflat hl hr hleft hright, hs, _, _, hl', hr' => by
    obtain ⟨ho, hop⟩ := hs o (by simp)
    have hfront : AboveSum s := fun p hp => hs p (by simp [hp])
    have hback : AboveSum t := fun p hp => hs p (by simp [hp])
    exact .binary hbinary hflat (hl.beside hfront hl' (.inl rfl)) (hr.beside hback (.inl rfl) hr')
      (hl'.powerFrom_lt ho hop hleft) (hr'.powerTo_lt ho hop hright)
  | _, _, _, _, @Reads.before _ _ s e o hbefore h hright, hs, _, _, _, hr' => by
    obtain ⟨ho, hop⟩ := hs o (by simp)
    have hback : AboveSum s := fun p hp => hs p (by simp [hp])
    exact .before hbefore (h.beside hback (.inl rfl) hr') (hr'.powerTo_lt ho hop hright)
  | _, _, _, _, @Reads.after _ _ s e o hafter h hleft, hs, _, _, hl', _ => by
    obtain ⟨ho, hop⟩ := hs o (by simp)
    have hfront : AboveSum s := fun p hp => hs p (by simp [hp])
    exact .after hafter (h.beside hfront hl' (.inl rfl)) (hl'.powerFrom_lt ho hop hleft)
  | _, _, _, _, @Reads.flat _ _ s t e es o last hflat _ _ _ _, hs, _, _, _, _ => by
    obtain ⟨ho, -⟩ := hs o (by simp)
    rw [not_isFlat_of_isAbove ho] at hflat
    cases hflat

/-- **A sum is read as the sum of what its summands are read as.** -/
theorem reads_sum {s₁ s₂ : List Slot} {v₁ v₂ : Expr} (span : Span) (h₁ : Reads none s₁ v₁ none)
    (h₂ : Reads none s₂ v₂ none) (ha₁ : AboveSum s₁) (ha₂ : AboveSum s₂) :
    Reads none (s₁ ++ .operator ⟨.symbol .plus, span⟩ :: s₂)
      (binaryNode ⟨.symbol .plus, span⟩ v₁ v₂) none := by
  have hl : Reads none s₁ v₁ (some (.symbol .plus)) := h₁.beside ha₁ (.inl rfl) (.inr rfl)
  have hr : Reads (some (.symbol .plus)) s₂ v₂ none := h₂.beside ha₂ (.inr rfl) (.inl rfl)
  exact .binary (o := ⟨.symbol .plus, span⟩) rfl rfl hl hr
    (by show 0 < 39; omega) (by show 0 < 40; omega)

end Climbing

/-! ## §3 Sums of settled chains -/

namespace Chain

/-- **`plus`** — two chains with a plus sign between them. -/
def plus (span : Span) (c₁ c₂ : Chain) : Chain := c₁ ++ .operator ⟨.symbol .plus, span⟩ :: c₂

/-- All rows of the operators of a chain are above a row. -/
def IsAbove (row : Nat) (chain : Chain) : Prop := ∀ o ∈ chain.operators, o.op.IsAbove row

instance (row : Nat) (chain : Chain) : Decidable (chain.IsAbove row) :=
  inferInstanceAs (Decidable (∀ o ∈ chain.operators, o.op.IsAbove row))

variable {chain narrowed c₁ c₂ : Chain} {span : Span} {row : Nat}

theorem operators_plus :
    (plus span c₁ c₂).operators = c₁.operators ++ ⟨.symbol .plus, span⟩ :: c₂.operators := by
  rw [plus, operators_append, operators]

/-- Above the lowest row there is no semicolon. -/
theorem notMem_semicolon (hclosed : chain.IsClosed) (habove : chain.IsAbove row) (s : Span) :
    .operand (.atom .semicolon) s ∉ chain := by
  intro hmem
  obtain ⟨front, back, heq⟩ := List.append_of_mem hmem
  obtain ⟨-, inner, place, hfront⟩ := hclosed front s back heq
  have hbond : ⟨.bond .semicolon, place⟩ ∈ chain.operators := by
    rw [mem_operators, heq, hfront]
    simp
  have hrow := habove _ hbond ⟨0, .left⟩ (List.mem_singleton_self _)
  exact absurd hrow (Nat.not_lt_zero row)

theorem notMem_semicolon_plus (h₁ : ∀ s, .operand (.atom .semicolon) s ∉ c₁)
    (h₂ : ∀ s, .operand (.atom .semicolon) s ∉ c₂) (s : Span) :
    .operand (.atom .semicolon) s ∉ plus span c₁ c₂ := by
  intro hs
  rcases List.mem_append.mp hs with hs | hs
  · exact h₁ s hs
  · exact h₂ s (by simpa using hs)

/-- **Settled chains of a sum are sums of settled chains.** -/
theorem mem_narrowings_plus : narrowed ∈ (plus span c₁ c₂).narrowings ↔
    ∃ n₁ ∈ c₁.narrowings, ∃ n₂ ∈ c₂.narrowings, narrowed = plus span n₁ n₂ := by
  constructor
  · intro h
    obtain ⟨n₁, rest, rfl, h₁, hrest⟩ := exists_append_of_forall₂ (mem_narrowings.mp h)
    cases hrest with
    | cons hplus h₂ =>
      cases hplus with
      | operator hp =>
        obtain rfl := List.mem_singleton.mp hp
        exact ⟨n₁, mem_narrowings.mpr h₁, _, mem_narrowings.mpr h₂, rfl⟩
  · rintro ⟨n₁, h₁, n₂, h₂, rfl⟩
    apply mem_narrowings.mpr
    have hplus : Link.Narrows (.operator ⟨.symbol .plus, span⟩) (.operator ⟨.symbol .plus, span⟩) :=
      .operator (o := ⟨.symbol .plus, span⟩) (List.mem_singleton_self _)
    exact List.rel_append (mem_narrowings.mp h₁) (.cons hplus (mem_narrowings.mp h₂))

/-- What a chain is settled to has its semicolons, and its operators in the rows of the chain. -/
theorem settled_of_mem_narrowings (hbare : chain.IsBare) (habove : chain.IsAbove row)
    (h : narrowed ∈ chain.narrowings) :
    (∀ o, .operator o ∈ narrowed → o.op.IsAbove row ∧ o.op.holdsContested = false) ∧
      ∀ s, .operand (.atom .semicolon) s ∈ narrowed → .operand (.atom .semicolon) s ∈ chain := by
  have hnarrows := mem_narrowings.mp h
  constructor
  · intro o ho
    obtain ⟨link, hlink, hnarrow⟩ := Reading.exists_of_mem_right hnarrows ho
    cases hnarrow with
    | operator hp =>
      exact ⟨(habove _ (mem_operators.mpr hlink)).narrowings hp,
        Op.not_holdsContested_of_mem_narrowings (hbare _ hlink) hp⟩
  · intro s hs
    obtain ⟨link, hlink, hnarrow⟩ := Reading.exists_of_mem_right hnarrows hs
    cases hnarrow with
    | operand => exact hlink

end Chain

namespace Expr

open Reduction Reading Climbing

variable {config : ParseConfig} {chain c₁ c₂ : Chain} {span : Span} {t t₁ t₂ v v₁ v₂ : Expr}
  {limit : Nat}

/-- The slots of a sum are those of its summands. -/
theorem slotsOf_plus {s₁ s₂ : List Slot} (h₁ : slotsOf limit c₁ = .ok s₁)
    (h₂ : slotsOf limit c₂ = .ok s₂) : slotsOf limit (Chain.plus span c₁ c₂) =
      .ok (s₁ ++ .operator ⟨.symbol .plus, span⟩ :: s₂) := by
  apply slotsOf_of_lowersTo
  exact List.rel_append (slotsOf_ok h₁) (.cons (.operator _) (slotsOf_ok h₂))

/-- The expression of a chain that nothing contests reads its slots. -/
theorem reads_of_ofChain (hsemi : ∀ s, .operand (.atom .semicolon) s ∉ chain)
    (hu : ∀ o, .operator o ∈ chain → o.op.holdsContested = false)
    (h : ofChain config chain = .ok v) :
    ∃ slots, slotsOf config.maxReadings chain = .ok slots ∧ Reads none slots v none := by
  obtain ⟨place, slots, hshape, hslots, hreduce⟩ := assemble_ok h
  have hs : Shaped slots := shaped_of_checkShape hslots hshape (Chain.isClosed_of_notMem hsemi)
  have hu : Uncontested slots := fun o ho => hu o (mem_of_operator_slot (slotsOf_ok hslots) ho)
  exact ⟨slots, hslots, reads_of_joined hs hu (joined_of_runs ((reduce_iff_runs hu).mp hreduce))⟩

/-- **The sum of two chains that nothing contests has the sum of their expressions.** -/
theorem eq_binaryNode_of_plus (hsemi₁ : ∀ s, .operand (.atom .semicolon) s ∉ c₁)
    (hsemi₂ : ∀ s, .operand (.atom .semicolon) s ∉ c₂)
    (hops₁ : ∀ o, .operator o ∈ c₁ → o.op.IsAbove 20 ∧ o.op.holdsContested = false)
    (hops₂ : ∀ o, .operator o ∈ c₂ → o.op.IsAbove 20 ∧ o.op.holdsContested = false)
    (h₁ : ofChain config c₁ = .ok v₁) (h₂ : ofChain config c₂ = .ok v₂)
    (h : ofChain config (Chain.plus span c₁ c₂) = .ok v) :
    v = binaryNode ⟨.symbol .plus, span⟩ v₁ v₂ := by
  obtain ⟨s₁, hs₁, hreads₁⟩ := reads_of_ofChain hsemi₁ (fun o ho => (hops₁ o ho).2) h₁
  obtain ⟨s₂, hs₂, hreads₂⟩ := reads_of_ofChain hsemi₂ (fun o ho => (hops₂ o ho).2) h₂
  have habove₁ : AboveSum s₁ := fun o ho => hops₁ o (mem_of_operator_slot (slotsOf_ok hs₁) ho)
  have habove₂ : AboveSum s₂ := fun o ho => hops₂ o (mem_of_operator_slot (slotsOf_ok hs₂) ho)
  have hsemi : ∀ s, .operand (.atom .semicolon) s ∉ Chain.plus span c₁ c₂ :=
    Chain.notMem_semicolon_plus hsemi₁ hsemi₂
  have hu : ∀ o, .operator o ∈ Chain.plus span c₁ c₂ → o.op.holdsContested = false := by
    intro o ho
    rcases List.mem_append.mp ho with ho | ho
    · exact (hops₁ o ho).2
    · rcases List.mem_cons.mp ho with heq | ho
      · cases heq
        rfl
      · exact (hops₂ o ho).2
  obtain ⟨slots, hslots, hreads⟩ := reads_of_ofChain hsemi hu h
  rw [slotsOf_plus hs₁ hs₂] at hslots
  cases hslots
  have hsum := parse_of_reads (reads_sum span hreads₁ hreads₂ habove₁ habove₂)
  rw [parse_of_reads hreads] at hsum
  exact Option.some.inj hsum

end Expr

/-! ## §4 Sums -/

namespace Chain

variable {c₁ c₂ : Chain} {span : Span}

theorem isGrouped_plus (hg₁ : c₁.IsGrouped) (hg₂ : c₂.IsGrouped)
    (hsemi₁ : ∀ s, .operand (.atom .semicolon) s ∉ c₁)
    (hsemi₂ : ∀ s, .operand (.atom .semicolon) s ∉ c₂) : (plus span c₁ c₂).IsGrouped where
  closed := isClosed_of_notMem (notMem_semicolon_plus hsemi₁ hsemi₂)
  tight := isTight_append hg₁.tight (isTight_operator hg₂.tight fun hc => by cases hc)
  bare := by
    intro o ho
    rcases List.mem_append.mp ho with ho | ho
    · exact hg₁.bare o ho
    · rcases List.mem_cons.mp ho with heq | ho
      · cases heq
        exact Op.isBare_of_holdsContested_eq_false rfl
      · exact hg₂.bare o ho

theorem isSpaced_plus (hs₁ : c₁.IsSpaced) (hs₂ : c₂.IsSpaced) : (plus span c₁ c₂).IsSpaced := by
  intro front o content place p back heq ho
  have hplus : (Op.symbol .plus).isContested = false := rfl
  rcases List.append_eq_append_iff.mp heq with ⟨inner, rfl, hinner⟩ | ⟨inner, rfl, hinner⟩
  · -- the operand is behind the first summand
    cases inner with
    | nil =>
      cases hinner
      rw [hplus] at ho
      cases ho
    | cons link inner =>
      obtain ⟨rfl, hrest⟩ := List.cons.inj hinner
      exact hs₂ inner o content place p back hrest ho
  · match inner, hinner with
    | [], hinner =>
      cases hinner
      rw [hplus] at ho
      cases ho
    | [_], hinner => cases hinner
    | [_, _], hinner =>
      cases hinner
      exact hplus
    | _ :: _ :: _ :: inner, hinner =>
      cases hinner
      exact hs₁ front o content place p inner rfl ho

theorem noneAlone_plus (hn₁ : c₁.NoneAlone) (hn₂ : c₂.NoneAlone) :
    (plus span c₁ c₂).NoneAlone := by
  intro o ho
  rw [operators_plus] at ho
  rcases List.mem_append.mp ho with ho | ho
  · exact hn₁ o ho
  · rcases List.mem_cons.mp ho with rfl | ho
    · show ∀ level ∈ (Op.symbol .plus).levels, level.assoc ≠ .alone
      decide
    · exact hn₂ o ho

end Chain

namespace Expr

open Reduction

variable {config : ParseConfig} {c₁ c₂ : Chain} {span : Span} {t t₁ t₂ : Expr}

/-- Where nothing is contested, the tree of a sum is the sum of the trees. -/
theorem eq_binaryNode_of_not_isContested (hg₁ : c₁.IsGrouped) (hg₂ : c₂.IsGrouped)
    (ha₁ : c₁.IsAbove 20) (ha₂ : c₂.IsAbove 20) (h₁ : ofChain config c₁ = .ok t₁)
    (h₂ : ofChain config c₂ = .ok t₂) (h : ofChain config (Chain.plus span c₁ c₂) = .ok t)
    (hu : ∀ o ∈ (Chain.plus span c₁ c₂).operators, o.op.isContested = false) :
    t = binaryNode ⟨.symbol .plus, span⟩ t₁ t₂ := by
  rw [Chain.operators_plus] at hu
  have hops : ∀ {c : Chain}, c.IsBare → c.IsAbove 20 →
      (∀ o ∈ c.operators, o.op.isContested = false) →
      ∀ o, .operator o ∈ c → o.op.IsAbove 20 ∧ o.op.holdsContested = false := by
    intro c hbare habove hnot o ho
    have hop := Chain.mem_operators.mpr ho
    refine ⟨habove o hop, Bool.eq_false_iff.mpr fun hholds => ?_⟩
    have hcontested := hbare o ho hholds
    rw [hnot o hop] at hcontested
    cases hcontested
  have hops₁ := hops hg₁.bare ha₁ fun o ho => hu o (List.mem_append_left _ ho)
  have hops₂ := hops hg₂.bare ha₂ fun o ho =>
    hu o (List.mem_append_right _ (List.mem_cons_of_mem _ ho))
  exact eq_binaryNode_of_plus (Chain.notMem_semicolon hg₁.closed ha₁)
    (Chain.notMem_semicolon hg₂.closed ha₂) hops₁ hops₂ h₁ h₂ h

/-- **A sum of two chains stands for the sums of what the chains stand for**: the ambiguities of a
summand change nothing above it, although the tree may hold them at the sum. Where nothing is
contested, the tree is the sum of the trees. -/
theorem mem_variants_plus_iff (hg₁ : c₁.IsGrouped) (hg₂ : c₂.IsGrouped) (ha₁ : c₁.IsAbove 20)
    (ha₂ : c₂.IsAbove 20) (hs₁ : c₁.IsSpaced) (hs₂ : c₂.IsSpaced) (hn₁ : c₁.NoneAlone)
    (hn₂ : c₂.NoneAlone) (h₁ : ofChain config c₁ = .ok t₁) (h₂ : ofChain config c₂ = .ok t₂)
    (h : ofChain config (Chain.plus span c₁ c₂) = .ok t) :
    (∀ v, v ∈ t.variants Op.narrowings ↔ ∃ v₁ ∈ t₁.variants Op.narrowings,
      ∃ v₂ ∈ t₂.variants Op.narrowings, v = binaryNode ⟨.symbol .plus, span⟩ v₁ v₂) ∧
    ((∀ o ∈ (Chain.plus span c₁ c₂).operators, o.op.isContested = false) →
      t = binaryNode ⟨.symbol .plus, span⟩ t₁ t₂) := by
  refine ⟨?_, eq_binaryNode_of_not_isContested hg₁ hg₂ ha₁ ha₂ h₁ h₂ h⟩
  obtain ⟨hall₁, hiff₁⟩ := mem_variants_iff_of_isGrouped hg₁ hs₁ hn₁ h₁
  obtain ⟨hall₂, hiff₂⟩ := mem_variants_iff_of_isGrouped hg₂ hs₂ hn₂ h₂
  have hsemi₁ := Chain.notMem_semicolon hg₁.closed ha₁
  have hsemi₂ := Chain.notMem_semicolon hg₂.closed ha₂
  obtain ⟨hall, hiff⟩ := mem_variants_iff_of_isGrouped
    (Chain.isGrouped_plus hg₁ hg₂ hsemi₁ hsemi₂) (Chain.isSpaced_plus hs₁ hs₂)
    (Chain.noneAlone_plus hn₁ hn₂) h
  -- a settled sum has the sum of what its settled summands have
  have hsum : ∀ {n₁ n₂ : Chain} {v v₁ v₂ : Expr}, n₁ ∈ c₁.narrowings → n₂ ∈ c₂.narrowings →
      ofChain config n₁ = .ok v₁ → ofChain config n₂ = .ok v₂ →
      ofChain config (Chain.plus span n₁ n₂) = .ok v →
      v = binaryNode ⟨.symbol .plus, span⟩ v₁ v₂ := by
    intro n₁ n₂ v v₁ v₂ hmem₁ hmem₂ hv₁ hv₂ hv
    obtain ⟨hops₁, hkeeps₁⟩ := Chain.settled_of_mem_narrowings hg₁.bare ha₁ hmem₁
    obtain ⟨hops₂, hkeeps₂⟩ := Chain.settled_of_mem_narrowings hg₂.bare ha₂ hmem₂
    exact eq_binaryNode_of_plus (fun s hs => hsemi₁ s (hkeeps₁ s hs))
      (fun s hs => hsemi₂ s (hkeeps₂ s hs)) hops₁ hops₂ hv₁ hv₂ hv
  intro v
  constructor
  · intro hv
    obtain ⟨narrowed, hmem, hchain⟩ := (hiff v).mp hv
    obtain ⟨n₁, hmem₁, n₂, hmem₂, rfl⟩ := Chain.mem_narrowings_plus.mp hmem
    obtain ⟨v₁, hv₁⟩ := hall₁ n₁ hmem₁
    obtain ⟨v₂, hv₂⟩ := hall₂ n₂ hmem₂
    exact ⟨v₁, (hiff₁ v₁).mpr ⟨n₁, hmem₁, hv₁⟩, v₂, (hiff₂ v₂).mpr ⟨n₂, hmem₂, hv₂⟩,
      hsum hmem₁ hmem₂ hv₁ hv₂ hchain⟩
  · rintro ⟨v₁, hv₁, v₂, hv₂, rfl⟩
    obtain ⟨n₁, hmem₁, hchain₁⟩ := (hiff₁ v₁).mp hv₁
    obtain ⟨n₂, hmem₂, hchain₂⟩ := (hiff₂ v₂).mp hv₂
    have hmem : Chain.plus span n₁ n₂ ∈ (Chain.plus span c₁ c₂).narrowings :=
      Chain.mem_narrowings_plus.mpr ⟨n₁, hmem₁, n₂, hmem₂, rfl⟩
    obtain ⟨v, hv⟩ := hall _ hmem
    rw [← hsum hmem₁ hmem₂ hchain₁ hchain₂ hv]
    exact (hiff v).mpr ⟨_, hmem, hv⟩

/-- A call and a name: the sum of what they stand for. -/
theorem mem_variants_plus_iff_of_call :
    let f : Chain.Link := .operand (.atom (.identifier ['f'])) ⟨0, 1⟩
    let jux : Operator := ⟨.juxtapose ⟨true, true, true⟩, ⟨1, 1⟩⟩
    let block : Chain.Operand := .block .paren none [[.operand (.atom (.identifier ['x'])) ⟨2, 3⟩]]
    let c₁ : Chain := [f, .operator jux, .operand block ⟨1, 4⟩]
    let c₂ : Chain := [.operand (.atom (.identifier ['y'])) ⟨7, 8⟩]
    ∃ t₁ t₂ t, ofChain default c₁ = .ok t₁ ∧ ofChain default c₂ = .ok t₂ ∧
      ofChain default (Chain.plus ⟨5, 6⟩ c₁ c₂) = .ok t ∧
      ∀ v, v ∈ t.variants Op.narrowings ↔ ∃ v₁ ∈ t₁.variants Op.narrowings,
        ∃ v₂ ∈ t₂.variants Op.narrowings, v = binaryNode ⟨.symbol .plus, ⟨5, 6⟩⟩ v₁ v₂ := by
  intro f jux block c₁ c₂
  have hg₁ : c₁.IsGrouped := by
    refine ⟨Chain.isClosed_of_notMem (by simp [c₁, f, block]), ?_, ?_⟩
    · apply Chain.isTight_operand
      apply Chain.isTight_operator (Chain.isTight_operand Chain.isTight_nil)
      exact fun _ => ⟨block, ⟨1, 4⟩, [], rfl⟩
    · intro o ho
      obtain rfl : o = jux := by simpa [c₁, f] using ho
      exact Op.isBare_juxtapose _
  have hg₂ : c₂.IsGrouped := by
    refine ⟨Chain.isClosed_of_notMem (by simp [c₂]), Chain.isTight_operand Chain.isTight_nil, ?_⟩
    intro o ho
    simp [c₂] at ho
  have hs₁ : c₁.IsSpaced := Chain.isSpaced_of_countP_le (by decide)
  have hs₂ : c₂.IsSpaced := Chain.isSpaced_of_countP_le (by decide)
  obtain ⟨t₁, h₁⟩ := exists_ok_of_isSome (x := ofChain default c₁) (by decide +kernel)
  obtain ⟨t₂, h₂⟩ := exists_ok_of_isSome (x := ofChain default c₂) (by decide +kernel)
  obtain ⟨t, h⟩ := exists_ok_of_isSome (x := ofChain default (Chain.plus ⟨5, 6⟩ c₁ c₂))
    (by decide +kernel)
  exact ⟨t₁, t₂, t, h₁, h₂, h, (mem_variants_plus_iff hg₁ hg₂ (by decide) (by decide) hs₁ hs₂
    (by decide) (by decide) h₁ h₂ h).1⟩

/-- **The candidates are held at the sum**: a power of a call, or a product with a power, and a name
are two sums, and not the sum of two powers and a name. -/
theorem ofChain_plus_ne_binaryNode :
    let jux (m : Meanings) : Operator := ⟨.juxtapose m, ⟨1, 1⟩⟩
    let caret : Operator := ⟨.symbol .caret, ⟨4, 5⟩⟩
    let plus : Operator := ⟨.symbol .plus, ⟨7, 8⟩⟩
    let c₁ : Chain := [.operand (.atom (.identifier ['f'])) ⟨0, 1⟩,
      .operator (jux ⟨true, true, true⟩),
      .operand (.block .paren none [[.operand (.atom (.identifier ['x'])) ⟨2, 3⟩]]) ⟨1, 4⟩,
      .operator caret, .operand (.atom (.identifier ['z'])) ⟨5, 6⟩]
    let c₂ : Chain := [.operand (.atom (.identifier ['y'])) ⟨9, 10⟩]
    let f : Expr := .atom (.identifier ['f']) ⟨0, 1⟩
    let x : Expr := .block .paren none [.atom (.identifier ['x']) ⟨2, 3⟩] ⟨1, 4⟩
    let z : Expr := .atom (.identifier ['z']) ⟨5, 6⟩
    let y : Expr := .atom (.identifier ['y']) ⟨9, 10⟩
    let call : Expr := .binary caret (.binary (jux ⟨true, true, false⟩) f x ⟨0, 4⟩) z ⟨0, 6⟩
    let product : Expr := .binary (jux ⟨false, false, true⟩) f (.binary caret x z ⟨1, 6⟩) ⟨0, 6⟩
    let t₁ : Expr := .ambiguous [call, product] ⟨0, 6⟩
    let t : Expr := .ambiguous [.binary plus call y ⟨0, 10⟩, .binary plus product y ⟨0, 10⟩] ⟨0, 10⟩
    c₁.IsAbove 20 ∧ c₂.IsAbove 20 ∧ ofChain default c₁ = .ok t₁ ∧ ofChain default c₂ = .ok y ∧
      ofChain default (Chain.plus ⟨7, 8⟩ c₁ c₂) = .ok t ∧ t ≠ binaryNode plus t₁ y := by
  intro jux caret plus c₁ c₂ f x z y call product t₁ t
  have h₁ : (ofChain default c₁).toOption = some t₁ := by decide +kernel
  have h₂ : (ofChain default c₂).toOption = some y := by decide +kernel
  have h : (ofChain default (Chain.plus ⟨7, 8⟩ c₁ c₂)).toOption = some t := by decide +kernel
  exact ⟨by decide, by decide, toOption_eq_some_iff.mp h₁, toOption_eq_some_iff.mp h₂,
    toOption_eq_some_iff.mp h, by simp [t, binaryNode]⟩

end Expr

end DewyFront
