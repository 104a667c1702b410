/-
# DewyFront.Proofs.Levels — what the precedence table says about neighbouring operators

A row of the table has one associativity, so the operators of a row agree on the side that keeps an
operand. Hence the powers on the two sides of an operand are never the same number, and they can be
told apart unless one of them belongs to a juxtaposition that sits in two rows.

* §1 the associativity of a row;
* §2 the levels that an operator may have;
* §3 juxtapositions in two rows;
* §4 the powers of an operator;
* §5 neighbouring powers compared;
* §6 the forms of an operator.
-/
import DewyFront.Precedence

namespace DewyFront

open Precedence

/-! ## §1 Rows -/

/-- **`assocOf`** — how the operators of a row associate. -/
def Precedence.assocOf : Nat → Assoc
  | 1 | 2 | 7 | 8 | 15 | 29 | 30 => .alone
  | 3 | 5 | 24 => .right
  | 16 | 17 => .flat
  | 20 | 22 | 26 | 27 | 32 => .before
  | 25 | 28 => .after
  | _ => .left

/-- A level of the table associates as its row does, and no row is above 32. -/
def Level.IsTabled (l : Level) : Prop := l.assoc = assocOf l.row ∧ l.row ≤ 32

namespace Op

theorem isTabled_of_mem_symbolLevels {s : Symbol} {l : Level} (h : l ∈ symbolLevels s) :
    l.IsTabled := by
  cases s <;> simp only [symbolLevels, callRow, List.mem_cons, List.not_mem_nil, or_false] at h <;>
    first
      | (subst h; exact ⟨rfl, by decide⟩)
      | (rcases h with rfl | rfl <;> exact ⟨rfl, by decide⟩)

theorem isTabled_of_mem_readings {m : Meanings} {r : Nat × Meanings} (h : r ∈ readings m) :
    Level.IsTabled ⟨r.1, .left⟩ := by
  simp only [readings, List.mem_append] at h
  rcases h with h | h <;> split at h <;>
    simp only [List.mem_cons, List.not_mem_nil, or_false] at h <;> subst h
  · exact ⟨rfl, by simp only [callRow]; omega⟩
  · exact ⟨rfl, by simp only [productRow]; omega⟩

/-- **Every level of an operator is in the table.** -/
theorem isTabled_of_mem_levels : ∀ {op : Op} {l : Level}, l ∈ op.levels → l.IsTabled
  | .symbol _, _, h => isTabled_of_mem_symbolLevels h
  | .backtick .before, _, h | .backtick .after, _, h | .bond .semicolon, _, h
  | .bond .range, _, h | .bond .ellipsis, _, h | .bond .typeParam, _, h | .inverted _, _, h
  | .assign _, _, h => by
      rw [levels, List.mem_singleton] at h
      subst h
      exact ⟨rfl, by decide⟩
  | .juxtapose _, _, h => by
      obtain ⟨r, hr, rfl⟩ := List.mem_map.mp h
      exact isTabled_of_mem_readings hr
  | .chain _ _, _, h => isTabled_of_mem_symbolLevels (List.mem_filter.mp h).1
  | .broadcast inner, l, h => by
      have hinner : l ∈ inner.levels := h
      exact isTabled_of_mem_levels hinner

/-! ## §2 Arrangements -/

/-- **`Arranged`** — the lists of levels that an operator may have: none, one, a binary row with the
unary row above it, or the two rows of a juxtaposition. -/
inductive Arranged : List Level → Prop
  | none : Arranged []
  | one (l : Level) : Arranged [l]
  | dual (row : Nat) : Arranged [⟨row, .left⟩, ⟨row + 1, .before⟩]
  | split : Arranged [⟨callRow, .left⟩, ⟨productRow, .left⟩]

theorem arranged_symbolLevels (s : Symbol) : Arranged (symbolLevels s) := by
  cases s <;> first | exact .one _ | exact .dual _

theorem arranged_levels : ∀ op : Op, Arranged op.levels
  | .symbol s => arranged_symbolLevels s
  | .backtick .before | .backtick .after | .bond .semicolon | .bond .range | .bond .ellipsis
  | .bond .typeParam | .inverted _ | .assign _ => .one _
  | .juxtapose m => by
      simp only [levels, readings]
      cases m.hasUpper <;> cases m.hasLower
      · exact .none
      · exact .one _
      · exact .one _
      · exact .split
  | .chain head _ => by
      have h := arranged_symbolLevels head
      simp only [levels]
      generalize symbolLevels head = ls at h
      cases h with
      | none => exact .none
      | one l =>
        cases hl : l.isBinary
        · rw [List.filter_cons_of_neg (by simp [hl])]
          exact .none
        · rw [List.filter_cons_of_pos hl]
          exact .one _
      | dual row => exact .one _
      | split => exact .split
  | .broadcast inner => arranged_levels inner

/-! ## §3 Juxtapositions in two rows -/

/-- **`holdsContested`** — whether an operator is a juxtaposition with meanings on both levels, or
applies one element by element. -/
def holdsContested : Op → Bool
  | .juxtapose m => m.hasUpper && m.hasLower
  | .broadcast inner => inner.holdsContested
  | _ => false

theorem isContested_juxtapose (m : Meanings) :
    (Op.juxtapose m).isContested = (m.hasUpper && m.hasLower) := by
  cases hu : m.hasUpper <;> cases hl : m.hasLower <;> simp [isContested, readings, hu, hl]

theorem holdsContested_of_isContested {op : Op} (h : op.isContested = true) :
    op.holdsContested = true := by
  cases op <;> first | (rw [isContested_juxtapose] at h; exact h) | exact absurd h (by simp [isContested])

/-- **`IsBare`** — no contested juxtaposition is applied element by element. -/
def IsBare (op : Op) : Prop := op.holdsContested = true → op.isContested = true

theorem isBare_of_holdsContested_eq_false {op : Op} (h : op.holdsContested = false) : op.IsBare :=
  fun hc => by rw [h] at hc; cases hc

theorem isBare_juxtapose (m : Meanings) : (Op.juxtapose m).IsBare := by
  rw [IsBare, isContested_juxtapose]
  exact id

theorem isContested_of_holdsContested_eq_false {op : Op} (h : op.holdsContested = false) :
    op.isContested = false := by
  cases hc : op.isContested with
  | false => rfl
  | true =>
    rw [holdsContested_of_isContested hc] at h
    cases h

theorem symbolLevels_ne_split (s : Symbol) :
    symbolLevels s ≠ [⟨callRow, .left⟩, ⟨productRow, .left⟩] := by
  cases s <;> simp [symbolLevels]

/-- An operator sits in the two rows of a juxtaposition exactly if it holds a contested one. -/
theorem holdsContested_iff : ∀ {op : Op},
    op.holdsContested = true ↔ op.levels = [⟨callRow, .left⟩, ⟨productRow, .left⟩]
  | .symbol s => by simp [holdsContested, levels, symbolLevels_ne_split s]
  | .backtick .before | .backtick .after | .bond .semicolon | .bond .range | .bond .ellipsis
  | .bond .typeParam | .inverted _ | .assign _ => by simp [holdsContested, levels]
  | .juxtapose m => by
      simp only [holdsContested, levels, readings]
      cases m.hasUpper <;> cases m.hasLower <;> simp
  | .chain head _ => by
      have hs := arranged_symbolLevels head
      have hne := symbolLevels_ne_split head
      simp only [holdsContested, levels]
      generalize symbolLevels head = ls at hs hne
      cases hs with
      | none => simp
      | one l => cases hl : l.isBinary <;> simp [hl]
      | dual row =>
        rw [show [(⟨row, .left⟩ : Level), ⟨row + 1, .before⟩].filter Level.isBinary
          = [⟨row, .left⟩] from rfl]
        simp
      | split => exact absurd rfl hne
  | .broadcast inner => by
      rw [holdsContested, levels]
      exact @holdsContested_iff inner

/-! ## §4 Powers -/

end Op

theorem Power.ofValues_singleton (v : Nat) : Power.ofValues [v] = ⟨v, v⟩ := by
  cases v <;> rfl

/-- The two sides of an operand never have the same power: equal powers are of one row, and a row
has one associativity. -/
theorem Level.powers_ne {l m : Level} (hl : l.IsTabled) (hm : m.IsTabled)
    (h : 0 < m.powers.1) : l.powers.2 ≠ m.powers.1 := by
  obtain ⟨lr, la⟩ := l
  obtain ⟨mr, ma⟩ := m
  obtain ⟨hla, -⟩ := hl
  obtain ⟨hma, -⟩ := hm
  dsimp only at hla hma
  intro heq
  have hrow : lr = mr := by
    cases la <;> cases ma <;> simp only [Level.powers] at heq h <;> omega
  subst hrow
  rw [← hma] at hla
  subst hla
  cases la <;> simp only [Level.powers] at heq h <;> omega

/-- A level that is not in front of an operand binds to the left. -/
theorem Level.powers_fst_pos {l : Level} (h : l.assoc ≠ .before) : 0 < l.powers.1 := by
  obtain ⟨row, assoc⟩ := l
  cases assoc <;> first | exact absurd rfl h | (simp only [Level.powers]; omega)

/-- A level that is not behind an operand binds to the right. -/
theorem Level.powers_snd_pos {l : Level} (h : l.assoc ≠ .after) : 0 < l.powers.2 := by
  obtain ⟨row, assoc⟩ := l
  cases assoc <;> first | exact absurd rfl h | (simp only [Level.powers]; omega)

namespace Op

variable {op p q : Op} {l : Level}

theorem powers_of_levels_nil (h : op.levels = []) :
    op.leftPower = .none ∧ op.rightPower = .none := by
  simp only [leftPower, rightPower, h]
  exact ⟨rfl, rfl⟩

theorem leftPower_of_levels_one (h : op.levels = [l]) :
    op.leftPower = ⟨l.powers.1, l.powers.1⟩ := by
  simp only [leftPower, h, List.map_cons, List.map_nil, Power.ofValues_singleton]

theorem rightPower_of_levels_one (h : op.levels = [l]) :
    op.rightPower = ⟨l.powers.2, l.powers.2⟩ := by
  simp only [rightPower, h, List.map_cons, List.map_nil, Power.ofValues_singleton]

theorem leftPower_of_levels_dual {row : Nat} (h : op.levels = [⟨row, .left⟩, ⟨row + 1, .before⟩]) :
    op.leftPower = ⟨2 * row + 1, 2 * row + 1⟩ := by
  simp only [leftPower, h]
  rfl

theorem rightPower_of_levels_dual {row : Nat}
    (h : op.levels = [⟨row, .left⟩, ⟨row + 1, .before⟩]) :
    op.rightPower = ⟨2 * row + 2, 2 * row + 3⟩ := by
  simp only [rightPower, h]
  have hmin : min (2 * row + 2) (2 * (row + 1) + 1) = 2 * row + 2 := by omega
  have hmax : max (2 * row + 2) (2 * (row + 1) + 1) = 2 * row + 3 := by omega
  show (⟨min (2 * row + 2) (2 * (row + 1) + 1), max (2 * row + 2) (2 * (row + 1) + 1)⟩ : Power) = _
  rw [hmin, hmax]

theorem powers_of_holdsContested (h : op.holdsContested = true) :
    op.leftPower = ⟨47, 63⟩ ∧ op.rightPower = ⟨48, 64⟩ := by
  simp only [leftPower, rightPower, holdsContested_iff.mp h]
  exact ⟨rfl, rfl⟩

/-- Every value between the bounds of the power on the right is that of a level, unless the operator
holds a contested juxtaposition. -/
theorem exists_level_of_rightPower (hop : op.holdsContested = false) {n : Nat}
    (hlow : op.rightPower.low ≤ n) (hhigh : n ≤ op.rightPower.high) (hn : 0 < n) :
    ∃ l ∈ op.levels, l.powers.2 = n := by
  have ha := arranged_levels op
  generalize hls : op.levels = ls at ha
  cases ha with
  | none =>
    rw [(powers_of_levels_nil hls).2] at hhigh
    exact absurd hhigh (by simp [Power.none]; omega)
  | one l =>
    rw [rightPower_of_levels_one hls] at hlow hhigh
    exact ⟨l, by simp, Nat.le_antisymm hlow hhigh⟩
  | dual row =>
    rw [rightPower_of_levels_dual hls] at hlow hhigh
    dsimp only at hlow hhigh
    rcases Nat.lt_or_ge n (2 * row + 3) with h | h
    · exact ⟨⟨row, .left⟩, by simp, by simp only [Level.powers]; omega⟩
    · exact ⟨⟨row + 1, .before⟩, by simp, by simp only [Level.powers]; omega⟩
  | split => exact absurd (holdsContested_iff.mpr hls) (by simp [hop])

/-- The power on the left is that of a single level, unless the operator holds a contested
juxtaposition. -/
theorem leftPower_eq (hop : op.holdsContested = false) :
    op.leftPower = .none ∨ ∃ l ∈ op.levels, op.leftPower = ⟨l.powers.1, l.powers.1⟩ := by
  have ha := arranged_levels op
  generalize hls : op.levels = ls at ha
  cases ha with
  | none => exact .inl (powers_of_levels_nil hls).1
  | one l => exact .inr ⟨l, by simp, leftPower_of_levels_one hls⟩
  | dual row => exact .inr ⟨⟨row, .left⟩, by simp, leftPower_of_levels_dual hls⟩
  | split => exact absurd (holdsContested_iff.mpr hls) (by simp [hop])

/-- **A left power is never above 63**: the only row above that of calls is unary. -/
theorem leftPower_high_le (op : Op) : op.leftPower.high ≤ 63 := by
  cases hop : op.holdsContested with
  | true =>
    exact Nat.le_of_eq (by rw [(powers_of_holdsContested hop).1])
  | false =>
    rcases leftPower_eq hop with h | ⟨l, hl, h⟩
    · rw [h]
      exact Nat.zero_le _
    · obtain ⟨hassoc, hrow⟩ := isTabled_of_mem_levels hl
      rw [h]
      obtain ⟨r, a⟩ := l
      dsimp only at hassoc hrow ⊢
      rcases Nat.lt_or_ge r 31 with hr | hr
      · cases a <;> simp only [Level.powers] <;> omega
      · have : r = 31 ∨ r = 32 := by omega
        rcases this with rfl | rfl <;> subst hassoc <;> decide

/-- The power of the role that an operator takes on its left is within its left power. -/
theorem leftPower_bounds (hl : l ∈ op.levels) (h : 0 < l.powers.1) :
    op.leftPower.low ≤ l.powers.1 ∧ l.powers.1 ≤ op.leftPower.high := by
  have ha := arranged_levels op
  generalize hls : op.levels = ls at ha hl
  cases ha with
  | none => cases hl
  | one m =>
    rw [List.mem_singleton] at hl
    subst hl
    rw [leftPower_of_levels_one hls]
    exact ⟨Nat.le_refl _, Nat.le_refl _⟩
  | dual row =>
    rw [leftPower_of_levels_dual hls]
    simp only [List.mem_cons, List.not_mem_nil, or_false] at hl
    rcases hl with rfl | rfl
    · exact ⟨Nat.le_refl _, Nat.le_refl _⟩
    · exact absurd h (by simp [Level.powers])
  | split =>
    rw [(powers_of_holdsContested (holdsContested_iff.mpr hls)).1]
    simp only [List.mem_cons, List.not_mem_nil, or_false] at hl
    rcases hl with rfl | rfl <;> decide

/-- The power of the role that an operator takes on its right is within its right power. -/
theorem rightPower_bounds (hl : l ∈ op.levels) (h : 0 < l.powers.2) :
    op.rightPower.low ≤ l.powers.2 ∧ l.powers.2 ≤ op.rightPower.high := by
  have ha := arranged_levels op
  generalize hls : op.levels = ls at ha hl
  cases ha with
  | none => cases hl
  | one m =>
    rw [List.mem_singleton] at hl
    subst hl
    rw [rightPower_of_levels_one hls]
    exact ⟨Nat.le_refl _, Nat.le_refl _⟩
  | dual row =>
    rw [rightPower_of_levels_dual hls]
    simp only [List.mem_cons, List.not_mem_nil, or_false] at hl
    rcases hl with rfl | rfl <;> simp only [Level.powers] <;> omega
  | split =>
    rw [(powers_of_holdsContested (holdsContested_iff.mpr hls)).2]
    simp only [List.mem_cons, List.not_mem_nil, or_false] at hl
    rcases hl with rfl | rfl <;> decide

/-- A right power that begins at zero does not bind at all. -/
theorem rightPower_eq_none (hop : op.holdsContested = false) (h : op.rightPower.low = 0) :
    op.rightPower = .none := by
  have ha := arranged_levels op
  generalize hls : op.levels = ls at ha
  cases ha with
  | none => exact (powers_of_levels_nil hls).2
  | one l =>
    rw [rightPower_of_levels_one hls] at h ⊢
    dsimp only at h
    rw [h]
    rfl
  | dual row =>
    rw [rightPower_of_levels_dual hls] at h
    exact absurd h (by simp)
  | split => exact absurd (holdsContested_iff.mpr hls) (by simp [hop])

/-! ## §5 Comparison -/

/-- No level of an operator binds to its right as hard as one of its neighbour binds to its left. -/
theorem not_between (hp : p.holdsContested = false) {m : Level} (hm : m ∈ q.levels)
    (h : 0 < m.powers.1) (hlow : p.rightPower.low ≤ m.powers.1)
    (hhigh : m.powers.1 ≤ p.rightPower.high) : False := by
  obtain ⟨l, hl, heq⟩ := exists_level_of_rightPower hp hlow hhigh h
  exact Level.powers_ne (isTabled_of_mem_levels hl) (isTabled_of_mem_levels hm) h heq

end Op

namespace Power

variable {p q : Power}

theorem compare_eq_lt (h : p.compare q = some .lt) : p.high < q.low := by
  simp only [compare] at h
  split at h
  · cases h
  · split at h
    · assumption
    · split at h <;> cases h

theorem compare_eq_gt (h : p.compare q = some .gt) : q.high < p.low := by
  simp only [compare] at h
  split at h
  · assumption
  · split at h
    · cases h
    · split at h <;> cases h

theorem compare_eq_eq (h : p.compare q = some .eq) : p.low = p.high ∧ p = q := by
  simp only [compare] at h
  split at h
  · cases h
  · split at h
    · cases h
    · split at h
      · assumption
      · cases h

theorem compare_eq_none (h : p.compare q = Option.none) :
    p.low ≤ q.high ∧ q.low ≤ p.high ∧ ¬ (p.low = p.high ∧ p = q) := by
  simp only [compare] at h
  split at h
  · cases h
  · split at h
    · cases h
    · split at h
      · cases h
      · exact ⟨by omega, by omega, by assumption⟩

end Power

namespace Op

variable {op p q : Op} {l : Level}

/-- **Two neighbouring powers are never equal**, unless neither side binds. -/
theorem compare_ne_eq (hq : q.leftPower ≠ .none) :
    p.rightPower.compare q.leftPower ≠ some .eq := by
  intro h
  obtain ⟨hsame, heq⟩ := Power.compare_eq_eq h
  cases hcp : p.holdsContested with
  | true => exact absurd hsame (by rw [(powers_of_holdsContested hcp).2]; decide)
  | false =>
    cases hcq : q.holdsContested with
    | true =>
      rw [heq, (powers_of_holdsContested hcq).1] at hsame
      exact absurd hsame (by decide)
    | false =>
      rcases leftPower_eq hcq with hn | ⟨m, hm, hv⟩
      · exact hq hn
      · have hpos : 0 < m.powers.1 := by
          refine Nat.pos_of_ne_zero fun hz => hq ?_
          rw [hv, hz]
          rfl
        exact not_between hcp hm hpos (Nat.le_of_eq (by rw [heq, hv]))
          (Nat.le_of_eq (by rw [heq, hv]))

/-- **Neighbouring powers can be compared**, unless one of the operators holds a contested
juxtaposition. -/
theorem compare_ne_none (hp : p.holdsContested = false) (hq : q.holdsContested = false) :
    p.rightPower.compare q.leftPower ≠ none := by
  intro h
  obtain ⟨hlow, hhigh, hne⟩ := Power.compare_eq_none h
  have hzero : p.rightPower.low = 0 → q.leftPower ≠ .none := by
    intro hz hn
    have hpn := rightPower_eq_none hp hz
    exact hne ⟨by rw [hpn]; rfl, by rw [hpn, hn]⟩
  rcases leftPower_eq hq with hn | ⟨m, hm, hv⟩
  · refine hzero ?_ hn
    rw [hn] at hlow
    exact Nat.eq_zero_of_le_zero hlow
  · rw [hv] at hlow hhigh
    dsimp only at hlow hhigh
    rcases Nat.eq_zero_or_pos m.powers.1 with hz | hpos
    · rw [hz] at hv hlow
      exact hzero (Nat.eq_zero_of_le_zero hlow) hv
    · exact not_between hp hm hpos hlow hhigh

/-! ## §6 Forms -/

theorem isBefore_iff : op.isBefore = true ↔ ∃ l ∈ op.levels, l.assoc = .before := by
  simp [isBefore]

theorem isAfter_iff : op.isAfter = true ↔ ∃ l ∈ op.levels, l.assoc = .after := by
  simp [isAfter]

theorem isFlat_iff : op.isFlat = true ↔ ∃ l ∈ op.levels, l.assoc = .flat := by
  simp [isFlat]

theorem isBinary_iff : op.isBinary = true ↔ ∃ l ∈ op.levels, l.isBinary = true := by
  simp [isBinary]

/-- An operator with a level that is neither that of a product nor unary in front has no other
level. -/
theorem levels_of_assoc {a : Assoc} (hleft : a ≠ .left) (hbefore : a ≠ .before)
    (h : ∃ l ∈ op.levels, l.assoc = a) : ∃ row, op.levels = [⟨row, a⟩] := by
  have ha := arranged_levels op
  generalize op.levels = ls at ha h
  obtain ⟨l, hl, rfl⟩ := h
  cases ha with
  | none => cases hl
  | one m =>
    rw [List.mem_singleton] at hl
    subst hl
    exact ⟨l.row, rfl⟩
  | dual row | split =>
    simp only [List.mem_cons, List.not_mem_nil, or_false] at hl
    rcases hl with rfl | rfl
    · exact absurd rfl hleft
    · first | exact absurd rfl hleft | exact absurd rfl hbefore

theorem levels_of_isAfter (h : op.isAfter = true) : ∃ row, op.levels = [⟨row, .after⟩] :=
  levels_of_assoc (by decide) (by decide) (isAfter_iff.mp h)

theorem levels_of_isFlat (h : op.isFlat = true) : ∃ row, op.levels = [⟨row, .flat⟩] :=
  levels_of_assoc (by decide) (by decide) (isFlat_iff.mp h)

theorem isBinary_of_isFlat (h : op.isFlat = true) : op.isBinary = true := by
  obtain ⟨row, hls⟩ := levels_of_isFlat h
  simp [isBinary, Level.isBinary, hls]

/-- An operator behind its operand has no other form. -/
theorem forms_of_isAfter (h : op.isAfter = true) :
    op.isBinary = false ∧ op.isBefore = false ∧ op.isFlat = false := by
  obtain ⟨row, hls⟩ := levels_of_isAfter h
  simp [isBinary, isBefore, isFlat, Level.isBinary, hls]

/-- An operator in front of its operand has no other form, or it is binary one row below. -/
theorem levels_of_isBefore (h : op.isBefore = true) :
    (∃ row, op.levels = [⟨row, .before⟩]) ∨
    ∃ row, op.levels = [⟨row, .left⟩, ⟨row + 1, .before⟩] := by
  have ha := arranged_levels op
  rw [isBefore_iff] at h
  generalize op.levels = ls at ha h
  obtain ⟨l, hl, hassoc⟩ := h
  cases ha with
  | none => cases hl
  | one m =>
    rw [List.mem_singleton] at hl
    subst hl
    exact .inl ⟨l.row, by rw [← hassoc]⟩
  | dual row => exact .inr ⟨row, rfl⟩
  | split =>
    simp only [List.mem_cons, List.not_mem_nil, or_false] at hl
    rcases hl with rfl | rfl <;> cases hassoc

/-- An operator that binds to its left at some level binds to its left. -/
theorem leftPower_ne_none (hl : l ∈ op.levels) (h : 0 < l.powers.1) : op.leftPower ≠ .none := by
  intro hn
  have := (leftPower_bounds hl h).2
  rw [hn] at this
  exact absurd (Nat.lt_of_lt_of_le h this) (Nat.lt_irrefl 0)

/-- An operator that binds to its right at some level binds to its right. -/
theorem rightPower_ne_none (hl : l ∈ op.levels) (h : 0 < l.powers.2) : op.rightPower ≠ .none := by
  intro hn
  have := (rightPower_bounds hl h).2
  rw [hn] at this
  exact absurd (Nat.lt_of_lt_of_le h this) (Nat.lt_irrefl 0)

theorem leftPower_ne_none_of_isBinary (h : op.isBinary = true) : op.leftPower ≠ .none := by
  obtain ⟨l, hl, hb⟩ := isBinary_iff.mp h
  exact leftPower_ne_none hl (Level.powers_fst_pos fun ha => by simp [Level.isBinary, ha] at hb)

theorem rightPower_ne_none_of_isBinary (h : op.isBinary = true) : op.rightPower ≠ .none := by
  obtain ⟨l, hl, hb⟩ := isBinary_iff.mp h
  exact rightPower_ne_none hl (Level.powers_snd_pos fun ha => by simp [Level.isBinary, ha] at hb)

theorem rightPower_ne_none_of_isBefore (h : op.isBefore = true) : op.rightPower ≠ .none := by
  obtain ⟨l, hl, ha⟩ := isBefore_iff.mp h
  exact rightPower_ne_none hl (Level.powers_snd_pos (by rw [ha]; decide))

theorem leftPower_ne_none_of_isAfter (h : op.isAfter = true) : op.leftPower ≠ .none := by
  obtain ⟨l, hl, ha⟩ := isAfter_iff.mp h
  exact leftPower_ne_none hl (Level.powers_fst_pos (by rw [ha]; decide))

/-- An operand between two operators of one flat run does not go to the left one. -/
theorem not_leftPower_lt_of_isFlat (h : op.isFlat = true) :
    ¬ op.leftPower.high < op.rightPower.low := by
  obtain ⟨row, hls⟩ := levels_of_isFlat h
  rw [rightPower_of_levels_one hls, leftPower_of_levels_one hls]
  simp [Level.powers]

theorem holdsContested_of_isFlat (h : op.isFlat = true) : op.holdsContested = false := by
  obtain ⟨row, hls⟩ := levels_of_isFlat h
  refine Bool.eq_false_iff.mpr fun hc => ?_
  rw [holdsContested_iff.mp hc] at hls
  cases hls

end Op

end DewyFront
