/-
# DewyFront.Proofs.Totality — the chains of a source are reduced or refused

What lexing, settling and grouping make of a source is a list of sound chains, and reducing a sound
chain ends in no fault.

* §1 what operands are drawn to;
* §2 chains of a source.
-/
import DewyFront.Proofs.Admission
import DewyFront.Proofs.Grouping
import DewyFront.Source.Parsed

namespace DewyFront

namespace Reduction

/-! ## §1 Pulls -/

/-- **`drawnTo`** — the slot that a slot is drawn to. -/
def drawnTo (slots : List Slot) (place : Nat) : Pull → Option Slot
  | .stay => none
  | .left => if place = 0 then none else slots[place - 1]?
  | .right => slots[place + 1]?

theorem exists_left_of_pullOf {left right : Option Operator} {e : Expr}
    (h : pullOf left right e = .ok (some .left)) : ∃ o, left = some o := by
  cases left with
  | some o => exact ⟨o, rfl⟩
  | none =>
    rcases pullOf_left h with ⟨hc, -⟩ | hlt
    · cases hc
    · exact absurd hlt (Nat.not_lt_zero _)

theorem exists_right_of_pullOf {left right : Option Operator} {e : Expr}
    (h : pullOf left right e = .ok (some .right)) : ∃ o, right = some o := by
  cases right with
  | some o => exact ⟨o, rfl⟩
  | none => exact absurd (pullOf_right h) (Nat.not_lt_zero _)

theorem eq_operator_of_operator? {s : Slot} {o : Operator} (h : s.operator? = some o) :
    s = .operator o := by
  cases s with
  | node e => cases h
  | operator p =>
    cases h
    rfl

/-- Slots are drawn to operators; `front` stands before those that are surveyed. -/
theorem surveyFrom_drawnTo (front : List Slot) {place : Nat} {rest : List Slot}
    {pulls : List Pull} (h : surveyFrom front.getLast? place rest = .ok (.decided pulls)) :
    ∀ i pull, pulls[i]? = some pull → pull ≠ .stay →
      ∃ o, drawnTo (front ++ rest) (front.length + i) pull = some (.operator o) := by
  induction rest generalizing front place pulls with
  | nil =>
    cases h
    simp
  | cons s rest ih =>
    have hlast : (front ++ [s]).getLast? = some s := by simp
    -- Behind the first slot the induction tells it, one place further on.
    have hrest : ∀ {place ps}, surveyFrom (some s) place rest = .ok (.decided ps) →
        ∀ i pull, ps[i]? = some pull → pull ≠ .stay →
          ∃ o, drawnTo (front ++ s :: rest) (front.length + (i + 1)) pull =
            some (.operator o) := by
      intro place ps hps i pull hi hne
      rw [← hlast] at hps
      obtain ⟨o, ho⟩ := ih _ hps i pull hi hne
      rw [List.append_assoc, List.singleton_append, List.length_append, List.length_singleton] at ho
      exact ⟨o, by rw [← ho]; congr 1; omega⟩
    intro i pull hi hne
    cases s with
    | operator o =>
      rw [surveyFrom, bind_ok_iff] at h
      obtain ⟨sv, hsv, h⟩ := h
      obtain ⟨ps, rfl, rfl⟩ := Survey.cons_eq_decided (Except.ok.inj h)
      cases i with
      | zero => exact absurd (Option.some.inj hi).symm hne
      | succ i => exact hrest hsv i pull hi hne
    | node n =>
      rw [surveyFrom, bind_ok_iff] at h
      obtain ⟨found, hfound, h⟩ := h
      cases found with
      | none =>
        obtain ⟨_, -, h⟩ := bind_ok_iff.mp h
        cases h
      | some p =>
        obtain ⟨sv, hsv, h⟩ := bind_ok_iff.mp h
        obtain ⟨ps, rfl, rfl⟩ := Survey.cons_eq_decided (Except.ok.inj h)
        cases i with
        | succ i => exact hrest hsv i pull hi hne
        | zero =>
          cases hi
          -- What draws to the left is the last slot of the front, and what draws to the right is the first
          -- of the rest.
          cases pull with
          | stay => exact absurd rfl hne
          | left =>
            obtain ⟨o, ho⟩ := exists_left_of_pullOf hfound
            obtain ⟨s, hs, hop⟩ := Option.bind_eq_some_iff.mp ho
            obtain ⟨inner, rfl⟩ := List.getLast?_eq_some_iff.mp hs
            refine ⟨o, ?_⟩
            rw [← eq_operator_of_operator? hop]
            simp [drawnTo]
          | right =>
            obtain ⟨o, ho⟩ := exists_right_of_pullOf hfound
            obtain ⟨s, hs, hop⟩ := Option.bind_eq_some_iff.mp ho
            obtain ⟨tail, rfl⟩ := List.head?_eq_some_iff.mp hs
            refine ⟨o, ?_⟩
            rw [← eq_operator_of_operator? hop]
            simp [drawnTo]

/-- **What is drawn is drawn to an operator.** -/
theorem survey_drawnTo {slots : List Slot} {pulls : List Pull}
    (h : survey slots = .ok (.decided pulls)) {i : Nat} {pull : Pull} (hi : pulls[i]? = some pull)
    (hne : pull ≠ .stay) : ∃ o, drawnTo slots i pull = some (.operator o) := by
  simpa using surveyFrom_drawnTo [] h i pull hi hne

end Reduction

/-! ## §2 Chains of a source -/

/-- **The chains of a source are sound.** -/
theorem Lexed.chains_sound {lexer : LexerConfig} {s : Source} {l : Lexed} {chains : List Chain}
    (hl : s.lex lexer = .ok l) (hchains : l.chains = .ok chains) : ∀ chain ∈ chains, chain.Sound := by
  obtain ⟨-, out, trees, -, htrees, rfl⟩ := Source.lex_ok_iff.mp hl
  obtain ⟨items, hitems, hchains⟩ := bind_ok_iff.mp hchains
  have hlexed := Tree.allLexed_of_ofLexemes htrees
  exact Chain.ofTrees_sound hlexed (mapError_ok_iff.mp hitems) (mapError_ok_iff.mp hchains)

/-- **Every chain of a source is reduced or refused**, and none of its reductions begins anywhere but
at an operator. -/
theorem Lexed.ofChain_total {lexer : LexerConfig} {s : Source} {l : Lexed} {chains : List Chain}
    {chain : Chain} (config : ParseConfig) (hl : s.lex lexer = .ok l)
    (hchains : l.chains = .ok chains) (hmem : chain ∈ chains) :
    Faultless (Expr.ofChain config chain) ∧
      ∀ slots pulls, Reduction.survey slots = .ok (.decided pulls) →
        ∀ i pull, pulls[i]? = some pull → pull ≠ .stay →
          ∃ o, Reduction.drawnTo slots i pull = some (.operator o) :=
  ⟨Expr.ofChain_faultless config (Lexed.chains_sound hl hchains _ hmem),
    fun _ _ h _ _ hi hne => Reduction.survey_drawnTo h hi hne⟩

/-- A call that is raised to a power or multiplied by one, inside of a sum. -/
theorem Lexed.ofChain_total_of_power :
    let s : Source := ⟨['n', '+', 'f', '(', 'x', ')', '^', '2'], none⟩
    ∃ l chain, s.lex default = .ok l ∧ l.chains = .ok [chain] ∧
      Faultless (Expr.ofChain default chain) := by
  intro s
  have hone : ((s.lex default).toOption.bind fun l => l.chains.toOption).map List.length = some 1 := by
    decide +kernel
  obtain ⟨chains, hchains, hlength⟩ := Option.map_eq_some_iff.mp hone
  obtain ⟨l, hl, hchains⟩ := Option.bind_eq_some_iff.mp hchains
  obtain ⟨chain, rfl⟩ := List.length_eq_one_iff.mp hlength
  have hl := toOption_eq_some_iff.mp hl
  have hchains := toOption_eq_some_iff.mp hchains
  exact ⟨l, chain, hl, hchains,
    (Lexed.ofChain_total default hl hchains (List.mem_singleton_self _)).1⟩

end DewyFront
