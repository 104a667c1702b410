/-
# DewyFront.Proofs.Digits — the digits of number literals

The digits of an integer are digits of its base: a scan takes nothing else with them but separators, and
those are left out. There is at least one, unless the base is 64, where the separator is a digit besides.
A fraction is the text of its number without separators, so it is never empty; but a lead in front of its
digits stays, and the base of the whole part may be another one.

* §1 what a number should be;
* §2 the digits that a scan takes;
* §3 digits that may be names;
* §4 whole sources.
-/
import DewyFront.Proofs.Bases
import DewyFront.Proofs.Evidence

namespace DewyFront

/-! ## §1 Numbers -/

/-- An integer has digits, all of them of its base. -/
def IntegerLit.WellFormed (i : IntegerLit) : Prop :=
  i.digits ≠ [] ∧ ∀ c ∈ i.digits, i.base.isDigit c = true

/-- **`RealLit.WellFormed`** — a number has a whole part, and a fraction has digits of the base of the
whole part and an exponent has a power. -/
structure RealLit.WellFormed (r : RealLit) : Prop where
  whole : r.whole.WellFormed
  fraction : ∀ f, r.fraction = some f → f ≠ [] ∧ ∀ c ∈ f, r.whole.base.isDigit c = true
  power : ∀ e, r.exponent = some e → e.power.WellFormed

/-! ## §2 Digits -/

section

variable {i : IntegerLit} {context : Context} {t more : Text} {c : Char} {base : Radix}

theorem Tree.mem_withoutSeparators : c ∈ withoutSeparators t ↔ c ∈ t ∧ c ≠ '_' := by
  rw [withoutSeparators, List.mem_filter, bne_iff_ne]

theorem Tree.withoutSeparators_eq_nil : withoutSeparators t = [] ↔ ∀ c ∈ t, c = '_' := by
  simp [withoutSeparators]

theorem Radix.mem_all (b : Radix) : b ∈ all := by
  cases b <;> decide

/-- Only base 64 has the separator for a digit. -/
theorem Radix.isDigit_separator (h : base.isDigit '_' = true) : base = .base64 := by
  cases base <;> first | rfl | exact absurd h (by decide)

/-- **A scan takes digits of the base, and separators.** -/
theorem IntegerLit.Scanned.mem (h : i.Scanned context t more) (hc : c ∈ Radix.unled t) :
    i.base.isDigit c = true ∨ c = '_' := by
  have hall := forall_mem_take_of_le_runLength (Nat.le_of_eq h.run.symm)
  rw [List.take_left] at hall
  simpa using hall c hc

theorem IntegerLit.Scanned.isDigit (h : i.Scanned context t more) (hc : c ∈ i.digits) :
    i.base.isDigit c = true := by
  rw [h.digits] at hc
  obtain ⟨hmem, hne⟩ := Tree.mem_withoutSeparators.mp hc
  exact (h.mem hmem).resolve_right hne

/-- **Only in base 64 can an integer be left without digits**: the first is a digit. -/
theorem IntegerLit.Scanned.base_of_digits_eq_nil (h : i.Scanned context t more) (hnil : i.digits = []) :
    i.base = .base64 := by
  rw [h.digits, Tree.withoutSeparators_eq_nil] at hnil
  have hhead := h.head
  cases hunled : Radix.unled t with
  | nil =>
    rw [hunled] at hhead
    cases hhead
  | cons d u =>
    rw [hunled] at hhead hnil
    rw [hnil d List.mem_cons_self] at hhead
    exact Radix.isDigit_separator hhead

/-- A lead is that of a base that is allowed. -/
theorem View.value_le_of_numberAt {v : View} {start n : Nat} (h : v.numberAt start t = .ok (some n))
    (hlead : Radix.ofLead? t = some base) : base.value ≤ v.config.maxRadix := by
  obtain ⟨own, hown, -, hle, -⟩ | ⟨hnone, -⟩ := View.cases_of_numberAt h
  · rw [hlead] at hown
    cases hown
    exact hle
  · rw [hlead] at hnone
    cases hnone

/-! ## §3 Names -/

/-- A name goes on from its first character. -/
theorem Lexicon.nameLength_cons (hstart : isNameStart c = true) (hplain : isDecoration c = false)
    (t : Text) : nameLength (c :: t) =
      1 + runLength (fun d => isNameContinue d || isDecoration d) t := by
  have hrun : runLength isDecoration (c :: t) = 0 := by simp [runLength, hplain]
  unfold nameLength
  rw [hrun]
  show (if isNameStart c = true then 0 + 1 + runLength _ t else 0) = _
  rw [if_pos hstart, Nat.zero_add]

/-- Separators are a name. -/
theorem Lexicon.length_le_nameLength (hne : t ≠ []) (h : ∀ c ∈ t, c = '_') (more : Text) :
    t.length ≤ nameLength (t ++ more) := by
  cases t with
  | nil => exact absurd rfl hne
  | cons c t =>
    obtain ⟨rfl, hrest⟩ := List.forall_mem_cons.mp h
    have hrun : t.length ≤ runLength (fun d => isNameContinue d || isDecoration d) (t ++ more) :=
      length_le_runLength_append (fun d hd => by rw [hrest d hd]; rfl) more
    rw [List.cons_append, nameLength_cons (by decide) (by decide), List.length_cons]
    omega

end

section

variable {config : LexerConfig} {source more : Text} {x : Lexeme} {context : Context}

/-- Any other match is shorter than the one that stands, unless its kind gives way to the kind of that. -/
theorem Scan.Stands.lt_of_matchKind {v : View} {taken kind : TokenKind} {k n : Nat}
    (h : Stands v ⟨taken, k⟩) (hlegal : kind.isLegalIn v.context.kind = true)
    (hmatch : v.matchKind kind = .ok (some n)) (hne : kind ≠ taken)
    (hprecedes : (taken, kind) ∉ TokenKind.precedence) : n < k := by
  obtain ⟨found, hfound, hothers⟩ := h.others kind hlegal
  obtain ⟨hle, htie⟩ := hothers n (Except.ok.inj (hfound.symm.trans hmatch))
  exact Nat.lt_of_le_of_ne hle fun heq => (htie heq).elim hne hprecedes

/-- **A number without digits has the lead of base 64.** Without a lead it would be a name as well, and
neither would be taken. -/
theorem Scan.TakesIn.ofLead?_of_withoutSeparators_eq_nil (h : TakesIn config source x context more)
    (hkind : x.kind = .number) (hnil : Tree.withoutSeparators (Radix.unled x.text) = []) :
    Radix.ofLead? x.text = some .base64 ∧ 64 ≤ config.maxRadix := by
  have hscanned := h.scanned_number hkind
  have hbase := hscanned.base_of_digits_eq_nil (hscanned.digits.trans hnil)
  obtain ⟨s, htop, hstands⟩ := h.exists_stands
  rw [hkind] at hstands
  rw [hscanned.base] at hbase
  cases hlead : Radix.ofLead? x.text with
  | some own =>
    rw [hlead, Option.getD_some] at hbase
    subst hbase
    refine ⟨rfl, ?_⟩
    obtain ⟨c, u, htext, hletter⟩ := Radix.ofLead?_eq_some hlead
    have hlead' : Radix.ofLead? (x.text ++ more) = some .base64 := by
      rw [htext]
      exact hletter
    exact View.value_le_of_numberAt hstands.taken hlead'
  | none =>
    rw [Radix.unled, hlead, Option.isSome_none, if_neg Bool.false_ne_true,
      Tree.withoutSeparators_eq_nil] at hnil
    have hne : x.text ≠ [] := by
      intro htext
      have hhead := hscanned.head
      rw [htext] at hhead
      cases hhead
    -- Where a number may stand, so may a name.
    have hname : TokenKind.name.isLegalIn (s.view config (x.text ++ more)).context.kind = true :=
      hstands.legal
    have hlength := Lexicon.length_le_nameLength hne hnil more
    have hpos := List.length_pos_of_ne_nil hne
    have hmatch : (s.view config (x.text ++ more)).matchKind .name =
        .ok (some (Lexicon.nameLength (x.text ++ more))) := by
      show Except.ok (View.positive (Lexicon.nameLength (x.text ++ more))) = _
      rw [View.positive, if_neg (by omega)]
    exact absurd (hstands.lt_of_matchKind hname hmatch (by decide) (by decide)) (Nat.not_lt_of_le hlength)

/-- **So has a power without digits.** Without a lead the exponent would be a number as well. -/
theorem Scan.TakesIn.ofLead?_of_power_eq_nil (h : TakesIn config source x context more)
    (hkind : x.kind = .exponent)
    (hnil : Tree.withoutSeparators (Radix.unled (x.text.drop 1)) = []) :
    Radix.ofLead? (x.text.drop 1) = some .base64 ∧ 64 ≤ config.maxRadix := by
  have hscanned := h.scanned_exponent hkind
  have hbase := hscanned.base_of_digits_eq_nil (hscanned.digits.trans hnil)
  obtain ⟨s, htop, hstands⟩ := h.exists_stands
  rw [hkind] at hstands
  obtain ⟨-, c, t, m, hrest, hmarker, hlength, hnumber⟩ := View.exists_of_exponent hstands.taken
  have hrest : x.text ++ more = c :: t := hrest
  have hlength : x.text.length = m + 1 := hlength
  obtain ⟨u, htext, rfl⟩ : ∃ u, x.text = c :: u ∧ t = u ++ more := by
    cases hx : x.text with
    | nil => rw [hx] at hlength; cases hlength
    | cons d u =>
      rw [hx] at hrest
      cases hrest
      exact ⟨u, rfl, rfl⟩
  rw [htext, List.drop_succ_cons, List.drop_zero] at hnil hbase hscanned ⊢
  rw [hscanned.base] at hbase
  cases hlead : Radix.ofLead? u with
  | some own =>
    rw [hlead, Option.getD_some] at hbase
    subst hbase
    refine ⟨rfl, ?_⟩
    obtain ⟨d, w, rfl, hletter⟩ := Radix.ofLead?_eq_some hlead
    exact View.value_le_of_numberAt hnumber hletter
  | none =>
    rw [hlead, Option.getD_none] at hbase
    rw [Radix.unled, hlead, Option.isSome_none, if_neg Bool.false_ne_true,
      Tree.withoutSeparators_eq_nil] at hnil
    -- Every letter is a digit of base 64, so the marker is one as well.
    have hdigits : ∀ d ∈ c :: u, (Radix.base64.isDigit d || d == '_') = true := by
      refine List.forall_mem_cons.mpr ⟨?_, fun d hd => by rw [hnil d hd]; decide⟩
      rcases hmarker with rfl | rfl | rfl | rfl <;> decide
    have hmarked : Radix.base64.isDigit c = true ∧ Radix.ofLead? (c :: (u ++ more)) = none := by
      rcases hmarker with rfl | rfl | rfl | rfl <;> exact ⟨by decide, rfl⟩
    have hrun : (c :: u).length ≤ View.digitRun .base64 (c :: (u ++ more)) :=
      length_le_runLength_append hdigits more
    have hcontext : (s.view config (c :: (u ++ more))).context.digitBase = .base64 := by
      rw [← hbase, ← htop]
      rfl
    rw [htext] at hstands
    -- Where an exponent may stand, so may a number.
    have hlegal : TokenKind.number.isLegalIn (s.view config (c :: (u ++ more))).context.kind = true :=
      hstands.legal
    have hmatch : (s.view config (c :: (u ++ more))).matchKind .number =
        .ok (some (View.digitRun .base64 (c :: (u ++ more)))) := by
      show View.numberAt _ s.offset (c :: (u ++ more)) = _
      unfold View.numberAt
      rw [hmarked.2, hcontext]
      dsimp only
      rw [List.head?_cons, Option.any_some, if_pos hmarked.1]
    exact absurd (hstands.lt_of_matchKind hlegal hmatch (by decide) (by decide)) (Nat.not_lt_of_le hrun)

/-- **A fraction is not empty**: its number has digits, or a lead that stays. -/
theorem Scan.TakesIn.withoutSeparators_ne_nil (h : TakesIn config source x context more)
    (hkind : x.kind = .number) : Tree.withoutSeparators x.text ≠ [] := by
  intro hnil
  have hall := Tree.withoutSeparators_eq_nil.mp hnil
  have hunled : Tree.withoutSeparators (Radix.unled x.text) = [] := by
    refine Tree.withoutSeparators_eq_nil.mpr fun c hc => hall c ?_
    unfold Radix.unled at hc
    split at hc
    · exact List.mem_of_mem_drop hc
    · exact hc
  obtain ⟨hlead, -⟩ := h.ofLead?_of_withoutSeparators_eq_nil hkind hunled
  obtain ⟨c, u, htext, -⟩ := Radix.ofLead?_eq_some hlead
  rw [htext] at hall
  exact absurd (hall '0' List.mem_cons_self) (by decide)

end

/-! ## §4 Whole sources -/

namespace Source

/-- **What the digits of a number literal are.** All digits of its whole part and of its power are digits of
their base. Both have digits, unless they are the lead of base 64 with separators behind it, and that base is
allowed. A fraction is not empty, and if neither it nor the whole part has a lead, all its digits are digits
of the base of the whole part. -/
theorem lex_numerals_digits (config : LexerConfig) (s : Source) (l : Lexed)
    (h : s.lex config = .ok l) :
    ∀ n ∈ Tree.numeralsOf l.trees, ∃ context p, n.1.ReadFrom config s.text context n.2 p ∧
      (∀ c ∈ n.1.whole.digits, n.1.whole.base.isDigit c = true) ∧
      (n.1.whole.digits = [] → n.1.whole.base = .base64 ∧
        Radix.ofLead? p.whole.text = some .base64 ∧ 64 ≤ config.maxRadix) ∧
      (∀ e, n.1.exponent = some e → (∀ c ∈ e.power.digits, e.power.base.isDigit c = true) ∧
        (e.power.digits = [] → ∃ x, p.exponent = some x ∧ e.power.base = .base64 ∧
          Radix.ofLead? (x.text.drop 1) = some .base64 ∧ 64 ≤ config.maxRadix)) ∧
      ∀ f x, n.1.fraction = some f → p.fraction = some x → f ≠ [] ∧
        (Radix.ofLead? p.whole.text = none → Radix.ofLead? x.2.text = none →
          ∀ c ∈ f, n.1.whole.base.isDigit c = true) := by
  intro n hn
  obtain ⟨-, out, trees, hout, htrees, rfl⟩ := lex_ok_iff.mp h
  obtain ⟨context, p, hp⟩ := (TokenList.readsOff hout htrees).exists_of_mem hn
  refine ⟨context, p, hp, ?_⟩
  obtain ⟨-, ⟨hkind, more, htakes, hwhole⟩, hfraction, hexponent⟩ := hp
  refine ⟨fun c hc => hwhole.isDigit hc, fun hnil => ?_, fun e he => ?_, fun f x hf hx => ?_⟩
  · exact ⟨hwhole.base_of_digits_eq_nil hnil,
      htakes.ofLead?_of_withoutSeparators_eq_nil hkind (hwhole.digits.symm.trans hnil)⟩
  · rw [he] at hexponent
    generalize p.exponent = found at hexponent ⊢
    cases hexponent with
    | @some _ x hx =>
      obtain ⟨hmarker, _, htaken, hpower⟩ := hx
      refine ⟨fun c hc => hpower.isDigit hc, fun hnil => ⟨x, rfl, ?_⟩⟩
      exact ⟨hpower.base_of_digits_eq_nil hnil,
        htaken.ofLead?_of_power_eq_nil hmarker (hpower.digits.symm.trans hnil)⟩
  · rw [hf, hx] at hfraction
    cases hfraction with
    | some hdigits =>
      obtain ⟨-, hnumber, ⟨_, htaken⟩, rfl⟩ := hdigits
      refine ⟨htaken.withoutSeparators_ne_nil hnumber, fun hlead hlead' c hc => ?_⟩
      -- Without leads both are read in the base of the context.
      have hscanned := htaken.scanned_number hnumber
      have hbase := hwhole.base
      rw [hlead, Option.getD_none] at hbase
      have hc : c ∈ (Tree.integerLit context.digitBase x.2.text).digits := by
        rw [Tree.integerLit, hlead']
        exact hc
      have hdigit := hscanned.isDigit hc
      rw [Tree.integerLit, hlead'] at hdigit
      rw [hbase]
      exact hdigit

/-- A number with separators, a fraction, and a power with a lead. -/
theorem lex_numerals_digits_of_power :
    let s : Source := ⟨['1', '_', '0', '.', '5', '_', 'e', '0', 'x', 'f', '_', 'f'], none⟩
    ∃ l, s.lex default = .ok l ∧ Tree.numeralsOf l.trees =
        [(⟨⟨.decimal, ['1', '0']⟩, some ['5'], some ⟨'e', .hexadecimal, ['f', 'f']⟩⟩, ⟨0, 12⟩)] ∧
      ∀ n ∈ Tree.numeralsOf l.trees, ∃ context p, n.1.ReadFrom default s.text context n.2 p ∧
        (∀ c ∈ n.1.whole.digits, n.1.whole.base.isDigit c = true) ∧
        (n.1.whole.digits = [] → n.1.whole.base = .base64 ∧
          Radix.ofLead? p.whole.text = some .base64 ∧ 64 ≤ LexerConfig.maxRadix default) ∧
        (∀ e, n.1.exponent = some e → (∀ c ∈ e.power.digits, e.power.base.isDigit c = true) ∧
          (e.power.digits = [] → ∃ x, p.exponent = some x ∧ e.power.base = .base64 ∧
            Radix.ofLead? (x.text.drop 1) = some .base64 ∧ 64 ≤ LexerConfig.maxRadix default)) ∧
        ∀ f x, n.1.fraction = some f → p.fraction = some x → f ≠ [] ∧
          (Radix.ofLead? p.whole.text = none → Radix.ofLead? x.2.text = none →
            ∀ c ∈ f, n.1.whole.base.isDigit c = true) := by
  intro s
  have hrun : (s.lex default).toOption.map (fun l => Tree.numeralsOf l.trees) =
      some [(⟨⟨.decimal, ['1', '0']⟩, some ['5'], some ⟨'e', .hexadecimal, ['f', 'f']⟩⟩, ⟨0, 12⟩)] := by
    decide +kernel
  obtain ⟨l, hl, hnumerals⟩ := Option.map_eq_some_iff.mp hrun
  have hl := toOption_eq_some_iff.mp hl
  exact ⟨l, hl, hnumerals, lex_numerals_digits default s l hl⟩

/-- **The fraction of a number may hold a letter that is no digit**: behind a decimal whole part and a dot,
the lead of `0d5` stays in the fraction. -/
theorem exists_numeral_not_wellFormed :
    ¬ ∀ (config : LexerConfig) (s : Source) (l : Lexed), s.lex config = .ok l →
      ∀ n ∈ Tree.numeralsOf l.trees, n.1.WellFormed := by
  intro hall
  have hrun : ((Source.mk ['1', '.', '0', 'd', '5'] none).lex default).toOption.map
      (fun l => Tree.numeralsOf l.trees) =
      some [(⟨⟨.decimal, ['1']⟩, some ['0', 'd', '5'], none⟩, ⟨0, 5⟩)] := by decide +kernel
  obtain ⟨l, hl, hnumerals⟩ := Option.map_eq_some_iff.mp hrun
  have hwell := hall default _ l (toOption_eq_some_iff.mp hl) _ (hnumerals ▸ List.mem_cons_self)
  exact absurd ((hwell.fraction _ rfl).2 'd' (by decide)) (by decide)

end Source

end DewyFront
