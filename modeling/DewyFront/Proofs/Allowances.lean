/-
# DewyFront.Proofs.Allowances — greater limits refuse less, and change nothing else

A limit is looked at in three places: where a number has its base written out, where copies of a list
are merged, and where their readings are collected. Each time it can only refuse. So what is found under
some limits is found under greater ones, in every stage and in the whole.

* §1 outcomes that keep a result;
* §2 lexing;
* §3 reducing;
* §4 parsing.
-/
import DewyFront.Proofs.Outcomes
import DewyFront.Source.Parsed

namespace DewyFront

/-! ## §1 Outcomes -/

/-- **`Retains x y`** — the result that `x` has, `y` has too. -/
def Retains {ε α : Type} (x y : Except ε α) : Prop := ∀ a, x = .ok a → y = .ok a

namespace Retains

variable {ε δ α β γ : Type} {x y : Except ε α}

theorem refl (x : Except ε α) : Retains x x := fun _ h => h

theorem error (e : ε) : Retains (.error e) y := fun _ h => nomatch h

theorem bind {g g' : α → Except ε β} (h : Retains x y) (hg : ∀ a, Retains (g a) (g' a)) :
    Retains (x >>= g) (y >>= g') := by
  intro b hb
  obtain ⟨a, hx, ha⟩ := bind_ok_iff.mp hb
  exact bind_ok_iff.mpr ⟨a, h a hx, hg a b ha⟩

theorem map (h : Retains x y) (g : α → β) : Retains (x.map g) (y.map g) := by
  intro b hb
  obtain ⟨a, hx, rfl⟩ := map_ok_iff.mp hb
  exact map_ok_iff.mpr ⟨a, h a hx, rfl⟩

theorem mapError (h : Retains x y) (g : ε → δ) : Retains (x.mapError g) (y.mapError g) :=
  fun a ha => mapError_ok_iff.mpr (h a (mapError_ok_iff.mp ha))

theorem foldlM {step step' : α → γ → Except ε α} (h : ∀ a c, Retains (step a c) (step' a c))
    (cs : List γ) (a : α) : Retains (cs.foldlM step a) (cs.foldlM step' a) := by
  induction cs generalizing a with
  | nil => exact refl _
  | cons c cs ih =>
    rw [List.foldlM_cons, List.foldlM_cons]
    exact (h a c).bind ih

end Retains

/-! ## §2 Lexing -/

section Lexing

variable {small great : LexerConfig}

namespace View

variable {start : Nat} {context : Context} {previous : Option TokenKind} {rest : Text}

/-- Only a base above the limit is refused, and the length of a number is not a matter of the limit. -/
theorem numberAt_retains (h : small.maxRadix ≤ great.maxRadix) (place : Nat) (t : Text) :
    Retains (numberAt ⟨small, start, context, previous, rest⟩ place t)
      (numberAt ⟨great, start, context, previous, rest⟩ place t) := by
  unfold numberAt
  cases Radix.ofLead? t with
  | none => exact .refl _
  | some base =>
    dsimp only
    split
    · by_cases hsmall : small.maxRadix < base.value
      · rw [if_pos hsmall]
        exact .error _
      · rw [if_neg hsmall, if_neg (by omega : ¬great.maxRadix < base.value)]
        exact .refl _
    · exact .refl _

theorem exponent_retains (h : small.maxRadix ≤ great.maxRadix) :
    Retains (exponent ⟨small, start, context, previous, rest⟩)
      (exponent ⟨great, start, context, previous, rest⟩) := by
  unfold exponent
  dsimp only
  split
  · split
    · exact (numberAt_retains h _ _).map _
    · exact .refl _
  · exact .refl _

/-- **No kind matches otherwise under a greater limit.** -/
theorem matchKind_retains (h : small.maxRadix ≤ great.maxRadix) (kind : TokenKind) :
    Retains (matchKind ⟨small, start, context, previous, rest⟩ kind)
      (matchKind ⟨great, start, context, previous, rest⟩ kind) := by
  cases kind with
  | number => exact numberAt_retains h _ _
  | exponent => exact exponent_retains h
  | _ => exact .refl _

theorem matchesOf_retains (h : small.maxRadix ≤ great.maxRadix) (kinds : List TokenKind) :
    Retains (matchesOf ⟨small, start, context, previous, rest⟩ kinds)
      (matchesOf ⟨great, start, context, previous, rest⟩ kinds) := by
  induction kinds with
  | nil => exact .refl _
  | cons kind kinds ih =>
    rw [matchesOf, matchesOf]
    exact (matchKind_retains h kind).bind fun _ => ih.bind fun _ => .refl _

end View

/-- One step takes the same token. -/
theorem Scan.step_retains (h : small.maxRadix ≤ great.maxRadix) (s : Scan) (rest : Text) :
    Retains (s.step small rest) (s.step great rest) :=
  ((View.matchesOf_retains h _).mapError _).bind fun _ => .refl _

theorem Scan.run_retains (h : small.maxRadix ≤ great.maxRadix) (s : Scan) (t : Text) :
    Retains (s.run small t) (s.run great t) := by
  -- By the run under the smaller limit: a step that is taken there is taken under the greater one.
  induction s, t using Scan.run.induct small with
  | case1 s => rw [run, run]; exact .refl _
  | case2 s c t next taken hstep ih =>
    rw [run, run, hstep, step_retains h s (c :: t) _ hstep]
    exact ih
  | case3 s c t cause hstep =>
    rw [run, hstep]
    exact .error _
  | case4 s c t broken hstep =>
    rw [run, hstep]
    exact .error _

theorem Source.lex_retains (h : small.maxRadix ≤ great.maxRadix) (s : Source) :
    Retains (s.lex small) (s.lex great) := by
  unfold lex
  split
  · exact ((Scan.run_retains h .start s.text).mapError _).bind fun _ => .refl _
  · exact .refl _

end Lexing

/-! ## §3 Reducing -/

section Reducing

variable {small great : Nat}

namespace Reading

/-- Whether copies are merged, and to what, is not a matter of the limit. -/
theorem merge_retains (h : small ≤ great) (site : Span) (copies : List (List Slot)) :
    Retains (merge small site copies) (merge great site copies) := by
  unfold merge
  split
  · exact .refl _
  · split
    · exact .refl _
    · split
      · exact .refl _
      · split
        · exact .refl _
        · -- The only branch that looks at the limit: the candidates are the same, and may be too many.
          dsimp only
          split
          · exact .error _
          · rw [if_neg (by omega)]
            exact .refl _
      · exact .refl _

theorem readingsFor_retains (h : small ≤ great) (n : Nat) (slots : List Slot) :
    Retains (readingsFor small n slots) (readingsFor great n slots) := by
  induction n generalizing slots with
  | zero => exact .refl _
  | succ n ih =>
    rw [readingsFor, readingsFor]
    refine (Retains.refl _).bind fun ended => ?_
    split
    · exact .refl _
    · refine (Retains.refl _).bind fun forked => (Retains.refl _).bind fun copies =>
        (merge_retains h forked.site copies).bind fun merged => ?_
      cases merged with
      | some merged => exact ih merged
      | none =>
        refine Retains.foldlM (fun found copy => (ih copy).bind fun more => ?_) copies []
        dsimp only
        split
        · exact .error _
        · rw [if_neg (by omega)]
          exact .refl _

theorem reduce_retains (h : small ≤ great) (span : Span) (slots : List Slot) :
    Retains (reduce small span slots) (reduce great span slots) :=
  (readingsFor_retains h _ slots).bind fun _ => .refl _

end Reading

namespace Expr

theorem assemble_retains (h : small ≤ great) (chain : Chain)
    {slots slots' : Except (Failure ParseError) (List Slot)} (hslots : Retains slots slots') :
    Retains (assemble small chain slots) (assemble great chain slots') :=
  (Retains.refl _).bind fun span => hslots.bind fun slots => Reading.reduce_retains h span slots

mutual
theorem slotsOf_retains (h : small ≤ great) :
    ∀ chain : List Chain.Link, Retains (slotsOf small chain) (slotsOf great chain)
  | [] => by rw [slotsOf, slotsOf]; exact .refl _
  | .operator o :: rest => by
    rw [slotsOf, slotsOf]
    exact (slotsOf_retains h rest).bind fun _ => .refl _
  | .operand content span :: rest => by
    rw [slotsOf, slotsOf]
    exact (ofOperand_retains h span content).bind fun _ => (slotsOf_retains h rest).bind fun _ => .refl _
theorem ofOperand_retains (h : small ≤ great) (span : Span) :
    ∀ content : Chain.Operand, Retains (ofOperand small span content) (ofOperand great span content)
  | .atom _ | .keyword _ none => by rw [ofOperand, ofOperand]; exact .refl _
  | .block _ _ inner | .escape inner => by
    rw [ofOperand, ofOperand]
    exact (ofChains_retains h inner).bind fun _ => .refl _
  | .istring pieces => by
    rw [ofOperand, ofOperand]
    exact (piecesOf_retains h pieces).bind fun _ => .refl _
  | .flow arms none => by
    rw [ofOperand, ofOperand]
    exact (armsOf_retains h arms).bind fun _ => .refl _
  | .flow arms (some otherwise) => by
    rw [ofOperand, ofOperand]
    exact (armsOf_retains h arms).bind fun _ =>
      (assemble_retains h otherwise (slotsOf_retains h otherwise)).bind fun _ => .refl _
  | .declare _ target => by
    rw [ofOperand, ofOperand]
    exact (assemble_retains h target (slotsOf_retains h target)).bind fun _ => .refl _
  | .keyword _ (some operand) => by
    rw [ofOperand, ofOperand]
    exact (assemble_retains h operand (slotsOf_retains h operand)).bind fun _ => .refl _
theorem ofChains_retains (h : small ≤ great) :
    ∀ chains : List (List Chain.Link), Retains (ofChains small chains) (ofChains great chains)
  | [] => by rw [ofChains, ofChains]; exact .refl _
  | chain :: chains => by
    rw [ofChains, ofChains]
    exact (assemble_retains h chain (slotsOf_retains h chain)).bind fun _ =>
      (ofChains_retains h chains).bind fun _ => .refl _
theorem piecesOf_retains (h : small ≤ great) :
    ∀ pieces : List Chain.Piece, Retains (piecesOf small pieces) (piecesOf great pieces)
  | [] => by rw [piecesOf, piecesOf]; exact .refl _
  | .text _ :: rest => by
    rw [piecesOf, piecesOf]
    exact (piecesOf_retains h rest).bind fun _ => .refl _
  | .hole content span :: rest => by
    rw [piecesOf, piecesOf]
    exact (ofOperand_retains h span content).bind fun _ => (piecesOf_retains h rest).bind fun _ => .refl _
theorem armsOf_retains (h : small ≤ great) :
    ∀ arms : List Chain.Arm, Retains (armsOf small arms) (armsOf great arms)
  | [] => by rw [armsOf, armsOf]; exact .refl _
  | .mk _ condition clause :: rest => by
    rw [armsOf, armsOf]
    exact (assemble_retains h condition (slotsOf_retains h condition)).bind fun _ =>
      (assemble_retains h clause (slotsOf_retains h clause)).bind fun _ =>
        (armsOf_retains h rest).bind fun _ => .refl _
end

end Expr

end Reducing

/-! ## §4 Parsing -/

variable {small great : ParseConfig}

/-- A chain that is reduced under a limit is reduced to the same under a greater one. -/
theorem Expr.ofChain_retains (h : small.maxReadings ≤ great.maxReadings) (chain : Chain) :
    Retains (Expr.ofChain small chain) (Expr.ofChain great chain) :=
  assemble_retains h chain (slotsOf_retains h chain)

theorem combine_retains {ε α : Type} {x y : Except (Failure ε) α}
    {xs ys : Except (Failure (List ε)) (List α)} (h : Retains x y) (hs : Retains xs ys) :
    Retains (combine x xs) (combine y ys) := by
  intro es hes
  rcases x with (cause | b) | a
  · rcases xs with (causes | b') | as <;> cases hes
  · cases hes
  · rcases xs with failure | as
    · cases hes
    · rw [h a rfl, hs as rfl]
      exact hes

theorem Expr.ofAll_retains (h : small.maxReadings ≤ great.maxReadings) (chains : List Chain) :
    Retains (Expr.ofAll small chains) (Expr.ofAll great chains) := by
  induction chains with
  | nil => exact .refl _
  | cons chain chains ih => exact combine_retains (Expr.ofChain_retains h chain) ih

/-- **Limits only refuse.** A source that is parsed under some limits is parsed to the same under greater
ones. -/
theorem Source.parse_of_greater_limits (hradix : small.lexer.maxRadix ≤ great.lexer.maxRadix)
    (hreadings : small.maxReadings ≤ great.maxReadings) {s : Source} {p : Parsed}
    (h : s.parse small = .ok p) : s.parse great = .ok p := by
  have hparse : Retains (s.parse small) (s.parse great) :=
    (lex_retains hradix s).bind fun lexed => (Retains.refl _).bind fun chains =>
      ((Expr.ofAll_retains hreadings chains).mapError _).bind fun _ => .refl _
  exact hparse p h

/-- A call that is raised to a power or multiplied by one, under two readings and bases up to sixteen;
under one reading, or under bases up to fifteen, it is refused. -/
theorem Source.parse_of_greater_limits_of_power :
    let s : Source := ⟨['f', '(', 'x', ')', '^', '0', 'x', '1', 'f'], none⟩
    ∃ p, s.parse ⟨2, ⟨16⟩⟩ = .ok p ∧ p.items.length = 1 ∧ s.parse ⟨64, ⟨36⟩⟩ = .ok p ∧
      (s.parse ⟨1, ⟨16⟩⟩).toOption.isNone = true ∧ (s.parse ⟨2, ⟨15⟩⟩).toOption.isNone = true := by
  intro s
  have hone : (s.parse ⟨2, ⟨16⟩⟩).toOption.map (·.items.length) = some 1 := by decide +kernel
  obtain ⟨p, hp, hlength⟩ := Option.map_eq_some_iff.mp hone
  have hp := toOption_eq_some_iff.mp hp
  exact ⟨p, hp, hlength, parse_of_greater_limits (by decide) (by decide) hp, by decide +kernel,
    by decide +kernel⟩

end DewyFront
