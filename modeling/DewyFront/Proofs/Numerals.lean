/-
# DewyFront.Proofs.Numerals — number literals and the parts that they are put together from

A number literal is put together from a number token, from the dot and the number that may stand behind
it as a fraction, and from an exponent. Where its digits without a lead are read in the base of the
context in which a scan takes them, each of its integers has the base in which the scan takes its digits.

* §1 the number literals of items;
* §2 digits as a scan takes them;
* §3 what a literal is read from;
* §4 one number.
-/
import DewyFront.Proofs.Standing
import Mathlib.Data.List.Forall2

namespace DewyFront

/-! ## §1 Literals -/

/-- The number that an atom is; an integer has neither a fraction nor an exponent. -/
def Atom.numeral? : Atom → Option RealLit
  | .integer whole => some ⟨whole, none, none⟩
  | .real literal => some literal
  | _ => none

mutual
/-- **`Tree.numerals`** — the number literals of an item at any depth, in order, and where they stand. -/
def Tree.numerals : Tree → List (RealLit × Span)
  | .leaf (.atom atom) span => (atom.numeral?.map (·, span)).toList
  | .leaf _ _ => []
  | .block _ _ inner _ => numeralsOf inner
  | .istring pieces _ => pieceNumerals pieces
/-- The number literals of several items. -/
def Tree.numeralsOf : List Tree → List (RealLit × Span)
  | [] => []
  | tree :: trees => tree.numerals ++ numeralsOf trees
/-- The number literals in the holes of a string. -/
def Tree.pieceNumerals : List Tree.Piece → List (RealLit × Span)
  | [] => []
  | .text _ :: pieces => pieceNumerals pieces
  | .block _ _ inner :: pieces | .escape _ _ inner :: pieces =>
    numeralsOf inner ++ pieceNumerals pieces
end

namespace Tree

theorem pieceNumerals_append (xs ys : List Piece) :
    pieceNumerals (xs ++ ys) = pieceNumerals xs ++ pieceNumerals ys := by
  induction xs with
  | nil => rfl
  | cons x xs ih => cases x <;> simp [pieceNumerals, ih]

@[simp] theorem pieceNumerals_textPiece (t : Text) : pieceNumerals (textPiece t) = [] := by
  unfold textPiece
  split <;> rfl

/-- Putting texts together keeps the holes. -/
theorem pieceNumerals_joinTexts (pieces : List Piece) :
    pieceNumerals (joinTexts pieces).2 = pieceNumerals pieces := by
  induction pieces with
  | nil => rfl
  | cons piece pieces ih =>
    cases piece with
    | text t => exact ih
    | block | escape => simp [joinTexts, pieceNumerals, pieceNumerals_append, ih]

theorem numerals_ofPieces (pieces : List Piece) (span : Span) :
    (ofPieces pieces span).numerals = pieceNumerals pieces := by
  rw [← pieceNumerals_joinTexts]
  unfold ofPieces
  split
  · next heq =>
    rw [heq]
    rfl
  · next heq =>
    rw [heq, numerals, pieceNumerals_append, pieceNumerals_textPiece, List.nil_append]

end Tree

/-! ## §2 Digits -/

/-- The digits of a number, behind its lead if it has one. -/
def Radix.unled (t : Text) : Text := if (Radix.ofLead? t).isSome then t.drop 2 else t

/-- **`IntegerLit.Scanned`** — a literal is read from a number in the base in which a scan takes its
digits, with more text behind them: the base of its lead, or else that of the context. -/
structure IntegerLit.Scanned (i : IntegerLit) (context : Context) (t more : Text) : Prop where
  base : i.base = (Radix.ofLead? t).getD context.digitBase
  head : (Radix.unled t).head?.any i.base.isDigit = true
  run : View.digitRun i.base (Radix.unled t ++ more) = (Radix.unled t).length
  digits : i.digits = Tree.withoutSeparators (Radix.unled t)

theorem Tree.integerLit_eq (base : Radix) (t : Text) : Tree.integerLit base t =
    ⟨(Radix.ofLead? t).getD base, Tree.withoutSeparators (Radix.unled t)⟩ := by
  unfold Tree.integerLit Radix.unled
  cases Radix.ofLead? t <;> rfl

theorem Radix.ofLead?_eq_some {t : Text} {base : Radix} (h : Radix.ofLead? t = some base) :
    ∃ c u, t = '0' :: c :: u ∧ Radix.ofLetter? c = some base := by
  unfold Radix.ofLead? at h
  split at h
  · next c u => exact ⟨c, u, rfl, h⟩
  · cases h

/-- The front of a text without a lead has none. -/
theorem Radix.ofLead?_take_eq_none {t : Text} (h : Radix.ofLead? t = none) (n : Nat) :
    Radix.ofLead? (t.take n) = none := by
  rw [Option.eq_none_iff_forall_ne_some]
  intro base hbase
  obtain ⟨c, u, htake, hletter⟩ := ofLead?_eq_some hbase
  rw [← List.take_append_drop n t, htake] at h
  exact absurd (hletter.symm.trans h) (Option.some_ne_none base)

/-- A literal is read in the base of the run that its digits are. -/
theorem Tree.scanned_of_run {context : Context} {base : Radix} {t more digits : Text}
    (hbase : (Radix.ofLead? t).getD context.digitBase = base)
    (hhead : digits.head?.any base.isDigit = true)
    (hunled : Radix.unled t = digits.take (View.digitRun base digits))
    (hmore : more = digits.drop (View.digitRun base digits)) :
    (integerLit context.digitBase t).Scanned context t more := by
  have hle := View.digitRun_le base digits
  have hpos := Nat.ne_of_gt (View.digitRun_pos hhead)
  rw [integerLit_eq, hbase]
  refine ⟨hbase.symm, ?_, ?_, rfl⟩
  · rw [hunled, List.head?_take, if_neg hpos]
    exact hhead
  · rw [hunled, hmore, List.take_append_drop, List.length_take, Nat.min_eq_left hle]

/-- **The digits that a matcher takes are read in the base that it takes them in.** -/
theorem View.scanned_of_numberAt {v : View} {start n : Nat} {t : Text}
    (h : v.numberAt start t = .ok (some n)) :
    (Tree.integerLit v.context.digitBase (t.take n)).Scanned v.context (t.take n) (t.drop n) := by
  obtain ⟨base, hlead, hhead, -, rfl⟩ | ⟨hlead, hhead, rfl⟩ := View.cases_of_numberAt h
  · obtain ⟨c, u, rfl, hletter⟩ := Radix.ofLead?_eq_some hlead
    -- Two characters of lead are taken, and the run behind them.
    rw [List.drop_succ_cons, List.drop_succ_cons, List.drop_zero] at hhead ⊢
    rw [Nat.add_comm 2]
    have htake : Radix.ofLead? (('0' :: c :: u).take (digitRun base u + 2)) = some base := hletter
    refine Tree.scanned_of_run (by rw [htake]; rfl) hhead ?_ rfl
    rw [Radix.unled, htake]
    rfl
  · have htake := Radix.ofLead?_take_eq_none hlead (digitRun v.context.digitBase t)
    refine Tree.scanned_of_run (by rw [htake]; rfl) hhead ?_ rfl
    rw [Radix.unled, htake]
    rfl

/-- **So are those of an exponent**, behind its marker. -/
theorem View.scanned_of_exponent {v : View} {n : Nat} {t : Text} (h : v.exponent = .ok (some n))
    (ht : v.rest = t) : (Tree.integerLit v.context.digitBase ((t.take n).drop 1)).Scanned v.context
      ((t.take n).drop 1) (t.drop n) := by
  obtain ⟨-, c, u, m, hrest, -, rfl, hnumber⟩ := exists_of_exponent h
  rw [← ht, hrest]
  exact scanned_of_numberAt hnumber

/-! ## §3 Parts -/

/-- Kinds of tokens that hold the digits of a number. -/
def TokenKind.isNumeral : TokenKind → Bool
  | number | exponent => true
  | _ => false

/-- **`RealLit.Parts`** — the lexemes of a number: its whole part, the dot and the digits of a fraction,
and an exponent. -/
structure RealLit.Parts where
  whole : Lexeme
  fraction : Option (Lexeme × Lexeme)
  exponent : Option Lexeme

/-- All lexemes of a number, in order. -/
def RealLit.Parts.lexemes (p : Parts) : List Lexeme :=
  p.whole :: (p.fraction.elim [] (fun f => [f.1, f.2]) ++ p.exponent.toList)

/-- **`RealLit.Built`** — a number is put together from its parts, with the digits without a lead read in
some base. -/
structure RealLit.Built (base : Radix) (r : RealLit) (p : Parts) : Prop where
  whole : p.whole.kind = .number ∧ r.whole = Tree.integerLit base p.whole.text
  fraction : Option.Rel (fun digits f => f.1.isDot = true ∧ f.2.kind = .number ∧
    digits = Tree.withoutSeparators f.2.text) r.fraction p.fraction
  exponent : Option.Rel (fun e x => x.kind = .exponent ∧
    e.power = Tree.integerLit base (x.text.drop 1)) r.exponent p.exponent

/-- **`RealLit.ReadFrom`** — a number stands where its parts do, and a scan takes each of them in the same
context. The whole part and the power of the exponent have the base in which the scan takes their
digits. -/
structure RealLit.ReadFrom (config : LexerConfig) (source : Text) (context : Context) (r : RealLit)
    (span : Span) (p : Parts) : Prop where
  tiles : Span.Tiles span.start span.stop (p.lexemes.map (·.span))
  whole : p.whole.kind = .number ∧ ∃ more, Scan.TakesIn config source p.whole context more ∧
    r.whole.Scanned context p.whole.text more
  fraction : Option.Rel (fun digits f => f.1.isDot = true ∧ f.2.kind = .number ∧
    (∃ more, Scan.TakesIn config source f.2 context more) ∧
    digits = Tree.withoutSeparators f.2.text) r.fraction p.fraction
  exponent : Option.Rel (fun e x => x.kind = .exponent ∧
    ∃ more, Scan.TakesIn config source x context more ∧
      e.power.Scanned context (x.text.drop 1) more) r.exponent p.exponent

section

variable {config : LexerConfig} {source more : Text} {x : Lexeme} {context : Context} {r : RealLit}
  {p : RealLit.Parts} {base : Radix} {span : Span}

/-- The digits of a number are read in the base in which a scan takes them. -/
theorem Scan.TakesIn.scanned_number (h : TakesIn config source x context more)
    (hkind : x.kind = .number) :
    (Tree.integerLit context.digitBase x.text).Scanned context x.text more := by
  obtain ⟨s, htop, hstands⟩ := h.exists_stands
  have hmatch := hstands.taken
  rw [hkind] at hmatch
  have hcontext : (s.view config (x.text ++ more)).context = context := htop
  have hscanned := View.scanned_of_numberAt (t := x.text ++ more) hmatch
  rw [hcontext, List.take_left, List.drop_left] at hscanned
  exact hscanned

/-- So are those of an exponent. -/
theorem Scan.TakesIn.scanned_exponent (h : TakesIn config source x context more)
    (hkind : x.kind = .exponent) :
    (Tree.integerLit context.digitBase (x.text.drop 1)).Scanned context (x.text.drop 1) more := by
  obtain ⟨s, htop, hstands⟩ := h.exists_stands
  have hmatch := hstands.taken
  rw [hkind] at hmatch
  have hcontext : (s.view config (x.text ++ more)).context = context := htop
  have hscanned := View.scanned_of_exponent (t := x.text ++ more) hmatch rfl
  rw [hcontext, List.take_left, List.drop_left] at hscanned
  exact hscanned

/-- **A number that is put together in the base of a context is read from parts that are taken there.** -/
theorem RealLit.Built.readFrom (h : r.Built context.digitBase p)
    (htakes : ∀ x ∈ p.lexemes, ∃ more, Scan.TakesIn config source x context more)
    (htiles : Span.Tiles span.start span.stop (p.lexemes.map (·.span))) :
    r.ReadFrom config source context span p := by
  obtain ⟨whole, fraction, exponent⟩ := p
  obtain ⟨integer, digits, e⟩ := r
  obtain ⟨⟨hkind, hwhole⟩, hfraction, hexponent⟩ := h
  refine ⟨htiles, ⟨hkind, ?_⟩, ?_, ?_⟩
  · obtain ⟨more, hmore⟩ := htakes whole List.mem_cons_self
    exact ⟨more, hmore, hwhole ▸ hmore.scanned_number hkind⟩
  · cases hfraction with
    | none => exact .none
    | @some _ f hf => exact .some ⟨hf.1, hf.2.1, htakes f.2 (by simp [Parts.lexemes]), hf.2.2⟩
  · cases hexponent with
    | none => exact .none
    | @some _ x hx =>
      obtain ⟨more, hmore⟩ := htakes x (by simp [Parts.lexemes])
      exact .some ⟨hx.1, more, hmore, hx.2 ▸ hmore.scanned_exponent hx.1⟩

/-- The parts of a number neither begin nor end a context. -/
theorem RealLit.Built.plain (h : r.Built base p) :
    ∀ x ∈ p.lexemes, x.kind.isOpener = false ∧ x.kind.isCloser = false := by
  obtain ⟨whole, fraction, exponent⟩ := p
  obtain ⟨integer, digits, e⟩ := r
  obtain ⟨⟨hwhole, -⟩, hfraction, hexponent⟩ := h
  refine List.forall_mem_cons.mpr ⟨by rw [hwhole]; decide, List.forall_mem_append.mpr ⟨?_, ?_⟩⟩
  · cases hfraction with
    | none => exact fun x hx => absurd hx List.not_mem_nil
    | @some _ f hf =>
      have hdot := hf.1
      simp only [Lexeme.isDot, Bool.and_eq_true, beq_iff_eq] at hdot
      refine List.forall_mem_cons.mpr ⟨by rw [hdot.1]; decide, ?_⟩
      exact List.forall_mem_singleton.mpr (by rw [hf.2.1]; decide)
  · cases hexponent with
    | none => exact fun x hx => absurd hx List.not_mem_nil
    | some hx => exact List.forall_mem_singleton.mpr (by rw [hx.1]; decide)

end

/-! ## §4 One number -/

namespace Tree

variable {base : Radix} {before : Option Lexeme} {l : Lexeme} {rest back : List Lexeme}
  {digits : Text} {span : Span} {e : Exponent}

theorem eq_of_fraction? (h : fraction? before l rest = some (digits, span, back)) :
    ∃ dot x, rest = dot :: x :: back ∧ dot.isDot = true ∧ x.kind = .number ∧
      digits = withoutSeparators x.text := by
  unfold fraction? at h
  split at h
  · next dot x more =>
    split at h
    · next hcond =>
      cases h
      simp only [Bool.and_eq_true, beq_iff_eq] at hcond
      exact ⟨dot, x, rfl, hcond.1.1.1.2, hcond.1.1.2, rfl⟩
    · cases h
  · cases h

theorem eq_of_exponent? (h : exponent? base rest = some (e, span, back)) :
    ∃ x, rest = x :: back ∧ x.kind = .exponent ∧ e.power = integerLit base (x.text.drop 1) := by
  unfold exponent? at h
  split at h
  · next x more =>
    split at h
    · next hkind =>
      cases h
      exact ⟨x, rfl, eq_of_beq hkind, rfl⟩
    · cases h
  · cases h

/-- **A number is put together from the lexemes that it takes.** -/
theorem exists_parts (base : Radix) (before : Option Lexeme) (rest : List Lexeme)
    (hkind : l.kind = .number) :
    ∃ atom r, ∃ p : RealLit.Parts, ∃ span back,
      number base before l rest = (.leaf (.atom atom) span, back) ∧ atom.numeral? = some r ∧
      r.Built base p ∧ p.lexemes ++ back = l :: rest := by
  have hwhole : l.kind = .number ∧ integerLit base l.text = integerLit base l.text := ⟨hkind, rfl⟩
  unfold number
  cases hfraction : fraction? before l rest with
  | none =>
    dsimp only
    cases hexponent : exponent? base rest with
    | none =>
      exact ⟨_, _, ⟨l, none, none⟩, _, _, rfl, rfl, ⟨hwhole, .none, .none⟩, rfl⟩
    | some found =>
      obtain ⟨e, span, back⟩ := found
      obtain ⟨x, rfl, hx⟩ := eq_of_exponent? hexponent
      exact ⟨_, _, ⟨l, none, some x⟩, _, _, rfl, rfl, ⟨hwhole, .none, .some hx⟩, rfl⟩
  | some found =>
    obtain ⟨digits, span, middle⟩ := found
    obtain ⟨dot, y, rfl, hy⟩ := eq_of_fraction? hfraction
    dsimp only
    cases hexponent : exponent? base middle with
    | none =>
      exact ⟨_, _, ⟨l, some (dot, y), none⟩, _, _, rfl, rfl, ⟨hwhole, .some hy, .none⟩, rfl⟩
    | some found =>
      obtain ⟨e, span', back⟩ := found
      obtain ⟨x, rfl, hx⟩ := eq_of_exponent? hexponent
      exact ⟨_, _, ⟨l, some (dot, y), some x⟩, _, _, rfl, rfl, ⟨hwhole, .some hy, .some hx⟩, rfl⟩

end Tree

end DewyFront
