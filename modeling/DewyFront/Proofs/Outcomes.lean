/-
# DewyFront.Proofs.Outcomes — how a stage ends, told from how its steps end

A stage ends with a result, a refusal or a fault, and so does each of its steps. What a stage ends
with comes from one of the steps.

* §1 results;
* §2 outcomes that are no faults;
* §3 refusals;
* §4 two outcomes side by side;
* §5 causes with the same code.
-/
import DewyFront.Failure
import DewyFront.LexError

namespace DewyFront

/-! ## §1 Results -/

/-- A step of a stage gives a result only if the one before it does. -/
theorem bind_ok_iff {ε α β : Type} {x : Except ε α} {g : α → Except ε β} {b : β} :
    (x >>= g) = .ok b ↔ ∃ a, x = .ok a ∧ g a = .ok b := by
  cases x with
  | error e => simp [bind, Except.bind]
  | ok a => simp [bind, Except.bind]

theorem map_ok_iff {ε α β : Type} {x : Except ε α} {g : α → β} {b : β} :
    x.map g = .ok b ↔ ∃ a, x = .ok a ∧ g a = b := by
  cases x with
  | error e => simp [Except.map]
  | ok a => simp [Except.map]

theorem mapError_ok_iff {ε δ α : Type} {f : ε → δ} {x : Except ε α} {a : α} :
    x.mapError f = .ok a ↔ x = .ok a := by
  cases x with
  | error e => constructor <;> intro h <;> cases h
  | ok b => constructor <;> intro h <;> cases h <;> rfl

theorem toOption_eq_some_iff {ε α : Type} {x : Except ε α} {a : α} :
    x.toOption = some a ↔ x = .ok a := by
  cases x with
  | error e => simp [Except.toOption]
  | ok b => simp [Except.toOption]

theorem exists_ok_of_isSome {ε α : Type} {x : Except ε α} (h : x.toOption.isSome = true) :
    ∃ a, x = .ok a := by
  obtain ⟨a, ha⟩ := Option.isSome_iff_exists.mp h
  exact ⟨a, toOption_eq_some_iff.mp ha⟩

/-! ## §2 Faults -/

/-- **`Faultless`** — an outcome is a result or a refusal, and no fault. -/
def Faultless {ε α : Type} (x : Except (Failure ε) α) : Prop := ∀ f, x ≠ .error (.broken f)

namespace Faultless

variable {ε α β : Type}

theorem ok (a : α) : Faultless (.ok a : Except (Failure ε) α) := fun _ h => by cases h

theorem refuse (cause : ε) : Faultless (DewyFront.refuse cause : Except (Failure ε) α) :=
  fun _ h => by cases h

theorem bind {x : Except (Failure ε) α} {g : α → Except (Failure ε) β} (hx : Faultless x)
    (hg : ∀ a, x = .ok a → Faultless (g a)) : Faultless (x >>= g) := by
  intro f h
  cases x with
  | error failure =>
    cases failure with
    | refused cause => cases h
    | broken fault => exact hx fault rfl
  | ok a => exact hg a rfl f h

theorem map {x : Except (Failure ε) α} (hx : Faultless x) (g : α → β) : Faultless (x.map g) := by
  intro f h
  cases x with
  | error failure =>
    cases failure with
    | refused cause => cases h
    | broken fault => exact hx fault rfl
  | ok a => cases h

end Faultless

/-! ## §3 Refusals -/

section

variable {ε α β : Type} {x : Except (Failure ε) α} {cause : ε}

theorem bind_refuse_iff {g : α → Except (Failure ε) β} :
    x >>= g = refuse cause ↔ x = refuse cause ∨ ∃ a, x = .ok a ∧ g a = refuse cause := by
  cases x with
  | error f => simp [bind, Except.bind, refuse]
  | ok a => simp [bind, Except.bind, refuse]

theorem map_refuse_iff {g : α → β} : x.map g = refuse cause ↔ x = refuse cause := by
  cases x with
  | error f => simp [Except.map, refuse]
  | ok a => simp [Except.map, refuse]

/-- What ends in no fault has a result or is refused. -/
theorem ok_or_refuse_of_faultless (h : Faultless x) :
    (∃ a, x = .ok a) ∨ ∃ cause, x = refuse cause := by
  cases x with
  | ok a => exact .inl ⟨a, rfl⟩
  | error f =>
    cases f with
    | refused cause => exact .inr ⟨cause, rfl⟩
    | broken fault => exact absurd rfl (h fault)

end

/-! ## §4 Two outcomes -/

/-- **`Related`** — two outcomes are both results, which `R` relates, or both failures, which `E`
relates. -/
inductive Related {ε δ α β : Type} (E : ε → δ → Prop) (R : α → β → Prop) :
    Except ε α → Except δ β → Prop
  | ok {a : α} {b : β} (h : R a b) : Related E R (.ok a) (.ok b)
  | error {e : ε} {d : δ} (h : E e d) : Related E R (.error e) (.error d)

namespace Related

variable {ε δ α β α' β' : Type} {E : ε → δ → Prop} {R : α → β → Prop} {S : α' → β' → Prop}
  {x : Except ε α} {y : Except δ β}

/-- **Steps that are related make stages that are related.** -/
theorem bind {f : α → Except ε α'} {g : β → Except δ β'} (h : Related E R x y)
    (hstep : ∀ a b, R a b → Related E S (f a) (g b)) : Related E S (x >>= f) (y >>= g) := by
  cases h with
  | ok h => exact hstep _ _ h
  | error h => exact .error h

theorem exists_ok (h : Related E R x y) {a : α} (hx : x = .ok a) : ∃ b, y = .ok b ∧ R a b := by
  cases h with
  | ok h =>
    cases hx
    exact ⟨_, rfl, h⟩
  | error h => cases hx

theorem exists_error (h : Related E R x y) {e : ε} (hx : x = .error e) : ∃ d, y = .error d ∧ E e d := by
  cases h with
  | ok h => cases hx
  | error h =>
    cases hx
    exact ⟨_, rfl, h⟩

theorem eq_ok {f : α → β} (h : Related E (fun a b => b = f a) x y) {a : α} (hx : x = .ok a) :
    y = .ok (f a) := by
  obtain ⟨b, hy, hb⟩ := h.exists_ok hx
  rw [hy, hb]

/-- Failures that are put in other terms on both sides. -/
theorem mapError {ε' δ' : Type} {E' : ε' → δ' → Prop} {f : ε → ε'} {g : δ → δ'} (h : Related E R x y)
    (hE : ∀ e d, E e d → E' (f e) (g d)) : Related E' R (x.mapError f) (y.mapError g) := by
  cases h with
  | ok h => exact .ok h
  | error h => exact .error (hE _ _ h)

theorem map {f : α → α'} {g : β → β'} (h : Related E R x y) (hR : ∀ a b, R a b → S (f a) (g b)) :
    Related E S (x.map f) (y.map g) := by
  cases h with
  | ok h => exact .ok (hR _ _ h)
  | error h => exact .error h

/-- Two outcomes with the same failure, or with a result and what `f` makes of it. -/
theorem eq_map {f : α → β} {y : Except ε β} (h : Related Eq (fun a b => b = f a) x y) : y = x.map f := by
  cases h with
  | ok h => rw [h]; rfl
  | error h => rw [h]; rfl

end Related

/-- **`Failure.Both`** — two stages that are refused for causes which `R` relates, or that end in the same
fault. -/
inductive Failure.Both {ε δ : Type} (R : ε → δ → Prop) : Failure ε → Failure δ → Prop
  | refused {e : ε} {d : δ} (h : R e d) : Both R (.refused e) (.refused d)
  | broken (f : Fault) : Both R (.broken f) (.broken f)

/-! ## §5 Codes -/

namespace Diagnostic

variable {α : Type}

@[simp] theorem code_label (d : Diagnostic) (span : Span) (message : String) :
    (d.label span message).code = d.code := rfl

@[simp] theorem code_suggest (d : Diagnostic) (text : String) : (d.suggest text).code = d.code := rfl

@[simp] theorem code_attach (d : Diagnostic) (name : Option String) : (d.attach name).code = d.code := by
  cases name <;> rfl

theorem code_foldl {f : Diagnostic → α → Diagnostic} (h : ∀ d a, (f d a).code = d.code) (xs : List α)
    (d : Diagnostic) : (xs.foldl f d).code = d.code := by
  induction xs generalizing d with
  | nil => rfl
  | cons x xs ih => rw [List.foldl_cons, ih, h]

theorem code_ite {p : Prop} [Decidable p] {d d' : Diagnostic} (h : d.code = d'.code) :
    (if p then d else d').code = d'.code := by
  split
  · exact h
  · rfl

end Diagnostic

namespace LexError

/-- **`code`** — the code that a cause is told under. -/
def code : LexError → Code
  | byteOrderMark _ | oversized => .sourceEncoding
  | controlCharacters .. => .controlCharacter
  | unterminatedComments .. => .unterminatedComment
  | incompleteEscape _ => .incompleteEscape
  | shortEscape .. => .shortEscape
  | invalidCodePoint .. => .invalidCodePoint
  | incompleteDelimiter .. => .incompleteDelimiter
  | blankDelimiter .. => .blankDelimiter
  | delimiterEdgeSpace .. => .delimiterEdgeSpace
  | baseTooHigh .. => .baseTooHigh
  | numberOrName .. => .numberOrName
  | mismatchedCloser .. => .mismatchedCloser
  | shiftInTypeParam _ => .shiftInTypeParam
  | noToken .. => .noToken
  | severalTokens .. => .severalTokens
  | unterminated context .. => (unterminatedWording context).1

/-- **A cause is told under its code**, whatever else is said. -/
theorem code_diagnostic (cause : LexError) : cause.diagnostic.code = cause.code := by
  cases cause with
  | unterminatedComments openers stop =>
    show (unterminatedCommentsDiagnostic openers stop).code = .unterminatedComment
    unfold unterminatedCommentsDiagnostic
    dsimp only
    rw [Diagnostic.code_suggest]
    refine (Diagnostic.code_foldl ?_ _ _).trans (Diagnostic.code_foldl ?_ _ _)
    · exact fun _ _ => rfl
    · exact fun _ _ => rfl
  | shortEscape start escape expected =>
    show (shortEscapeDiagnostic start escape expected).code = .shortEscape
    unfold shortEscapeDiagnostic
    dsimp only
    rw [Diagnostic.code_suggest, Diagnostic.code_label]
    exact Diagnostic.code_ite rfl
  | incompleteDelimiter start sigil quote delimiter next =>
    show (incompleteDelimiterDiagnostic start sigil quote delimiter next).code = .incompleteDelimiter
    unfold incompleteDelimiterDiagnostic
    dsimp only
    rw [Diagnostic.code_suggest, Diagnostic.code_label]
    split <;> rfl
  | delimiterEdgeSpace start delimiter quote =>
    show (delimiterEdgeSpaceDiagnostic start delimiter quote).code = .delimiterEdgeSpace
    unfold delimiterEdgeSpaceDiagnostic
    dsimp only
    rw [Diagnostic.code_suggest]
    split
    · rw [Diagnostic.code_label]
      exact Diagnostic.code_ite rfl
    · exact Diagnostic.code_ite rfl
  | mismatchedCloser opener closer expected found =>
    show (mismatchedCloserDiagnostic opener closer expected found).code = .mismatchedCloser
    unfold mismatchedCloserDiagnostic
    dsimp only
    exact Diagnostic.code_ite rfl
  | _ => rfl

/-- **`SameCode`** — two causes that are told under the same code. -/
def SameCode (e e' : LexError) : Prop := e'.code = e.code

/-- **`SameCodes`** — causes that are told under the same codes, one after the other. -/
def SameCodes (es es' : List LexError) : Prop := es'.map code = es.map code

theorem SameCodes.append {es es' fs fs' : List LexError} (h : SameCodes es es') (hf : SameCodes fs fs') :
    SameCodes (es ++ fs) (es' ++ fs') := by
  rw [SameCodes, List.map_append, List.map_append, h, hf]

end LexError

end DewyFront
