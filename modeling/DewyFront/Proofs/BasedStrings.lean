/-
# DewyFront.Proofs.BasedStrings — digits between quotes, with layout among them

Inside of a string of a base stand digits, blanks and comments. They begin with different characters, so
a scan takes the digits run by run and the layout between them token by token, up to the quote. The item
is the base with all digits in order, without those that are separators.

* §1 layout among digits;
* §2 what begins with which character;
* §3 what fits inside of the quotes;
* §4 rows of digits and layout;
* §5 the tokens of a row;
* §6 whole sources.
-/
import DewyFront.Proofs.Digits
import DewyFront.Proofs.Openings
import Mathlib.Data.Bool.AllAny

namespace DewyFront

/-! ## §1 Layout among digits -/

/-- **`IsComment`** — a comment that is closed: one of a line with the newline that ends it, or a block
comment up to the closer of its first opener. -/
inductive IsComment : TokenKind → Text → Prop
  | line {body : Text} (hbrace : body.head? ≠ some '\x7b') (hbody : '\n' ∉ body) :
      IsComment .lineComment ('%' :: (body ++ ['\n']))
  | block {m : Text} (h : Lexicon.scanComment m = .closed m.length) : IsComment .blockComment m

/-- **`Spaced`** — digits of a base, and how they are written with blanks and closed comments between
them. -/
inductive Radix.Spaced (b : Radix) : Text → Text → Prop
  | nil : Radix.Spaced b [] []
  | digit {c : Char} {d body : Text} (hc : b.isDigit c = true) (hrest : Radix.Spaced b d body) :
      Radix.Spaced b (c :: d) (c :: body)
  | blank {c : Char} {d body : Text} (hc : Lexicon.isBlank c = true) (hrest : Radix.Spaced b d body) :
      Radix.Spaced b d (c :: body)
  | comment {kind : TokenKind} {m d body : Text} (hm : IsComment kind m)
      (hrest : Radix.Spaced b d body) : Radix.Spaced b d (m ++ body)

variable {b : Radix} {kind : TokenKind} {m d t body rest : Text} {c q : Char}

/-- What layout begins with, and quotes. -/
def Lexicon.layoutMarks : Text := [' ', '\t', '\n', '\r'] ++ ['%', '"', '\'']

theorem Lexicon.mem_layoutMarks_of_isBlank (h : isBlank c = true) : c ∈ layoutMarks := by
  have hmem : c ∈ [' ', '\t', '\n', '\r'] := by simpa [isBlank, or_assoc] using h
  exact List.mem_append_left _ hmem

/-- No base has a character of layout or a quote for a digit, and neither is a separator. -/
theorem Radix.isDigit_layoutMark (hc : c ∈ Lexicon.layoutMarks) (b : Radix) :
    b.isDigit c = false ∧ c ≠ '_' := by
  have hall : ∀ c ∈ Lexicon.layoutMarks, ∀ b ∈ Radix.all, b.isDigit c = false ∧ c ≠ '_' :=
    List.all_iff_forall_prop.mp (by decide)
  exact hall c hc b b.mem_all

namespace IsComment

theorem head? (h : IsComment kind m) : m.head? = some '%' := by
  cases h with
  | line => rfl
  | block h =>
    unfold Lexicon.scanComment at h
    split at h
    · rfl
    · cases h

theorem isTrivia (h : IsComment kind m) : kind.isTrivia = true := by
  cases h <;> rfl

/-- A comment of a line goes on to its newline. -/
theorem lineCommentLength_eq (hbrace : body.head? ≠ some '\x7b') (hbody : '\n' ∉ body) (rest : Text) :
    Lexicon.lineCommentLength ('%' :: (body ++ '\n' :: rest)) = body.length + 2 := by
  have hall : ∀ c ∈ body, (c != '\n') = true := fun c hc => bne_iff_ne.mpr fun heq => hbody (heq ▸ hc)
  have hrun : runLength (· != '\n') (body ++ '\n' :: rest) = body.length :=
    runLength_append_eq hall fun c hc => by cases hc; rfl
  have hhead : (body ++ '\n' :: rest).head? ≠ some '\x7b' := by
    cases body with
    | nil => exact fun h => absurd (Option.some.inj h) (by decide)
    | cons a body => exact hbrace
  rw [Lexicon.lineCommentLength_percent hhead, hrun, if_pos (by simp)]

/-- A block comment that is closed is closed whatever follows. -/
theorem scanComment_append (h : Lexicon.scanComment m = .closed m.length) (rest : Text) :
    Lexicon.scanComment (m ++ rest) = .closed m.length := by
  unfold Lexicon.scanComment at h
  split at h
  · next more =>
    rw [List.cons_append, List.cons_append, Lexicon.scanComment]
    exact Lexicon.scanNested_append rest h
  · cases h

end IsComment

namespace Radix.Spaced

/-- **The digits in front**, up to something else. -/
theorem exists_digits (h : b.Spaced d body) : ∃ run d' body', d = run ++ d' ∧ body = run ++ body' ∧
    (∀ c ∈ run, b.isDigit c = true) ∧ b.Spaced d' body' ∧
    ∀ c, body'.head? = some c → c ∈ Lexicon.layoutMarks := by
  induction h with
  | nil => exact ⟨[], [], [], rfl, rfl, List.forall_mem_nil _, .nil, fun c hc => by cases hc⟩
  | digit hc _ ih =>
    obtain ⟨run, d', body', rfl, rfl, hrun, hrest, hhead⟩ := ih
    exact ⟨_ :: run, d', body', rfl, rfl, List.forall_mem_cons.mpr ⟨hc, hrun⟩, hrest, hhead⟩
  | @blank c d body hc hrest _ =>
    refine ⟨[], d, c :: body, rfl, rfl, List.forall_mem_nil _, .blank hc hrest, fun a ha => ?_⟩
    cases ha
    exact Lexicon.mem_layoutMarks_of_isBlank hc
  | @comment kind m d body hm hrest _ =>
    refine ⟨[], d, m ++ body, rfl, rfl, List.forall_mem_nil _, .comment hm hrest, fun a ha => ?_⟩
    rw [List.head?_append, hm.head?] at ha
    cases ha
    decide

/-- **The blanks in front**, up to something else. -/
theorem exists_blanks (h : b.Spaced d body) : ∃ run body', body = run ++ body' ∧
    (∀ c ∈ run, Lexicon.isBlank c = true) ∧ b.Spaced d body' ∧
    ∀ c, body'.head? = some c → Lexicon.isBlank c = false := by
  induction h with
  | nil => exact ⟨[], [], rfl, List.forall_mem_nil _, .nil, fun c hc => by cases hc⟩
  | @digit c d body hc hrest _ =>
    refine ⟨[], c :: body, rfl, List.forall_mem_nil _, .digit hc hrest, fun a ha => ?_⟩
    cases ha
    by_contra hblank
    have hmark := Lexicon.mem_layoutMarks_of_isBlank (Bool.not_eq_false _ ▸ hblank)
    have hdigit := (Radix.isDigit_layoutMark hmark b).1
    rw [hc] at hdigit
    cases hdigit
  | blank hc _ ih =>
    obtain ⟨run, body', rfl, hrun, hrest, hhead⟩ := ih
    exact ⟨_ :: run, body', rfl, List.forall_mem_cons.mpr ⟨hc, hrun⟩, hrest, hhead⟩
  | @comment kind m d body hm hrest _ =>
    refine ⟨[], m ++ body, rfl, List.forall_mem_nil _, .comment hm hrest, fun a ha => ?_⟩
    rw [List.head?_append, hm.head?] at ha
    cases ha
    rfl

theorem isDigit (h : b.Spaced d body) : ∀ c ∈ d, b.isDigit c = true := by
  induction h with
  | nil => exact List.forall_mem_nil _
  | digit hc _ ih => exact List.forall_mem_cons.mpr ⟨hc, ih⟩
  | blank _ _ ih | comment _ _ ih => exact ih

/-- What is written for digits does not begin with a quote. -/
theorem head?_ne (h : b.Spaced d body) (hq : View.isQuote q = true) : body.head? ≠ some q := by
  have hquote : q ∈ Lexicon.layoutMarks ∧ Lexicon.isBlank q = false ∧ q ≠ '%' := by
    rcases View.eq_of_isQuote hq with rfl | rfl <;> decide
  intro hhead
  cases h with
  | nil => cases hhead
  | digit hc =>
    cases hhead
    rw [(Radix.isDigit_layoutMark hquote.1 b).1] at hc
    cases hc
  | blank hc =>
    cases hhead
    rw [hquote.2.1] at hc
    cases hc
  | comment hm =>
    rw [List.head?_append, hm.head?] at hhead
    cases hhead
    exact hquote.2.2 rfl

end Radix.Spaced

/-! ## §2 First characters -/

namespace Scan

/-- **`begins`** — whether a kind of token may begin with a character inside of a string of a base. -/
def begins (b : Radix) (q : Char) : TokenKind → Char → Bool
  | .blank, c => Lexicon.isBlank c
  | .lineComment, c | .blockComment, c => c == '%'
  | .basedStringText, c => b.isDigit c || c == '_'
  | .stringCloser, c => c == q
  | _, _ => false

variable {v : View} {other : TokenKind} {opener : Nat}

/-- Kinds that do not begin with a character match nothing there. -/
theorem matchKind_of_begins (hcontext : v.context = .basedStringBody opener (.quotes [q]) b)
    (hrest : v.rest = c :: t) (hlegal : kind.isLegalIn .basedStringBody = true)
    (h : begins b q kind c = false) : v.matchKind kind = .ok none := by
  have hrun : ∀ p : Char → Bool, p c = false → View.positive (runLength p (c :: t)) = none := by
    intro p hp
    have hzero : runLength p (c :: t) = 0 := by simp [runLength, hp]
    rw [hzero]
    rfl
  cases kind with
  | blank =>
    rw [View.matchKind, hrest]
    exact congrArg _ (hrun _ h)
  | lineComment =>
    have hne : c ≠ '%' := by simpa [begins] using h
    rw [View.matchKind, hrest]
    simp [Lexicon.lineCommentLength, hne, View.positive]
  | blockComment =>
    have hne : c ≠ '%' := by simpa [begins] using h
    rw [View.matchKind, View.blockComment, hrest]
    simp [Lexicon.scanComment, hne]
  | basedStringText =>
    rw [View.matchKind, View.basedText, hcontext, hrest]
    exact congrArg _ (hrun _ h)
  | stringCloser =>
    have hne : c ≠ q := by simpa [begins] using h
    rw [View.matchKind, View.closingQuotes, hcontext, hrest]
    simp [Context.ending?, hne.symm]
  | _ => cases hlegal

/-- **A match stands** if nothing else begins with its first character. -/
theorem fits_of_begins (hlegal : kind.isLegalIn .basedStringBody = true) (hm : m.head? = some c)
    (htaken : ∀ v : View, v.context = .basedStringBody opener (.quotes [q]) b → v.rest = m ++ rest →
      v.matchKind kind = .ok (some m.length))
    (hothers : ∀ v : View, ∀ other, v.rest = m ++ rest →
      other.isLegalIn .basedStringBody = true → other ≠ kind → begins b q other c = true →
      v.matchKind other = .ok none) :
    (Context.basedStringBody opener (.quotes [q]) b).Fits kind m rest := by
  intro v hcontext hrest
  have hkind : v.context.kind = .basedStringBody := by rw [hcontext]; rfl
  obtain ⟨more, rfl⟩ := List.head?_eq_some_iff.mp hm
  refine stands_of_longest (hkind ▸ hlegal) (htaken v hcontext hrest) fun other hother hne => ?_
  rw [hkind] at hother
  refine ⟨none, ?_, fun n hn => by cases hn⟩
  by_cases hbegins : begins b q other c = true
  · exact hothers v other hrest hother hne hbegins
  · exact matchKind_of_begins hcontext hrest hother (Bool.eq_false_iff.mpr hbegins)

/-- What is neither a digit nor a separator begins with a character of layout or a quote. -/
theorem mem_layoutMarks_of_begins (hq : View.isQuote q = true) (h : begins b q kind c = true)
    (hkind : kind ≠ .basedStringText) : c ∈ Lexicon.layoutMarks := by
  cases kind with
  | blank => exact Lexicon.mem_layoutMarks_of_isBlank h
  | lineComment | blockComment =>
    rw [eq_of_beq h]
    decide
  | stringCloser =>
    rw [eq_of_beq h]
    rcases View.eq_of_isQuote hq with rfl | rfl <;> decide
  | basedStringText => exact absurd rfl hkind
  | _ => cases h

/-- A digit or a separator begins nothing else. -/
theorem begins_layoutMark (hc : c ∈ Lexicon.layoutMarks) : begins b q .basedStringText c = false := by
  obtain ⟨hdigit, hne⟩ := Radix.isDigit_layoutMark hc b
  simp [begins, hdigit, hne]

/-- **Kinds that begin with the same character are comments.** -/
theorem eq_of_begins (hq : View.isQuote q = true) (h : begins b q kind c = true)
    (hother : begins b q other c = true) (hne : other ≠ kind) : c = '%' := by
  -- One of the two is no text, so neither is, and its character is one of seven.
  have hmark : c ∈ Lexicon.layoutMarks := by
    by_cases hkind : kind = .basedStringText
    · exact mem_layoutMarks_of_begins hq hother (hkind ▸ hne)
    · exact mem_layoutMarks_of_begins hq h hkind
  have htext : ∀ k, begins b q k c = true → k = .blank ∧ Lexicon.isBlank c = true ∨ c = '%' ∨
      k = .stringCloser ∧ c = q := by
    intro k hk
    cases k with
    | blank => exact .inl ⟨rfl, hk⟩
    | lineComment | blockComment => exact .inr (.inl (eq_of_beq hk))
    | stringCloser => exact .inr (.inr ⟨rfl, eq_of_beq hk⟩)
    | basedStringText =>
      rw [begins_layoutMark hmark] at hk
      cases hk
    | _ => cases hk
  have hquote : Lexicon.isBlank q = false := by rcases View.eq_of_isQuote hq with rfl | rfl <;> rfl
  rcases htext kind h with ⟨rfl, hblank⟩ | rfl | ⟨rfl, rfl⟩
  · rcases htext other hother with ⟨rfl, -⟩ | rfl | ⟨rfl, rfl⟩
    · exact absurd rfl hne
    · rfl
    · rw [hquote] at hblank
      cases hblank
  · rfl
  · rcases htext other hother with ⟨rfl, hblank⟩ | heq | ⟨rfl, -⟩
    · rw [hquote] at hblank
      cases hblank
    · exact heq
    · exact absurd rfl hne

/-! ## §3 Inside of the quotes -/

/-- **A run of digits is taken as a whole.** -/
theorem fits_digits (hq : View.isQuote q = true) (hne : m ≠ []) (hm : ∀ c ∈ m, b.isDigit c = true)
    (hrest : ∀ c, rest.head? = some c → c ∈ Lexicon.layoutMarks) :
    (Context.basedStringBody opener (.quotes [q]) b).Fits .basedStringText m rest := by
  obtain ⟨c, m, rfl⟩ := List.exists_cons_of_ne_nil hne
  have hbegins : begins b q .basedStringText c = true := by simp [begins, hm c List.mem_cons_self]
  refine fits_of_begins rfl rfl (fun v hcontext hv => ?_) fun v other _ _ hother hbegin => ?_
  · have hrun : runLength (fun c => b.isDigit c || c == '_') (c :: m ++ rest) = (c :: m).length :=
      runLength_append_eq (fun d hd => by rw [hm d hd]; rfl) fun d hd => by
        obtain ⟨hdigit, hne⟩ := Radix.isDigit_layoutMark (hrest d hd) b
        simp [hdigit, hne]
    rw [View.matchKind, View.basedText, hcontext, hv]
    dsimp only
    rw [hrun]
    rfl
  · have hc := eq_of_begins hq hbegins hbegin hother
    rw [hc, begins_layoutMark (by decide)] at hbegins
    cases hbegins

/-- **So is a run of blanks.** -/
theorem fits_blanks (hq : View.isQuote q = true) (hne : m ≠ [])
    (hm : ∀ c ∈ m, Lexicon.isBlank c = true)
    (hrest : ∀ c, rest.head? = some c → Lexicon.isBlank c = false) :
    (Context.basedStringBody opener (.quotes [q]) b).Fits .blank m rest := by
  obtain ⟨c, m, rfl⟩ := List.exists_cons_of_ne_nil hne
  have hblank := hm c List.mem_cons_self
  refine fits_of_begins rfl rfl (fun v hcontext hv => ?_) fun v other _ _ hother hbegin => ?_
  · have hrun : Lexicon.blankLength (c :: m ++ rest) = (c :: m).length := runLength_append_eq hm hrest
    rw [View.matchKind, hv, hrun]
    rfl
  · have hbegins : begins b q .blank c = true := hblank
    have hc := eq_of_begins hq hbegins hbegin hother
    rw [hc] at hblank
    cases hblank

/-- **A comment is taken up to its end.** -/
theorem fits_comment (hq : View.isQuote q = true) (hm : IsComment kind m) (rest : Text) :
    (Context.basedStringBody opener (.quotes [q]) b).Fits kind m rest := by
  have hbegins : begins b q kind '%' = true := by cases hm <;> rfl
  refine fits_of_begins (by cases hm <;> rfl) hm.head? (fun v hcontext hv => ?_)
    fun v other hv hlegal hother hbegin => ?_
  · cases hm with
    | @line body hbrace hbody =>
      have hlength : Lexicon.lineCommentLength ('%' :: (body ++ ['\n']) ++ rest) = body.length + 2 := by
        rw [List.cons_append, List.append_assoc]
        exact IsComment.lineCommentLength_eq hbrace hbody rest
      rw [View.matchKind, hv, hlength]
      simp [View.positive]
    | block h =>
      rw [View.matchKind, View.blockComment, hv, IsComment.scanComment_append h]
  · -- Of the two comments the second character tells which one it is.
    have hcomment : other = .lineComment ∨ other = .blockComment := by
      have hquote : ('%' == q) = false := by rcases View.eq_of_isQuote hq with rfl | rfl <;> rfl
      cases other with
      | lineComment => exact .inl rfl
      | blockComment => exact .inr rfl
      | basedStringText =>
        rw [begins_layoutMark (by decide)] at hbegin
        cases hbegin
      | stringCloser => exact absurd hbegin (Bool.eq_false_iff.mp hquote)
      | _ => cases hbegin
    cases hm with
    | @line body hbrace _ =>
      have habsent : Lexicon.scanComment ('%' :: (body ++ ['\n']) ++ rest) = .absent := by
        rw [Lexicon.scanComment]
        rintro more heq
        cases body with
        | nil => cases heq
        | cons a body =>
          cases heq
          exact hbrace rfl
      rw [hcomment.resolve_left hother, View.matchKind, View.blockComment, hv, habsent]
    | block h =>
      unfold Lexicon.scanComment at h
      split at h
      · rw [hcomment.resolve_right hother, View.matchKind, hv]
        rfl
      · cases h

/-- **The quote closes the string.** -/
theorem fits_quote (hq : View.isQuote q = true) (rest : Text) :
    (Context.basedStringBody opener (.quotes [q]) b).Fits .stringCloser [q] rest := by
  have hbegins : begins b q .stringCloser q = true := beq_self_eq_true q
  refine fits_of_begins rfl rfl (fun v hcontext hv => ?_) fun v other _ _ hother hbegin => ?_
  · rw [View.matchKind, View.closingQuotes, hcontext, hv]
    simp [Context.ending?]
  · have hc := eq_of_begins hq hbegins hbegin hother
    rw [hc] at hq
    cases hq

end Scan

/-! ## §4 Rows of digits and layout -/

/-- **`Fragment.IsBased`** — a run of digits, which is itself, or layout, which is nothing. -/
inductive Fragment.IsBased : Fragment → Prop
  | digits (t : Text) : Fragment.IsBased ⟨.basedStringText, t, t⟩
  | layout {kind : TokenKind} (hkind : kind.isTrivia = true) (t : Text) : Fragment.IsBased ⟨kind, t, []⟩

/-- What is known of the first character is known with another one behind the text. -/
theorem forall_head?_concat {p : Char → Prop} {t : Text} (ht : ∀ a, t.head? = some a → p a) (hq : p q) :
    ∀ a, (t ++ [q]).head? = some a → p a := by
  intro a ha
  cases t with
  | nil =>
    cases ha
    exact hq
  | cons e t => exact ht a ha

/-- **Digits with layout among them are a row that denotes the digits.** -/
theorem Radix.Spaced.exists_row (h : b.Spaced d body) (hq : View.isQuote q = true) (opener : Nat) :
    ∃ fs, Fragment.spelled fs = body ∧ Fragment.denoted fs = d ∧
      Context.Row Fragment.IsBased (.basedStringBody opener (.quotes [q]) b) [q] fs := by
  have hquote : q ∈ Lexicon.layoutMarks := by rcases View.eq_of_isQuote hq with rfl | rfl <;> decide
  have hblank : Lexicon.isBlank q = false := by rcases View.eq_of_isQuote hq with rfl | rfl <;> rfl
  -- By the length of the body: a run takes several of its characters at once.
  induction hn : body.length using Nat.strongRecOn generalizing d body with
  | ind n ih =>
    subst hn
    cases h with
    | nil => exact ⟨[], rfl, rfl, .nil⟩
    | @digit c d body hc hrest =>
      obtain ⟨run, d', body', rfl, rfl, hrun, hrest', hhead⟩ := hrest.exists_digits
      obtain ⟨fs, rfl, rfl, hfs⟩ := ih _ (by rw [List.length_cons, List.length_append]; omega) hrest' rfl
      refine ⟨⟨.basedStringText, c :: run, c :: run⟩ :: fs, rfl, rfl, .cons ?_ (.digits _) hfs⟩
      exact Scan.fits_digits hq (List.cons_ne_nil c run) (List.forall_mem_cons.mpr ⟨hc, hrun⟩)
        (forall_head?_concat hhead hquote)
    | @blank c d body hc hrest =>
      obtain ⟨run, body', rfl, hrun, hrest', hhead⟩ := hrest.exists_blanks
      obtain ⟨fs, rfl, rfl, hfs⟩ := ih _ (by rw [List.length_cons, List.length_append]; omega) hrest' rfl
      refine ⟨⟨.blank, c :: run, []⟩ :: fs, rfl, rfl, .cons ?_ (.layout rfl _) hfs⟩
      exact Scan.fits_blanks hq (List.cons_ne_nil c run) (List.forall_mem_cons.mpr ⟨hc, hrun⟩)
        (forall_head?_concat hhead hblank)
    | @comment kind m d body hm hrest =>
      have hpos : 0 < m.length := by
        obtain ⟨more, rfl⟩ := List.head?_eq_some_iff.mp hm.head?
        exact Nat.succ_pos _
      obtain ⟨fs, rfl, rfl, hfs⟩ := ih _ (by simp; omega) hrest rfl
      exact ⟨⟨kind, m, []⟩ :: fs, rfl, rfl, .cons (Scan.fits_comment hq hm _) (.layout hm.isTrivia _) hfs⟩

/-! ## §5 The tokens of a row -/

/-- Runs of digits and layout are recorded; layout is searched for lone carriage returns. -/
theorem Scan.records_isBased : Records Fragment.IsBased fun _ => True := by
  intro f s hf _
  cases hf with
  | digits t => exact ⟨s.loneReturns, trivial, rfl⟩
  | @layout kind hkind t => cases kind <;> first | exact ⟨_, trivial, rfl⟩ | cases hkind

/-- The digits of a row are what it denotes. -/
theorem Tree.flatMap_text_eq {inner : List Lexeme} {fs : List Fragment}
    (h : List.Forall₂ Fragment.IsTokenOf inner fs) (hfs : ∀ f ∈ fs, f.IsBased) :
    (inner.filter (·.kind == .basedStringText)).flatMap (·.text) = Fragment.denoted fs := by
  induction h with
  | nil => rfl
  | @cons l f inner fs htoken _ ih =>
    obtain ⟨hf, hfs⟩ := List.forall_mem_cons.mp hfs
    obtain ⟨hkind, htext⟩ := htoken
    rw [Fragment.denoted_cons, ← ih hfs]
    cases hf with
    | digits t =>
      rw [List.filter_cons_of_pos (by rw [hkind]; rfl), List.flatMap_cons, htext]
    | @layout kind hlayout t =>
      rw [List.filter_cons_of_neg, List.nil_append]
      rw [hkind]
      cases kind <;> first | exact Bool.false_ne_true | cases hlayout

/-! ## §6 Whole sources -/

theorem Radix.ofLead?_lead (b : Radix) (t : Text) : Radix.ofLead? (b.lead ++ t) = some b := by
  cases b <;> rfl

namespace Scan

variable {config : LexerConfig}

/-- At the lead of a base and a quote nothing begins but a string of the base. -/
theorem takesAtMost_lead_quote (hq : View.isQuote q = true) (hlegal : kind.isLegalIn .root = true)
    (hkind : kind ≠ .basedStringOpener) :
    (Scan.start.view config (b.lead ++ q :: t)).TakesAtMost kind n := by
  refine .of_none ?_
  have hlead := Radix.ofLead?_lead b (q :: t)
  cases kind with
  | basedStringOpener => exact absurd rfl hkind
  | number =>
    have hdigit : b.isDigit q = false := by
      refine (Radix.isDigit_layoutMark ?_ b).1
      rcases View.eq_of_isQuote hq with rfl | rfl <;> decide
    show View.numberAt _ _ (b.lead ++ q :: t) = .ok none
    unfold View.numberAt
    rw [hlead]
    show (if b.isDigit q = true then _ else _) = _
    rw [if_neg (Bool.eq_false_iff.mp hdigit)]
  | basedBlockOpener =>
    show Except.ok (View.basedBlock (b.lead ++ q :: t)) = _
    have hne : ¬ ((Radix.ofLead? (b.lead ++ q :: t)).isSome = true ∧
        ((b.lead ++ q :: t).drop 2).head? = some '[') := by
      rintro ⟨-, hhead⟩
      have hbracket : some q = some '[' := hhead
      cases hbracket
      cases hq
    rw [View.basedBlock, if_neg hne]
  | rightBracket | rightParen | rightBrace | rightAngle | stringCloser | heredocCloser | stringText
  | stringEscape | holeEscape | rawStringText | basedStringText => cases hlegal
  | _ => rfl

/-- **The lead of a base and a quote open a string of the base.** -/
theorem opens_lead_quote (config : LexerConfig) (b : Radix) (hq : View.isQuote q = true)
    (hbody : body.head? ≠ some q) :
    Opens config .basedStringOpener (b.lead ++ [q]) (body ++ [q])
      (.basedStringBody 0 (.quotes [q]) b) := by
  have hbegins : context? .basedStringOpener 0 (b.lead ++ [q]) =
      some (.basedStringBody 0 (.quotes [q]) b) := by
    show some (Context.basedStringBody 0 (.quotes [q])
      ((Radix.ofLead? (b.lead ++ [q])).getD .decimal)) = _
    rw [Radix.ofLead?_lead]
    rfl
  have hrun : View.quoteRun (q :: (body ++ [q])) = some 1 :=
    View.quoteRun_replicate (n := 1) hq rfl hbody
  have hmatch : View.basedString (b.lead ++ q :: (body ++ [q])) = some 3 := by
    rw [View.basedString, Radix.ofLead?_lead, Option.isSome_some, if_pos rfl]
    show (View.quoteRun (q :: (body ++ [q]))).map (· + 2) = _
    rw [hrun]
    rfl
  have htext : b.lead ++ [q] ++ (body ++ [q]) = b.lead ++ q :: (body ++ [q]) := by simp
  refine opens_of_sigil b.lead rfl rfl hbegins (List.cons_ne_nil q _) ?_ fun kind hlegal hkind => ?_
  · rw [htext]
    exact congrArg _ hmatch
  · rw [htext]
    exact takesAtMost_lead_quote hq hlegal hkind

end Scan

namespace Source

/-- **A string of a base keeps its digits.** The lead of a base, a quote, digits of the base with any blanks
and closed comments between them, and the same quote are one item: a string of the base with the digits in
order, without those that are separators, if the source is not oversized. Only base 64 has the separator
for a digit, so in any other base no digit is lost. -/
theorem lex_based_string (config : LexerConfig) (name : Option String) (b : Radix) {q : Char}
    (hq : View.isQuote q = true) {d body : Text} (h : b.Spaced d body) :
    let s : Source := ⟨b.lead ++ q :: (body ++ [q]), name⟩
    (s.size ≤ Span.limit → ∃ tokens returns, s.lex config =
      .ok ⟨tokens, [.leaf (.atom (.basedString b (Tree.withoutSeparators d))) ⟨0, s.size⟩], returns⟩) ∧
    (b ≠ .base64 ∨ '_' ∉ d → Tree.withoutSeparators d = d) := by
  intro s
  have hsource : s.text = (b.lead ++ [q]) ++ (body ++ [q]) := by
    rw [List.append_assoc]
    rfl
  obtain ⟨fs, hspelled, hdenoted, hrow⟩ := h.exists_row hq 0
  have hopens := Scan.opens_lead_quote config b hq (h.head?_ne hq)
  rw [← hspelled] at hopens hsource
  obtain ⟨tokens, returns, inner, -, hscan, htokens, start, -, hlexemes⟩ :=
    hopens.exists_lexemes hsource Scan.records_isBased trivial hrow (.inl rfl) (Scan.fits_quote hq [])
  constructor
  · intro hsize
    have hle : width (b.lead ++ [q]) ≤ width s.text := by
      rw [hsource, width_append (b.lead ++ [q])]
      exact Nat.le_add_right _ _
    have hitems : tokens.trees s.text =
        .ok [.leaf (.atom (.basedString b (Tree.withoutSeparators d))) ⟨0, s.size⟩] := by
      have hend : ∀ base before, Tree.ofLexemes base before [] = .ok [] := fun base before => by
        rw [Tree.ofLexemes]
      rw [TokenList.trees, hlexemes, Tree.ofLexemes_basedString rfl
        (Lexeme.enclosed?_of_pair [] rfl (Nat.zero_add _ ▸ rfl)), hend, Tree.ofBasedString,
        Radix.ofLead?_lead, Tree.flatMap_text_eq htokens hrow.forall_mem, hdenoted,
        Span.merge_eq (Nat.zero_le _) hle]
      rfl
    have hmark : s.hasByteOrderMark = false := by cases b <;> rfl
    exact ⟨tokens, returns,
      lex_ok_iff.mpr ⟨encodingIssues_eq_nil_iff.mpr ⟨hmark, hsize⟩, _, _, hscan, hitems, rfl⟩⟩
  · intro hd
    have hnone : '_' ∉ d := hd.elim (fun hb hmem => hb (Radix.isDigit_separator (h.isDigit _ hmem))) id
    refine List.filter_eq_self.mpr fun c hc => bne_iff_ne.mpr ?_
    rintro rfl
    exact hnone hc

/-- The digits of `1f` in base 16 with a blank, a comment of a line and a block comment among them. -/
theorem lex_based_string_of_layout :
    Radix.Spaced .hexadecimal ['1', 'f']
      ['1', ' ', '%', 'e', '\n', '%', '\x7b', '\x7d', '%', 'f'] ∧
    (∃ tokens returns, (⟨"0x'1 %e\n%\x7b\x7d%f'".toList, none⟩ : Source).lex default = .ok
      ⟨tokens, [.leaf (.atom (.basedString .hexadecimal ['1', 'f'])) ⟨0, 14⟩], returns⟩) := by
  have hline : IsComment .lineComment (['%', 'e'] ++ ['\n']) :=
    .line (by decide : ['e'].head? ≠ some '\x7b') (by decide)
  have hblock : IsComment .blockComment ['%', '\x7b', '\x7d', '%'] := .block (by decide +kernel)
  have hspaced : Radix.Spaced .hexadecimal ['1', 'f']
      ['1', ' ', '%', 'e', '\n', '%', '\x7b', '\x7d', '%', 'f'] :=
    .digit rfl (.blank rfl (.comment hline (.comment hblock (.digit rfl .nil))))
  exact ⟨hspaced, (lex_based_string default none .hexadecimal (q := '\'') rfl hspaced).1 (by decide)⟩

/-- **A string of base 64 may lose a digit**: `_` is one of the base, and it is left out as a separator. -/
theorem exists_based_string_short :
    ¬ ∀ (config : LexerConfig) (name : Option String) (b : Radix) (q : Char), View.isQuote q = true →
      ∀ d body : Text, b.Spaced d body → ∃ tokens returns,
        (⟨b.lead ++ q :: (body ++ [q]), name⟩ : Source).lex config =
          .ok ⟨tokens, [.leaf (.atom (.basedString b d)) ⟨0, width (b.lead ++ q :: (body ++ [q]))⟩],
            returns⟩ := by
  intro hall
  have hspaced : Radix.Spaced .base64 ['_'] ['_'] := .digit (by decide) .nil
  obtain ⟨tokens, returns, hlex⟩ := hall default none .base64 '\'' rfl _ _ hspaced
  have hrun : ((Source.mk ['0', 'g', '\'', '_', '\''] none).lex default).toOption.map
      (fun l => l.trees.map Tree.atom?) = some [some (.basedString .base64 [])] := by decide +kernel
  rw [show Source.lex default (.mk ['0', 'g', '\'', '_', '\''] none) = _ from hlex] at hrun
  cases hrun

end Source

end DewyFront
