/-
# DewyFront.Proofs.Interiors — what fits inside of a string

Inside of a string compete a text, which goes on to the first place where the string could end, the token
that ends it and, where the string has holes, escapes and openers of holes. A text fits where none of the
others could stand, and what ends the string fits unless an escape or a hole is as long.

* §1 the text of a string;
* §2 marks;
* §3 strings;
* §4 texts, closers and escapes;
* §5 rows.
-/
import DewyFront.Proofs.Strings
import DewyFront.Proofs.Trailing

namespace DewyFront

namespace View

variable {v : View} {d t rest : Text} {hasHoles : Bool}

/-! ## §1 The text of a string -/

/-- **A text goes on to the first place where it has to stop.** -/
theorem bodyLength_append (hmarks : hasHoles = true → ∀ a ∈ t, a ≠ '\\' ∧ a ≠ '\x7b')
    (hstop : ∀ before after, t = before ++ after → after ≠ [] → ¬ d <+: after ++ rest)
    (hrest : bodyLength (some d) hasHoles rest = 0) :
    bodyLength (some d) hasHoles (t ++ rest) = t.length := by
  induction t with
  | nil => exact hrest
  | cons a t ih =>
    have hgoes : ((hasHoles && (a == '\\' || a == '\x7b')) ||
        (some d).any (·.isPrefixOf (a :: (t ++ rest)))) = false := by
      have hbegins : d.isPrefixOf (a :: (t ++ rest)) = false := by
        rw [Bool.eq_false_iff, ne_eq, List.isPrefixOf_iff_prefix]
        exact hstop [] (a :: t) rfl (List.cons_ne_nil _ _)
      cases hasHoles with
      | false => simpa using hbegins
      | true =>
        obtain ⟨hbackslash, hbrace⟩ := hmarks rfl a List.mem_cons_self
        simp [hbackslash, hbrace, hbegins]
    have hmore := ih (fun hholes b hb => hmarks hholes b (List.mem_cons_of_mem _ hb))
      fun before after heq => hstop (a :: before) after (congrArg (a :: ·) heq)
    rw [List.cons_append, bodyLength, if_neg (Bool.eq_false_iff.mp hgoes), hmore, List.length_cons,
      Nat.add_comm]

/-- What ends a string stops its text. -/
theorem bodyLength_of_prefix (h : d <+: rest) : bodyLength (some d) hasHoles rest = 0 := by
  cases rest with
  | nil => rfl
  | cons a rest =>
    have hbegins : d.isPrefixOf (a :: rest) = true := List.isPrefixOf_iff_prefix.mpr h
    rw [bodyLength, Option.any_some, hbegins, Bool.or_true, if_pos rfl]

/-- A backslash stops the text of a string with holes. -/
theorem bodyLength_of_backslash (h : rest.head? = some '\\') : bodyLength (some d) true rest = 0 := by
  obtain ⟨more, rfl⟩ := List.head?_eq_some_iff.mp h
  rfl

/-- A text that has begun begins with no mark and not with what ends the string. -/
theorem of_bodyLength_pos {stop : Option Text} (h : 0 < bodyLength stop hasHoles rest) :
    (∀ d, stop = some d → ¬ d <+: rest) ∧
      (hasHoles = true → rest.head? ≠ some '\\' ∧ rest.head? ≠ some '\x7b') := by
  cases rest with
  | nil => cases h
  | cons a rest =>
    rw [bodyLength] at h
    split at h
    · cases h
    · next hgoes =>
      rw [Bool.or_eq_true, not_or] at hgoes
      constructor
      · rintro d rfl hbegins
        exact hgoes.2 (List.isPrefixOf_iff_prefix.mpr hbegins)
      · intro hholes
        rw [hholes, Bool.true_and, Bool.or_eq_true, not_or, beq_iff_eq, beq_iff_eq] at hgoes
        exact ⟨fun heq => hgoes.1.1 (Option.some.inj heq), fun heq => hgoes.1.2 (Option.some.inj heq)⟩

end View

/-! ## §2 Marks -/

/-- **`Marks`** — a text that a kind takes off the front inside of a string with holes: the opener of a
hole, or an escape. -/
inductive Marks : TokenKind → Text → Prop
  | brace : Marks .leftBrace ['\x7b']
  | hole {u : Char} (hu : u = 'u' ∨ u = 'U') : Marks .holeEscape ['\\', u, '\x7b']
  | simple {c : Char} (hc : ¬ (c = 'u' ∨ c = 'U')) : Marks .stringEscape ['\\', c]
  | codePoint {u : Char} {digits : Text} (hu : u = 'u' ∨ u = 'U')
      (hlength : digits.length = View.escapeDigits) (hdigits : ∀ a ∈ digits, View.isHexDigit a = true) :
      Marks .stringEscape ('\\' :: u :: digits)

namespace Marks

variable {kind other : TokenKind} {m more t digits : Text} {c u : Char} {v : View}

/-- Kinds that begin with a mark. -/
def isMarked : TokenKind → Bool
  | .leftBrace | .stringEscape | .holeEscape => true
  | _ => false

theorem eq_of_isMarked (h : isMarked kind = true) :
    kind = .leftBrace ∨ kind = .stringEscape ∨ kind = .holeEscape := by
  revert h
  cases kind <;> decide

theorem holeEscape_eq (c : Char) (t : Text) : View.holeEscape ('\\' :: c :: t) =
    if (c = 'u' ∨ c = 'U') ∧ t.head? = some '\x7b' then some 3 else none := by
  cases t with
  | nil => simp [View.holeEscape]
  | cons a t => by_cases ha : a = '\x7b' <;> simp [View.holeEscape, ha]

/-- Without a mark in front nothing matches that begins with one. -/
theorem matchKind_eq_none (hother : isMarked other = true) (hbackslash : v.rest.head? ≠ some '\\')
    (hbrace : v.rest.head? ≠ some '\x7b') : v.matchKind other = .ok none := by
  rcases eq_of_isMarked hother with rfl | rfl | rfl
  · rw [View.matchKind, View.single, if_neg hbrace]
  · exact View.escape_of_head hbackslash
  · have hhole : View.holeEscape v.rest = none := by
      unfold View.holeEscape
      split
      · next heq => exact absurd (congrArg List.head? heq) hbackslash
      · rfl
    rw [View.matchKind, hhole]

/-- **Behind a mark only its own kind matches**, and takes just the mark. -/
theorem matchKind_eq (h : Marks kind m) (hrest : v.rest = m ++ more) (hother : isMarked other = true) :
    v.matchKind other = .ok (if other = kind then some m.length else none) := by
  -- Each mark is tried as a brace, as an escape and as the opener of a hole, in this order.
  cases h with
  | brace =>
    have hrest : v.rest = '\x7b' :: more := hrest
    rcases eq_of_isMarked hother with rfl | rfl | rfl
    · rw [View.matchKind, hrest]
      rfl
    · refine View.escape_of_head ?_
      rw [hrest, List.head?_cons]
      decide
    · rw [View.matchKind, hrest]
      rfl
  | @hole u hu =>
    have hrest : v.rest = '\\' :: u :: '\x7b' :: more := hrest
    rcases eq_of_isMarked hother with rfl | rfl | rfl
    · rw [View.matchKind, hrest]
      rfl
    · show v.escape = _
      rw [View.escape_of_rest hrest, if_pos hu]
      rfl
    · rw [View.matchKind, hrest, holeEscape_eq, if_pos ⟨hu, rfl⟩]
      rfl
  | @simple c hc =>
    have hrest : v.rest = '\\' :: c :: more := hrest
    rcases eq_of_isMarked hother with rfl | rfl | rfl
    · rw [View.matchKind, hrest]
      rfl
    · show v.escape = _
      rw [View.escape_of_rest hrest, if_neg hc]
      rfl
    · rw [View.matchKind, hrest, holeEscape_eq, if_neg fun hhole => hc hhole.1]
      rfl
  | @codePoint u digits hu hlength hdigits =>
    have hrest : v.rest = '\\' :: u :: (digits ++ more) := hrest
    have hbrace : (digits ++ more).head? ≠ some '\x7b' := by
      obtain ⟨a, digits, rfl⟩ : ∃ a as, digits = a :: as :=
        List.exists_cons_of_length_pos (by rw [hlength]; decide)
      intro hhead
      cases hhead
      exact absurd (hdigits _ List.mem_cons_self) (by decide)
    rcases eq_of_isMarked hother with rfl | rfl | rfl
    · rw [View.matchKind, hrest]
      rfl
    · show v.escape = _
      have hrun := length_le_runLength_append hdigits more
      rw [hlength] at hrun
      rw [View.escape_of_rest hrest, if_pos hu, if_neg hbrace, Nat.min_eq_right hrun,
        if_neg (Nat.lt_irrefl _), if_pos rfl, List.length_cons, List.length_cons, hlength, Nat.add_comm]
    · rw [View.matchKind, hrest, holeEscape_eq, if_neg fun hhole => hbrace hhole.2]
      rfl

theorem head?_eq (h : Marks .stringEscape m) : m.head? = some '\\' := by
  cases h <;> rfl

end Marks

/-! ## §3 Strings -/

/-- **`Interior`** — the inside of a string: whether it has holes, the kind of the token that ends it,
and the text of that token. -/
inductive Interior : Context → Bool → TokenKind → Text → Prop
  | quoted (place : Nat) (run : Text) : Interior (.stringBody place (.quotes run)) true .stringCloser run
  | delimited (place : Nat) (d : Text) :
      Interior (.stringBody place (.delimiter d)) true .heredocCloser d
  | rawQuoted (place : Nat) (run : Text) :
      Interior (.rawStringBody place (.quotes run)) false .stringCloser run
  | rawDelimited (place : Nat) (d : Text) :
      Interior (.rawStringBody place (.delimiter d)) false .heredocCloser d

namespace Interior

variable {context : Context} {hasHoles : Bool} {closer kind : TokenKind} {d t rest : Text}
  {fs : List Fragment} {v : View}

/-- The kind of the texts of a string. -/
def textKind (hasHoles : Bool) : TokenKind := if hasHoles then .stringText else .rawStringText

/-- The kind of context inside of a string. -/
def bodyKind (hasHoles : Bool) : ContextKind := if hasHoles then .stringBody else .rawStringBody

theorem kind_eq (h : Interior context hasHoles closer d) : context.kind = bodyKind hasHoles := by
  cases h <;> rfl

theorem closer_eq (h : Interior context hasHoles closer d) :
    closer = .stringCloser ∨ closer = .heredocCloser := by
  cases h <;> simp

/-- Inside of a string stand its text, closers and, where it has holes, what begins with a mark. -/
theorem isLegalIn_bodyKind : kind.isLegalIn (bodyKind hasHoles) = true ↔ kind = textKind hasHoles ∨
    (kind = .stringCloser ∨ kind = .heredocCloser) ∨ hasHoles = true ∧ Marks.isMarked kind = true := by
  cases hasHoles <;> cases kind <;> decide

theorem matchKind_text (h : Interior context hasHoles closer d) (hv : v.context = context) :
    v.matchKind (textKind hasHoles) = .ok (View.positive (View.bodyLength (some d) hasHoles v.rest)) := by
  cases h <;>
  · show Except.ok (v.stringText _) = _
    rw [View.stringText, hv]
    rfl

theorem matchKind_closer (h : Interior context hasHoles closer d) (hv : v.context = context)
    (hkind : kind = .stringCloser ∨ kind = .heredocCloser) :
    v.matchKind kind = .ok (if kind = closer ∧ d <+: v.rest then some d.length else none) := by
  have hprefix : d.isPrefixOf v.rest = true ↔ d <+: v.rest := List.isPrefixOf_iff_prefix
  cases h <;> rcases hkind with rfl | rfl <;>
    simp [View.matchKind, View.closingQuotes, View.closingDelimiter, hv, Context.ending?, hprefix]

/-! ## §4 Texts, closers and escapes -/

/-- **A text fits** up to the place where it has to stop. -/
theorem fits_text (h : Interior context hasHoles closer d) (ht : t ≠ [])
    (hlength : View.bodyLength (some d) hasHoles (t ++ rest) = t.length) :
    context.Fits (textKind hasHoles) t rest := by
  intro v hv hrest
  have hpos : 0 < t.length := List.length_pos_of_ne_nil ht
  have htext := h.matchKind_text hv
  rw [hrest, hlength, View.positive, if_neg (Nat.ne_of_gt hpos)] at htext
  rw [← hrest] at hlength
  obtain ⟨hends, hmarks⟩ := View.of_bodyLength_pos (hlength ▸ hpos)
  have hkind : v.context.kind = bodyKind hasHoles := by rw [hv, h.kind_eq]
  refine Scan.stands_of_longest ?_ htext fun kind hlegal hne => ⟨none, ?_, fun n hn => by cases hn⟩
  · rw [hkind]
    exact isLegalIn_bodyKind.mpr (.inl rfl)
  · rw [hkind] at hlegal
    rcases isLegalIn_bodyKind.mp hlegal with rfl | hcloser | ⟨hholes, hmarked⟩
    · exact absurd rfl hne
    · rw [h.matchKind_closer hv hcloser, if_neg fun heq => hends d rfl heq.2]
    · obtain ⟨hbackslash, hbrace⟩ := hmarks hholes
      exact Marks.matchKind_eq_none hmarked hbackslash hbrace

/-- **What ends a string stands** where escapes and openers of holes are shorter. -/
theorem stands_closer_iff (h : Interior context hasHoles closer d) (hv : v.context = context)
    (hrest : d <+: v.rest) : Scan.Stands v ⟨closer, d.length⟩ ↔
      (hasHoles = true → ∀ kind, Marks.isMarked kind = true → ∃ found, v.matchKind kind = .ok found ∧
        ∀ n, found = some n → n < d.length) := by
  have hkind : v.context.kind = bodyKind hasHoles := by rw [hv, h.kind_eq]
  have hlegal : ∀ {kind}, kind = textKind hasHoles ∨ (kind = .stringCloser ∨ kind = .heredocCloser) ∨
      hasHoles = true ∧ Marks.isMarked kind = true → kind.isLegalIn v.context.kind = true := by
    intro kind hcase
    rw [hkind]
    exact isLegalIn_bodyKind.mpr hcase
  constructor
  · intro hstands hholes kind hmarked
    obtain ⟨found, hfound, hothers⟩ := hstands.others kind (hlegal (.inr (.inr ⟨hholes, hmarked⟩)))
    refine ⟨found, hfound, fun n hn => ?_⟩
    obtain ⟨hle, htie⟩ := hothers n hn
    refine Nat.lt_of_le_of_ne hle fun hlength => ?_
    -- No escape and no hole is what ends a string, and only names give way to anything.
    have hnames : ∀ p ∈ TokenKind.precedence, p.2 = .name := by decide
    rcases htie hlength with heq | hgives
    · have heq : kind = closer := heq
      rcases h.closer_eq with hcloser | hcloser <;> rw [heq, hcloser] at hmarked <;> cases hmarked
    · rw [show kind = .name from hnames _ hgives] at hmarked
      cases hmarked
  · intro hmarks
    refine ⟨hlegal (.inr (.inl h.closer_eq)), ?_, fun kind hcase => ?_⟩
    · show v.matchKind closer = _
      rw [h.matchKind_closer hv h.closer_eq, if_pos ⟨rfl, hrest⟩]
    · rw [hkind] at hcase
      rcases isLegalIn_bodyKind.mp hcase with rfl | hcloser | ⟨hholes, hmarked⟩
      · refine ⟨none, ?_, fun n hn => by cases hn⟩
        rw [h.matchKind_text hv, View.bodyLength_of_prefix hrest]
        rfl
      · refine ⟨_, h.matchKind_closer hv hcloser, fun n hn => ?_⟩
        split at hn
        · next heq =>
          cases hn
          exact ⟨Nat.le_refl _, fun _ => .inl heq.1⟩
        · cases hn
      · obtain ⟨found, hfound, hshort⟩ := hmarks hholes kind hmarked
        exact ⟨found, hfound, fun n hn => ⟨Nat.le_of_lt (hshort n hn), fun hlength =>
          absurd hlength (Nat.ne_of_lt (hshort n hn))⟩⟩

/-- Where nothing begins with a mark, what ends a string fits. -/
theorem fits_closer (h : Interior context hasHoles closer d)
    (hmarks : hasHoles = true → (d ++ rest).head? ≠ some '\\' ∧ (d ++ rest).head? ≠ some '\x7b') :
    context.Fits closer d rest := by
  intro v hv hrest
  refine (h.stands_closer_iff hv (hrest ▸ List.prefix_append d rest)).mpr fun hholes kind hmarked => ?_
  rw [← hrest] at hmarks
  obtain ⟨hbackslash, hbrace⟩ := hmarks hholes
  exact ⟨none, Marks.matchKind_eq_none hmarked hbackslash hbrace, fun n hn => by cases hn⟩

/-- **An escape fits**, if the string does not end there. -/
theorem fits_escape (h : Interior context true closer d) {e : Text} (he : Marks .stringEscape e)
    (hends : ¬ d <+: e ++ rest) : context.Fits .stringEscape e rest := by
  intro v hv hrest
  have hkind : v.context.kind = bodyKind true := by rw [hv, h.kind_eq]
  refine Scan.stands_of_longest ?_ (he.matchKind_eq hrest rfl) fun kind hlegal hne =>
    ⟨none, ?_, fun n hn => by cases hn⟩
  · rw [hkind]
    rfl
  · rw [hkind] at hlegal
    rcases isLegalIn_bodyKind.mp hlegal with rfl | hcloser | ⟨-, hmarked⟩
    · have hhead : v.rest.head? = some '\\' := by
        rw [hrest, List.head?_append, he.head?_eq, Option.some_or]
      rw [h.matchKind_text hv, View.bodyLength_of_backslash hhead]
      rfl
    · rw [h.matchKind_closer hv hcloser, hrest, if_neg fun heq => hends heq.2]
    · rw [he.matchKind_eq hrest hmarked, if_neg hne]

/-! ## §5 Rows -/

/-- A text in front of a row is read with it. -/
theorem exists_reads_text (h : Interior context hasHoles closer d) (hfs : context.Reads d fs)
    (hlength : View.bodyLength (some d) hasHoles (t ++ (Fragment.spelled fs ++ d)) = t.length) :
    ∃ fs', context.Reads d fs' ∧ Fragment.spelled fs' = t ++ Fragment.spelled fs ∧
      Fragment.denoted fs' = t ++ Fragment.denoted fs := by
  by_cases ht : t = []
  · subst ht
    exact ⟨fs, hfs, rfl, rfl⟩
  · refine ⟨⟨textKind hasHoles, t, t⟩ :: fs, .cons (h.fits_text ht hlength) ?_ hfs,
      Fragment.spelled_cons _ _, Fragment.denoted_cons _ _⟩
    cases hasHoles with
    | false => exact .rawText t
    | true => exact .text t

end Interior

end DewyFront
