/-
# DewyFront.Proofs.Labels — where the labels of a diagnostic point

The wording of a cause computes spans from what the cause carries: from offsets, from the widths of texts
and from fixed lengths. If what it carries stands in the source, so do the spans; only an escape that is
too short is told with a label for the digits that are missing, which stand nowhere. Nothing is told
without a label that is primary, and as long as spans reach to the end of the source they reach to the end
of every label that lies in it.

* §1 places of a text, and texts that stand in it;
* §2 diagnostics that point into a source;
* §3 the causes of the parser;
* §4 the causes of the lexer;
* §5 outcomes.
-/
import DewyFront.Proofs.PlacedItems
import DewyFront.Source.Parsed
import Mathlib.Data.List.TakeWhile

namespace DewyFront

variable {source s t : Text} {offset : Nat}

/-! ## §1 Places -/

theorem exists_of_dropBytes {n : Nat} {rest : Text} (h : dropBytes n t = some rest) :
    ∃ front, t = front ++ rest ∧ width front = n := by
  fun_induction dropBytes n t with
  | case1 t =>
    cases h
    exact ⟨[], rfl, rfl⟩
  | case2 => cases h
  | case3 n c t hle ih =>
    obtain ⟨front, rfl, hwidth⟩ := ih h
    refine ⟨c :: front, rfl, ?_⟩
    rw [width_cons, hwidth]
    omega
  | case4 => cases h

theorem isBoundary_iff_dropBytes : IsBoundary source offset ↔ (dropBytes offset source).isSome = true := by
  constructor
  · rintro ⟨front, back, rfl, rfl⟩
    rw [dropBytes_width]
    rfl
  · intro h
    obtain ⟨back, hback⟩ := Option.isSome_iff_exists.mp h
    obtain ⟨front, hfront, hwidth⟩ := exists_of_dropBytes hback
    exact ⟨front, back, hfront, hwidth⟩

instance : DecidablePred (IsBoundary source) := fun _ => decidable_of_iff _ isBoundary_iff_dropBytes.symm

theorem isBoundary_zero (source : Text) : IsBoundary source 0 := ⟨[], source, rfl, rfl⟩

/-- No place lies behind the end. -/
theorem IsBoundary.le_width (h : IsBoundary source offset) : offset ≤ width source := by
  obtain ⟨front, back, rfl, rfl⟩ := h
  rw [width_append]
  exact Nat.le_add_right ..

/-- **`StandsAt`** — a text stands in a source, from an offset on. -/
def StandsAt (source : Text) (offset : Nat) (t : Text) : Prop :=
  ∃ front back, source = front ++ (t ++ back) ∧ width front = offset

namespace StandsAt

theorem append_iff : StandsAt source offset (s ++ t) ↔
    ∃ front back, source = front ++ (s ++ (t ++ back)) ∧ width front = offset := by
  simp only [StandsAt, List.append_assoc]

theorem left (h : StandsAt source offset (s ++ t)) : StandsAt source offset s := by
  obtain ⟨front, back, hsource, hwidth⟩ := append_iff.mp h
  exact ⟨front, t ++ back, hsource, hwidth⟩

theorem right (h : StandsAt source offset (s ++ t)) : StandsAt source (offset + width s) t := by
  obtain ⟨front, back, hsource, hwidth⟩ := append_iff.mp h
  refine ⟨front ++ s, back, ?_, ?_⟩
  · rw [hsource, List.append_assoc]
  · rw [width_append, hwidth]

theorem tail {c : Char} (h : StandsAt source offset (c :: t)) :
    StandsAt source (offset + c.utf8Size) t := right (s := [c]) h

theorem take (h : StandsAt source offset t) (n : Nat) : StandsAt source offset (t.take n) :=
  left (t := t.drop n) (by rwa [List.take_append_drop])

theorem start (h : StandsAt source offset t) : IsBoundary source offset := by
  obtain ⟨front, back, hsource, hwidth⟩ := h
  exact ⟨front, t ++ back, hsource, hwidth⟩

theorem stop (h : StandsAt source offset t) : IsBoundary source (offset + width t) :=
  start (t := []) (right (s := t) (by rwa [List.append_nil]))

/-- **A text that stands in a source covers a span of it.** -/
theorem on (h : StandsAt source offset t) :
    (Span.mk offset (offset + width t)).On (IsBoundary source) :=
  ⟨h.start, h.stop, Nat.le_add_right ..⟩

/-- So do the first `n` bytes, if `n` characters of a byte each stand in front. -/
theorem on_of_width {n : Nat} (h : StandsAt source offset (s ++ t)) (hs : width s = n) :
    (Span.mk offset (offset + n)).On (IsBoundary source) := hs ▸ h.left.on

end StandsAt

/-- A text of characters of one byte has as many bytes as characters. -/
theorem width_eq_length (h : ∀ c ∈ t, c.utf8Size = 1) : width t = t.length := by
  induction t with
  | nil => rfl
  | cons c t ih =>
    obtain ⟨hc, ht⟩ := List.forall_mem_cons.mp h
    rw [width_cons, hc, ih ht, List.length_cons, Nat.add_comm]

/-! ## §2 Diagnostics -/

/-- A span in order is not refused if spans reach to its end. -/
theorem Span.ofRange?_eq_ok {span : Span} (hle : span.start ≤ span.stop) (hstop : span.stop ≤ limit) :
    ofRange? span.start span.stop = .ok span := by
  unfold ofRange?
  rw [if_neg (by omega), if_neg (by omega), if_neg (by omega)]

namespace Diagnostic

variable {p : Nat → Prop} {d : Diagnostic} {span : Span} {message : String}

/-- **`Points`** — a diagnostic with a primary label, each of whose labels begins and ends at some of the
places. Only the primary label of an escape that is too short may end elsewhere: it begins at one of the
places, and takes in as many bytes as there are digits missing, four at most. -/
structure Points (p : Nat → Prop) (d : Diagnostic) : Prop where
  primary : ∃ l ∈ d.labels, l.isPrimary = true
  labels : ∀ l ∈ d.labels, l.span.On p ∨ d.code = .shortEscape ∧ l.isPrimary = true ∧
    p l.span.start ∧ l.span.start < l.span.stop ∧ l.span.stop ≤ l.span.start + 4

/-- **`Holds`** — every label of a diagnostic begins and ends at some of the places. -/
def Holds (p : Nat → Prop) (d : Diagnostic) : Prop := ∀ l ∈ d.labels, l.span.On p

theorem holds_error (code : Code) (message : String) : (error code message).Holds p :=
  fun _ hl => nomatch hl

theorem Holds.label (h : d.Holds p) (hspan : span.On p) (message : String) :
    (d.label span message).Holds p :=
  List.forall_mem_append.mpr ⟨h, List.forall_mem_singleton.mpr hspan⟩

theorem Holds.context (h : d.Holds p) (hspan : span.On p) (message : String) :
    (d.context span message).Holds p :=
  List.forall_mem_append.mpr ⟨h, List.forall_mem_singleton.mpr hspan⟩

/-- Whether there is a primary label. -/
def hasPrimary (d : Diagnostic) : Bool := d.labels.any (·.isPrimary)

@[simp] theorem hasPrimary_label : (d.label span message).hasPrimary = true := by
  simp [hasPrimary, label]

@[simp] theorem hasPrimary_context : (d.context span message).hasPrimary = d.hasPrimary := by
  simp [hasPrimary, context]

@[simp] theorem hasPrimary_suggest (d : Diagnostic) (text : String) :
    (d.suggest text).hasPrimary = d.hasPrimary := rfl

/-- A diagnostic with a primary label whose labels are all among the places points at them. -/
theorem Holds.points (h : d.Holds p) (hprimary : d.hasPrimary = true) : d.Points p :=
  ⟨List.any_eq_true.mp hprimary, fun l hl => .inl (h l hl)⟩

theorem Holds.ite {d' : Diagnostic} {c : Prop} [Decidable c] (h : d.Holds p) (h' : d'.Holds p) :
    (if c then d' else d).Holds p := by
  split
  exacts [h', h]

/-- The label of an escape that is too short may go on behind the place where it begins. -/
theorem Holds.points_label (h : d.Holds p) (hcode : d.code = .shortEscape) (hstart : p span.start)
    (hlt : span.start < span.stop) (hle : span.stop ≤ span.start + 4) :
    (d.label span message).Points p where
  primary := List.any_eq_true.mp hasPrimary_label
  labels := List.forall_mem_append.mpr ⟨fun l hl => .inl (h l hl),
    List.forall_mem_singleton.mpr (.inr ⟨hcode, rfl, hstart, hlt, hle⟩)⟩

theorem Points.suggest (h : d.Points p) (text : String) : (d.suggest text).Points p :=
  ⟨h.primary, h.labels⟩

/-- Naming the file moves no label. -/
theorem Points.attach (h : d.Points p) (name : Option String) : (d.attach name).Points p := by
  cases name
  exacts [h, ⟨h.primary, h.labels⟩]

/-- **`Fits`** — no label of a diagnostic is refused as a span: none is inverted, and none goes beyond what
spans reach but the primary label of an escape that is too short. -/
def Fits (d : Diagnostic) : Prop :=
  ∀ l ∈ d.labels, Span.ofRange? l.span.start l.span.stop = .ok l.span ∨
    d.code = .shortEscape ∧ l.isPrimary = true ∧ Span.limit < l.span.stop

/-- **Where spans reach every place, no label is refused.** -/
theorem Points.fits (h : d.Points p) (hp : ∀ n, p n → n ≤ Span.limit) : d.Fits := by
  intro l hl
  rcases h.labels l hl with hon | ⟨hcode, hprimary, -, hlt, -⟩
  · exact .inl (Span.ofRange?_eq_ok hon.le (hp _ hon.stop))
  · rcases Nat.lt_or_ge Span.limit l.span.stop with hfar | hnear
    · exact .inr ⟨hcode, hprimary, hfar⟩
    · exact .inl (Span.ofRange?_eq_ok hlt.le hnear)

theorem Fits.attach (h : d.Fits) (name : Option String) : (d.attach name).Fits := by
  cases name
  exacts [h, h]

end Diagnostic

/-! ## §3 The parser -/

namespace ParseError

open Diagnostic

variable {p : Nat → Prop} {cause : ParseError}

theorem countMark_holds {d : Diagnostic} {mark : RangeMark} (i : Nat) (h : d.Holds p)
    (hmark : mark.span.On p) : (countMark d mark i).Holds p := by
  unfold countMark
  dsimp only
  split
  exacts [h.label hmark _, h.context hmark _]

theorem markJoints_holds {d : Diagnostic} {mark : RangeMark} (h : d.Holds p)
    (hmark : mark.span.On p) : (markJoints d mark).Holds p := by
  have hleft := fun d (h : Holds p d) => h.context (Span.on_point hmark.start) Bond.range.label
  have hright := fun d (h : Holds p d) => h.context hmark.endPoint Bond.range.label
  unfold markJoints
  cases mark.joinedLeft <;> cases mark.joinedRight
  exacts [h, hright _ h, hleft _ h, hright _ (hleft _ h)]

/-- The first mark is counted with a primary label, and counting takes none away. -/
theorem hasPrimary_countMark {d : Diagnostic} {i : Nat} (mark : RangeMark)
    (h : i = 0 ∨ d.hasPrimary = true) : (countMark d mark i).hasPrimary = true := by
  unfold countMark
  dsimp only
  split
  · exact hasPrimary_label
  · next hi => exact hasPrimary_context.trans (h.resolve_left hi)

theorem hasPrimary_markJoints {d : Diagnostic} (mark : RangeMark) :
    (markJoints d mark).hasPrimary = d.hasPrimary := by
  unfold markJoints
  cases mark.joinedLeft <;> cases mark.joinedRight <;> simp

theorem severalRangeMarksDiagnostic_points {marks : List RangeMark} (hne : marks ≠ [])
    (h : ∀ mark ∈ marks, mark.span.On p) : (severalRangeMarksDiagnostic marks).Points p := by
  refine Holds.points ?_ ?_
  · have hcounted := List.foldlRecOn (motive := Holds p) marks.zipIdx _
      (holds_error .severalRangeMarks "multiple `..` tokens encountered in single range expression")
      fun d hd x hx => countMark_holds x.2 hd (h x.1 (List.fst_mem_of_mem_zipIdx hx))
    exact List.foldlRecOn (motive := Holds p) marks markJoints hcounted fun d hd mark hmark =>
      markJoints_holds hd (h mark hmark)
  · obtain ⟨first, rest, rfl⟩ := List.exists_cons_of_ne_nil hne
    refine List.foldlRecOn (motive := (hasPrimary · = true)) (first :: rest) markJoints ?_
      fun d hd mark _ => (hasPrimary_markJoints mark).trans hd
    rw [List.zipIdx_cons, List.foldl_cons]
    exact List.foldlRecOn (motive := (hasPrimary · = true)) _ _ (hasPrimary_countMark first (.inl rfl))
      fun d hd x _ => hasPrimary_countMark x.1 (.inr hd)

/-- **A cause that is about some of the places points at them.** -/
theorem On.points (h : cause.On p) : cause.diagnostic.Points p := by
  cases cause with
  | severalRangeMarks marks =>
    exact severalRangeMarksDiagnostic_points (fun hnil => h.ne_nil (congrArg (List.map _) hnil))
      (List.forall_mem_map.mp h.spans)
  | nestedOperator outer inner =>
    obtain ⟨houter, hinner⟩ := List.forall_mem_cons.mp h.spans
    have hinner := List.forall_mem_singleton.mp hinner
    refine Holds.points ?_ rfl
    exact ((holds_error _ _).label houter _).context hinner _
  | _ =>
    refine Holds.points ?_ rfl
    exact (holds_error _ _).label (List.forall_mem_singleton.mp h.spans) _

end ParseError

/-! ## §4 The lexer -/

namespace LexError

open Diagnostic

variable {source : Text} {cause : LexError} {start stop : Nat}

/-- **`About`** — a cause that is about a source: the texts that it carries stand where it says, and what
else it gives for an offset is one at which no character is cut. -/
def About (source : Text) : LexError → Prop
  | byteOrderMark size => (Span.mk 0 size).On (IsBoundary source)
  | oversized => True
  | controlCharacters start size | blankDelimiter start size | severalTokens start size _ _ =>
    (Span.mk start (start + size)).On (IsBoundary source)
  | unterminatedComments openers stop => openers ≠ [] ∧ IsBoundary source stop ∧
      Span.Ascends (IsBoundary source) 0 stop (openers.map fun o => ⟨o, o + 2⟩)
  | incompleteEscape start => (Span.mk start (start + 1)).On (IsBoundary source)
  | shortEscape start escape expected => StandsAt source start escape ∧
      ∃ mark digits, escape = mark ++ digits ∧ mark.length = 2 ∧ (∀ c ∈ escape, c.utf8Size = 1) ∧
        digits.length < expected ∧ expected ≤ 4
  | invalidCodePoint span _ => span.On (IsBoundary source)
  | incompleteDelimiter start sigil quote delimiter next => quote.utf8Size = 1 ∧
      StandsAt source start (sigil ++ quote :: (delimiter ++ next.toList))
  | delimiterEdgeSpace start delimiter _ => StandsAt source start delimiter ∧
      (∃ c ∈ delimiter, c ≠ ' ') ∧ (delimiter.head? = some ' ' ∨ delimiter.getLast? = some ' ')
  | baseTooHigh start _ digits _ => ∃ lead, width lead = 2 ∧ StandsAt source start (lead ++ digits)
  | numberOrName start sequence _ => StandsAt source start sequence
  | mismatchedCloser opener closer _ _ =>
      opener.On (IsBoundary source) ∧ closer.On (IsBoundary source)
  | shiftInTypeParam start => IsBoundary source start ∧
      (Span.mk (start - 1) (start + 1)).On (IsBoundary source)
  | noToken start _ _ => IsBoundary source start
  | unterminated _ opener _ stop => opener.On (IsBoundary source) ∧ IsBoundary source stop

/-- The body of each open comment goes up to the next opener, and the last to the end. -/
theorem on_commentBodies {p : Nat → Prop} {openers : List Nat} {lo : Nat} (hstop : p stop)
    (h : Span.Ascends p lo stop (openers.map fun o => ⟨o, o + 2⟩)) :
    ∀ body ∈ commentBodies stop openers, body.On p := by
  induction openers generalizing lo with
  | nil => exact fun body hbody => nomatch hbody
  | cons opener openers ih =>
    obtain ⟨-, hopener, hrest⟩ := h
    cases openers with
    | nil => exact List.forall_mem_singleton.mpr ⟨hopener.stop, hstop, hrest⟩
    | cons next more =>
      exact List.forall_mem_cons.mpr ⟨⟨hopener.stop, hrest.2.1.start, hrest.1⟩, ih hrest⟩

theorem unterminatedCommentsDiagnostic_points {p : Nat → Prop} {openers : List Nat} {lo : Nat}
    (hne : openers ≠ []) (hstop : p stop)
    (h : Span.Ascends p lo stop (openers.map fun o => ⟨o, o + 2⟩)) :
    (unterminatedCommentsDiagnostic openers stop).Points p := by
  refine Holds.points ?_ ?_
  · refine List.foldlRecOn (motive := Holds p) (commentBodies stop openers) _ ?_ fun d hd body hbody =>
      hd.context (on_commentBodies hstop h body hbody) _
    refine List.foldlRecOn (motive := Holds p) openers.zipIdx _ (holds_error _ _) fun d hd x hx => ?_
    have hopener : x.1 ∈ openers := List.fst_mem_of_mem_zipIdx hx
    exact hd.label (h.of_mem (List.mem_map_of_mem hopener)).1 _
  · obtain ⟨opener, rest, rfl⟩ := List.exists_cons_of_ne_nil hne
    refine List.foldlRecOn (motive := (hasPrimary · = true)) (commentBodies stop (opener :: rest)) _ ?_
      fun d hd body _ => hasPrimary_context.trans hd
    rw [List.zipIdx_cons, List.foldl_cons]
    exact List.foldlRecOn (motive := (hasPrimary · = true)) _ _ hasPrimary_label
      fun d _ x _ => hasPrimary_label

/-- **The digits that an escape lacks stand nowhere**: the label for them begins where the digits that are
there end, and everything else that is told of the escape is there. -/
theorem shortEscapeDiagnostic_points {mark digits : Text} {expected : Nat}
    (h : StandsAt source start (mark ++ digits)) (hmark : mark.length = 2)
    (hbytes : ∀ c ∈ mark ++ digits, c.utf8Size = 1) (hshort : digits.length < expected)
    (hfour : expected ≤ 4) :
    (shortEscapeDiagnostic start (mark ++ digits) expected).Points (IsBoundary source) := by
  obtain ⟨hmarkBytes, hdigitBytes⟩ := List.forall_mem_append.mp hbytes
  have hwidth : width mark = 2 := (width_eq_length hmarkBytes).trans hmark
  have hopened := h.on_of_width hwidth
  have hfound := (hwidth ▸ h.right).on
  rw [width_eq_length hdigitBytes] at hfound
  have hlength : (mark ++ digits).length - 2 = digits.length := by
    rw [List.length_append, hmark, Nat.add_sub_cancel_left]
  have hcontext := (holds_error (p := IsBoundary source) .shortEscape
    "Unicode escape sequence is too short").context hopened "Unicode escape opened here"
  unfold shortEscapeDiagnostic
  dsimp only
  rw [hlength]
  refine (Holds.points_label (hcontext.ite (hcontext.context hfound _)) ?_ hfound.stop ?_ ?_).suggest _
  · split <;> rfl
  · dsimp only
    omega
  · dsimp only
    omega

theorem incompleteDelimiterDiagnostic_points {sigil delimiter : Text} {quote : Char}
    {next : Option Char} (hquote : quote.utf8Size = 1)
    (h : StandsAt source start (sigil ++ quote :: (delimiter ++ next.toList))) :
    (incompleteDelimiterDiagnostic start sigil quote delimiter next).Points (IsBoundary source) := by
  have hdelimiter := h.right.tail
  rw [hquote] at hdelimiter
  have hopening : (Span.mk (start + width sigil) (start + width sigil + 1)).On (IsBoundary source) :=
    ⟨h.right.start, hdelimiter.start, Nat.le_succ _⟩
  have hnext : width next.toList = next.elim 0 Char.utf8Size := by cases next <;> rfl
  have hmissing := hdelimiter.right.on
  rw [hnext] at hmissing
  have hcontext := ((holds_error (p := IsBoundary source) .incompleteDelimiter
    "Incomplete heredoc delimiter").context h.left.on "heredoc start").context hopening
      "heredoc delimiter opening quote"
  refine Holds.points ?_ hasPrimary_label
  refine Holds.label ?_ hmissing _
  split
  exacts [hcontext, hcontext.context hdelimiter.left.on _]

/-- A text that is not all spaces has something between the spaces at its ends. -/
theorem exists_between_spaces {t : Text} (h : ∃ c ∈ t, c ≠ ' ') :
    ∃ lead middle trail, t = lead ++ (middle ++ trail) ∧
      width lead = runLength (· == ' ') t ∧ width trail = runLength (· == ' ') t.reverse := by
  have hspace : ∀ {t : Text} {c : Char}, c ∈ t.takeWhile (· == ' ') → c = ' ' := by
    intro t c hc
    simpa using List.mem_takeWhile_imp hc
  obtain ⟨c, hc, hne⟩ := h
  generalize hlead : t.takeWhile (· == ' ') = lead
  generalize hback : (t.dropWhile (· == ' ')).reverse = back
  have ht : t = lead ++ back.reverse := by
    rw [← hlead, ← hback, List.reverse_reverse, List.takeWhile_append_dropWhile]
  have hbehind : c ∈ back := by
    rw [ht] at hc
    exact List.mem_reverse.mp ((List.mem_append.mp hc).resolve_left fun hc =>
      hne (hspace (hlead ▸ hc)))
  -- the spaces at the end stop at `c` at the latest, so those in front are others
  have hrun : t.reverse.takeWhile (· == ' ') = back.takeWhile (· == ' ') := by
    rw [ht, List.reverse_append, List.reverse_reverse, List.takeWhile_append, if_neg]
    intro hlength
    have hall := (List.takeWhile_prefix (· == ' ') (l := back)).eq_of_length hlength
    exact hne (hspace (hall.symm ▸ hbehind))
  refine ⟨lead, (back.dropWhile (· == ' ')).reverse, (back.takeWhile (· == ' ')).reverse, ?_, ?_, ?_⟩
  · rw [← List.reverse_append, List.takeWhile_append_dropWhile, ht]
  · rw [← hlead]
    exact width_eq_length fun d hd => hspace hd ▸ rfl
  · rw [runLength, hrun, ← List.length_reverse]
    exact width_eq_length fun d hd => hspace (List.mem_reverse.mp hd) ▸ rfl

theorem delimiterEdgeSpaceDiagnostic_points {delimiter : Text} (quote : Char)
    (h : StandsAt source start delimiter) (hword : ∃ c ∈ delimiter, c ≠ ' ')
    (hspace : delimiter.head? = some ' ' ∨ delimiter.getLast? = some ' ') :
    (delimiterEdgeSpaceDiagnostic start delimiter quote).Points (IsBoundary source) := by
  obtain ⟨lead, middle, trail, heq, hlead, htrail⟩ := exists_between_spaces hword
  have hstands : StandsAt source start (lead ++ (middle ++ trail)) := heq ▸ h
  have hstop : start + width delimiter - width trail = start + width lead + width middle := by
    rw [heq, width_append, width_append]
    omega
  have hend : start + width delimiter = start + width lead + width middle + width trail := by
    rw [heq, width_append, width_append]
    omega
  have hmiddle := hstands.right.left.on
  have htrailing := hstands.right.right.on
  rw [← hend, ← hstop] at htrailing
  rw [← hstop] at hmiddle
  have hleading := hstands.left.on
  rw [hlead] at hleading hmiddle
  rw [htrail] at htrailing hmiddle
  have hcontext := (holds_error (p := IsBoundary source) .delimiterEdgeSpace
    "Heredoc delimiter cannot start or end with space").context hmiddle "delimiter"
  have hedge : 0 < runLength (· == ' ') delimiter ∨ 0 < runLength (· == ' ') delimiter.reverse := by
    rw [← List.head?_reverse] at hspace
    exact hspace.imp (fun h => runLength_pos_of_head? (by rw [h]; rfl))
      fun h => runLength_pos_of_head? (by rw [h]; rfl)
  have hone := hcontext.ite (c := 0 < runLength (· == ' ') delimiter)
    (hcontext.label hleading "Leading space")
  refine Holds.points (hone.ite (hone.label htrailing _)) ?_
  unfold delimiterEdgeSpaceDiagnostic
  dsimp only
  rw [hasPrimary_suggest]
  rcases hedge with h | h
  · rw [if_pos h]
    split <;> exact hasPrimary_label
  · rw [if_pos h]
    exact hasPrimary_label

/-- The body of a context that is open at the end goes up to the end, or is empty behind its opener. -/
theorem unterminatedDiagnostic_points {p : Nat → Prop} (context : ContextKind) {opener : Span}
    (closer : Closer) (hopener : opener.On p) (hstop : p stop) :
    (unterminatedDiagnostic context opener closer stop).Points p := by
  have hend : p (max stop opener.stop) := by
    rcases max_choice stop opener.stop with h | h <;> rw [h]
    exacts [hstop, hopener.stop]
  refine Holds.points ?_ rfl
  exact (((holds_error _ _).context hopener _).context ⟨hopener.stop, hend, le_max_right ..⟩ _).label
    (Span.on_point hend) _

/-- **A cause that is about a source points into it.** -/
theorem About.points (h : cause.About source) : cause.diagnostic.Points (IsBoundary source) := by
  cases cause with
  | byteOrderMark | controlCharacters | blankDelimiter | severalTokens | incompleteEscape
  | invalidCodePoint =>
    refine Holds.points ?_ rfl
    exact (holds_error _ _).label h _
  | oversized =>
    refine Holds.points ?_ rfl
    exact (holds_error _ _).label (Span.on_point (isBoundary_zero source)) _
  | unterminatedComments => exact unterminatedCommentsDiagnostic_points h.1 h.2.1 h.2.2
  | shortEscape =>
    obtain ⟨hstands, mark, digits, rfl, hmark, hbytes, hshort, hfour⟩ := h
    exact shortEscapeDiagnostic_points hstands hmark hbytes hshort hfour
  | incompleteDelimiter => exact incompleteDelimiterDiagnostic_points h.1 h.2
  | delimiterEdgeSpace => exact delimiterEdgeSpaceDiagnostic_points _ h.1 h.2.1 h.2.2
  | baseTooHigh =>
    obtain ⟨lead, hlead, hstands⟩ := h
    have hdigits := (hlead ▸ hstands.right).on
    refine Holds.points ?_ rfl
    exact ((holds_error _ _).context (hstands.on_of_width hlead) _).label hdigits _
  | numberOrName =>
    refine Holds.points ?_ rfl
    exact (holds_error _ _).label (StandsAt.on h) _
  | mismatchedCloser opener closer expected found =>
    have hopener := (holds_error (p := IsBoundary source) .mismatchedCloser
      "Mismatched opening and closing delimiters").context h.1 "Opening delimiter"
    unfold diagnostic mismatchedCloserDiagnostic
    dsimp only
    split
    · refine Holds.points ?_ rfl
      exact hopener.label h.2 _
    · refine Holds.points ?_ rfl
      exact hopener.label h.2 _
  | shiftInTypeParam =>
    refine Holds.points ?_ rfl
    exact ((holds_error _ _).label h.2 _).context (Span.on_point h.1) _
  | noToken =>
    refine Holds.points ?_ rfl
    exact (holds_error _ _).label (Span.on_point h) _
  | unterminated context opener closer stop => exact unterminatedDiagnostic_points context closer h.1 h.2

end LexError

/-! ## §5 Outcomes -/

section Outcomes

variable {ε δ α β : Type} {r : ε → Prop} {q : α → Prop} {x : Except (Failure ε) α}

/-- **`Concludes`** — an outcome that is no fault: a result satisfies `q`, and the cause of a refusal
satisfies `r`. -/
def Concludes (r : ε → Prop) (q : α → Prop) : Except (Failure ε) α → Prop
  | .ok a => q a
  | .error (.refused cause) => r cause
  | .error (.broken _) => False

namespace Concludes

theorem intro (hfaultless : Faultless x) (hok : ∀ a, x = .ok a → q a)
    (hrefused : ∀ cause, x = refuse cause → r cause) : Concludes r q x := by
  rcases x with (cause | fault) | a
  · exact hrefused cause rfl
  · exact hfaultless fault rfl
  · exact hok a rfl

theorem mono {q' : α → Prop} (h : Concludes r q x) (hq : ∀ a, x = .ok a → q a → q' a) :
    Concludes r q' x := by
  rcases x with (cause | fault) | a
  · exact h
  · exact h
  · exact hq a rfl h

theorem bind {q' : β → Prop} {g : α → Except (Failure ε) β} (h : Concludes r q x)
    (hg : ∀ a, x = .ok a → q a → Concludes r q' (g a)) : Concludes r q' (x >>= g) := by
  rcases x with (cause | fault) | a
  · exact h
  · exact h
  · exact hg a rfl h

/-- The cause may be said in other terms. -/
theorem mapError {r' : δ → Prop} {f : ε → δ} (h : Concludes r q x) (hr : ∀ cause, r cause → r' (f cause)) :
    Concludes r' q (x.mapError (.map f)) := by
  rcases x with (cause | fault) | a
  · exact hr cause h
  · exact h
  · exact h

end Concludes

end Outcomes

end DewyFront
