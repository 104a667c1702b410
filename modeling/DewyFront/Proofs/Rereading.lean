/-
# DewyFront.Proofs.Rereading — a scan comes to the same place with another text there

A scan that comes to a place in front of a letter goes there in steps that look no further than they have
to. With a zero or an opening parenthesis there instead, it takes the same steps and comes to the same
state. What has to be known of the place is known of the state there: that a number does not end right
in front of it, and that no delimiter of an enclosing string could end behind it. Going back from the place
step by step, the same is known of every state on the way.

* §1 the matches of a step;
* §2 zeros in front;
* §3 states in front of the place;
* §4 the same steps.
-/
import DewyFront.Proofs.Replacing

namespace DewyFront

variable {t x y rest source : Text} {c d : Char} {config : LexerConfig}

/-! ## §1 The matches of a step -/

namespace View

variable {ms : List Match}

/-- The greatest length is that of a match. -/
theorem longest_ne_nil (h : ms ≠ []) : longest ms ≠ [] := by
  intro hnil
  have hlt : ∀ m ∈ ms, m.length < greatestLength ms := by
    intro m hm
    refine Nat.lt_of_le_of_ne (length_le_greatestLength hm) fun heq => ?_
    have hmem := mem_longest.mpr ⟨hm, heq⟩
    rw [hnil] at hmem
    cases hmem
  have hle : greatestLength ms ≤ greatestLength ms - 1 :=
    greatestLength_le fun m hm => Nat.le_sub_one_of_lt (hlt m hm)
  obtain ⟨m, hm⟩ := List.exists_mem_of_ne_nil ms h
  have hpos := hlt m hm
  omega

/-- **Where there are matches, some is left**: what others give way to gives way to nothing. -/
theorem winners_ne_nil (h : ms ≠ []) : winners ms ≠ [] := by
  obtain ⟨m, hm⟩ := List.exists_mem_of_ne_nil _ (longest_ne_nil h)
  by_cases hloses : losesTo (longest ms) m = true
  · obtain ⟨p, hp, hbeats⟩ := List.any_eq_true.mp hloses
    obtain ⟨w, hw, hkind⟩ := List.any_eq_true.mp (Bool.and_eq_true_iff.mp hbeats).2
    exact List.ne_nil_of_mem (mem_winners.mpr ⟨hw, losesTo_eq_false hp (eq_of_beq hkind) _⟩)
  · exact List.ne_nil_of_mem (mem_winners.mpr ⟨hm, Bool.eq_false_iff.mpr hloses⟩)

theorem matchesOf_congr {v w : View} {kinds : List TokenKind}
    (h : ∀ kind ∈ kinds, w.matchKind kind = v.matchKind kind) : w.matchesOf kinds = v.matchesOf kinds := by
  induction kinds with
  | nil => rfl
  | cons kind kinds ih =>
    rw [matchesOf, matchesOf, h kind List.mem_cons_self,
      ih fun kind hkind => h kind (List.mem_cons_of_mem _ hkind)]

end View

namespace Scan

variable {s next : Scan} {n : Nat} {kind : TokenKind}

/-- **A step takes the match that stands**, or there is no match and it skips control characters. -/
theorem step_cases (h : s.step config rest = .ok (next, n)) :
    (∃ m : View.Match, m.length = n ∧ Stands (s.view config rest) m ∧
      Takes s m.kind (rest.take n) next) ∨
    ((∀ kind, kind.isLegalIn (s.view config rest).context.kind = true →
      (s.view config rest).matchKind kind = .ok none) ∧ 0 < Lexicon.controlLength rest ∧
      next.stack = s.stack) := by
  obtain ⟨ms, hms, ⟨m, hm, rfl, htaken⟩ | ⟨hnone, -, hrun, rfl, rfl⟩⟩ := cases_of_step h
  · have hstands := stands_of_winners hms hm
    exact .inl ⟨m, rfl, hstands, takes_of_take htaken hstands.legal⟩
  · have hnil : ms = [] := by
      by_contra hne
      exact View.winners_ne_nil hne hnone
    subst hnil
    obtain ⟨hall, hmem⟩ := View.mem_of_matchesOf hms
    refine .inr ⟨fun kind hlegal => ?_, hrun, rfl⟩
    have hcandidate : kind ∈ TokenKind.candidates (s.view config rest).context.kind :=
      List.mem_filter.mpr ⟨mem_all kind, hlegal⟩
    obtain ⟨found, hfound⟩ := hall kind hcandidate
    cases found with
    | none => exact hfound
    | some k => exact absurd ((hmem ⟨kind, k⟩).mpr ⟨hcandidate, hfound⟩) List.not_mem_nil

/-- A step takes as much as anything that matches. -/
theorem within_of_step (h : s.step config rest = .ok (next, n))
    (hlegal : kind.isLegalIn (s.view config rest).context.kind = true) :
    ∃ found, (s.view config rest).matchKind kind = .ok found ∧ ∀ k, found = some k → k ≤ n := by
  rcases step_cases h with ⟨m, rfl, hstands, -⟩ | ⟨hnone, -⟩
  · obtain ⟨found, hfound, hothers⟩ := hstands.others kind hlegal
    exact ⟨found, hfound, fun k hk => (hothers k hk).1⟩
  · exact ⟨none, hnone kind hlegal, fun k hk => by cases hk⟩

end Scan

/-! ## §2 Zeros -/

/-- Kinds that may begin with a zero. -/
def TokenKind.isLed : TokenKind → Bool
  | number | basedStringOpener | basedBlockOpener => true
  | _ => false

namespace View

variable {v : View} {m : Match} {kind : TokenKind}

/-- In an expression few kinds begin with a zero. -/
theorem matchKind_zero (hcontext : v.context.kind.isExpression = true)
    (hlegal : kind.isLegalIn v.context.kind = true) (hrest : v.rest = '0' :: t)
    (hkind : kind.isLed = false) : v.matchKind kind = .ok none := by
  have htext := TokenKind.isInnerText_eq_false hcontext hlegal
  cases kind with
  | number | basedStringOpener | basedBlockOpener => cases hkind
  | stringCloser | heredocCloser | stringText | stringEscape | holeEscape | rawStringText
  | basedStringText => cases htext
  | blockComment =>
    rw [matchKind, blockComment, hrest]
    rfl
  | exponent =>
    rw [matchKind, exponent, hrest]
    split
    · next heq =>
      cases heq
      rfl
    · rfl
  | heredocOpener | rawHeredocOpener =>
    refine heredoc_of_not_sigil ?_
    rw [hrest]
    rfl
  | _ =>
    rw [matchKind, hrest]
    rfl

/-- **Behind a lead something else belongs to the token.** -/
theorem three_le_of_lead (hcontext : v.context.kind.isExpression = true) (hstands : Scan.Stands v m)
    (hlead : (Radix.ofLead? v.rest).isSome = true) : 3 ≤ m.length := by
  obtain ⟨base, hbase⟩ := Option.isSome_iff_exists.mp hlead
  obtain ⟨l, u, hrest, -⟩ := Radix.ofLead?_eq_some hbase
  have htaken := hstands.taken
  cases hled : m.kind.isLed with
  | false =>
    rw [matchKind_zero hcontext hstands.legal hrest hled] at htaken
    cases htaken
  | true =>
    generalize m.kind = kind at hled htaken
    cases kind with
    | number =>
      rw [matchKind, numberAt, hbase] at htaken
      dsimp only at htaken
      split at htaken
      · next hdigit =>
        split at htaken
        · cases htaken
        · have hrun : 0 < digitRun base (v.rest.drop 2) := by
            refine runLength_pos_of_head? ?_
            cases hhead : (v.rest.drop 2).head? with
            | none =>
              rw [hhead] at hdigit
              cases hdigit
            | some a =>
              rw [hhead, Option.any_some] at hdigit
              rw [Option.any_some, hdigit]
              rfl
          have hlength := Option.some.inj (Except.ok.inj htaken)
          omega
      · cases htaken
    | basedStringOpener => exact three_le_of_basedString (Except.ok.inj htaken)
    | basedBlockOpener =>
      have htaken := Except.ok.inj htaken
      unfold basedBlock at htaken
      split at htaken
      · exact Nat.le_of_eq (Option.some.inj htaken)
      · cases htaken
    | _ => cases hled

end View

/-! ## §3 States -/

namespace View

/-- What is known behind the first characters of a text is known of their end. -/
theorem EndsBefore.back {n : Nat} {e : Text} {hasHoles : Bool} (hn : n ≤ t.length)
    (h : EndsBefore 0 (t.drop n) (rest.drop n) d hasHoles e) : EndsBefore n t rest d hasHoles e := by
  obtain ⟨hbegins, hsafe⟩ := h
  rw [List.drop_zero, Nat.zero_add, List.length_drop] at hbegins
  rw [Nat.zero_add, List.length_drop] at hsafe
  constructor
  · intro hprefix
    have hle := hbegins hprefix
    omega
  · rcases hsafe with hle | ⟨hholes, hbrace, hlacks⟩
    · left
      omega
    · exact .inr ⟨hholes, List.mem_of_mem_drop hbrace, hlacks⟩

/-- What opens a hole has a brace. -/
theorem brace_mem_of_hole {v : View} {kind : TokenKind} {n : Nat}
    (hkind : kind = .leftBrace ∨ kind = .holeEscape) (h : v.matchKind kind = .ok (some n)) :
    '\x7b' ∈ v.rest.take n := by
  rcases hkind with rfl | rfl
  · have h := Except.ok.inj h
    unfold single at h
    split at h
    · next hhead =>
      cases h
      obtain ⟨more, hmore⟩ := List.head?_eq_some_iff.mp hhead
      rw [hmore]
      exact List.mem_cons_self
    · cases h
  · have h := Except.ok.inj h
    unfold holeEscape at h
    split at h
    · next heq =>
      split at h
      · cases h
        rw [heq]
        simp
      · cases h
    · cases h

end View

namespace Scan

variable {s next : Scan} {n : Nat}

/-- **`IsBehindNumber`** — the last token is a number, and it ends where the scan stands. -/
def IsBehindNumber (s : Scan) : Prop :=
  ∃ span : Span, s.tokens.pieces.getLast? = some (.number, span) ∧ span.stop = s.offset

/-- **`Unaffected`** — a state with some text up to a place and more behind the place. At the place stands
an expression, and a number ends there only if a parenthesis stands there now. What ends the string
around the state ends in front of the place or begins with a hole, and what ends a string further out
could not go on with what stands there now, unless it is too short. -/
structure Unaffected (s : Scan) (t x : Text) (d : Char) : Prop where
  place : t = [] → s.top.kind.isExpression = true ∧ (d = '(' ∨ ¬ s.IsBehindNumber)
  inner : ∀ closer e, s.top.IsEndedBy closer e →
    View.EndsBefore 0 t (t ++ x) d (s.top.kind == .stringBody) e
  outer : ∀ context ∈ s.stack.tail, ∀ closer e, context.IsEndedBy closer e →
    e.length ≤ t.length ∨ ('\x7b' ∈ e → d ∉ e)

/-- Only where no context is left does the root stand for the innermost one. -/
theorem top_mem_of_ne_root (h : s.top.kind ≠ .root) : s.top ∈ s.stack := by
  unfold Scan.top at h ⊢
  cases hstack : s.stack with
  | nil =>
    rw [hstack] at h
    exact absurd rfl h
  | cons context stack => exact List.mem_cons_self

theorem eq_top_or_mem_tail {context : Context} (h : context ∈ s.stack) :
    context = s.top ∨ context ∈ s.stack.tail := by
  unfold Scan.top
  cases hstack : s.stack with
  | nil =>
    rw [hstack] at h
    cases h
  | cons first stack =>
    rw [hstack] at h
    exact List.mem_cons.mp h

/-- A string opens nothing but holes, and only if it has any. -/
theorem hole_of_isOpener {kind : TokenKind} {context : ContextKind}
    (hcontext : context.isExpression = false) (hlegal : kind.isLegalIn context = true)
    (hopener : kind.isOpener = true) :
    context = .stringBody ∧ (kind = .leftBrace ∨ kind = .holeEscape) := by
  revert hcontext hlegal hopener
  cases context <;> cases kind <;> decide

/-- What ends the string, and matches, is no longer than the step. -/
theorem length_le_of_step (hstep : s.step config rest = .ok (next, n)) {closer : TokenKind} {e : Text}
    (he : s.top.IsEndedBy closer e) (hbegin : e.isPrefixOf rest = true) : e.length ≤ n := by
  have hview : (s.view config rest).context.IsEndedBy closer e := he
  obtain ⟨found, hfound, hle⟩ := within_of_step hstep hview.isLegalIn
  rw [hview.matchKind_eq] at hfound
  have hbegin : e.isPrefixOf (s.view config rest).rest = true := hbegin
  rw [if_pos hbegin] at hfound
  exact hle _ (Except.ok.inj hfound).symm

/-- **Going back over a step**, what is known of the state behind it is known of the one in front. -/
theorem Unaffected.of_step (hs : Grounded source s (t ++ x))
    (hstep : s.step config (t ++ x) = .ok (next, n)) (hn : n ≤ t.length)
    (h : next.Unaffected (t.drop n) x d) : s.Unaffected t x d := by
  have hplace : t ≠ [] := by
    rintro rfl
    exact absurd hn (Nat.not_le_of_lt ((steps_of_step hstep).bounds hs).1)
  have hbegins : ∀ closer e, s.top.IsEndedBy closer e → e.isPrefixOf (t ++ x) = true →
      0 + e.length ≤ t.length := by
    intro closer e he hprefix
    rw [Nat.zero_add]
    exact Nat.le_trans (length_le_of_step hstep he hprefix) hn
  have hless : ∀ {k}, k ≤ (t.drop n).length → k ≤ t.length := by
    intro k hk
    exact Nat.le_trans hk (List.length_drop ▸ Nat.sub_le _ _)
  -- Where the step leaves the contexts as they are, only the text has become shorter.
  have hsame : next.stack = s.stack → s.Unaffected t x d := by
    intro hstack
    have htop : next.top = s.top := by rw [Scan.top, Scan.top, hstack]
    refine ⟨fun ht => absurd ht hplace, fun closer e he => ⟨hbegins closer e he, ?_⟩,
      fun context hcontext closer e he => ?_⟩
    · have hsafe := (h.inner closer e (htop ▸ he)).2
      rw [htop, Nat.zero_add] at hsafe
      rw [Nat.zero_add]
      refine hsafe.imp hless fun hhole => ?_
      obtain ⟨hholes, hbrace, hlacks⟩ := hhole
      exact ⟨hholes, List.mem_of_mem_drop hbrace, hlacks⟩
    · rw [← hstack] at hcontext
      exact (h.outer context hcontext closer e he).imp_left hless
  rcases step_cases hstep with ⟨m, rfl, hstands, htakes⟩ | ⟨-, -, hstack⟩
  · cases htakes with
    | plain => exact hsame rfl
    | @enter inside hinside =>
      refine ⟨fun ht => absurd ht hplace, fun closer e he => ⟨hbegins closer e he, ?_⟩,
        fun context hcontext closer e he => ?_⟩
      · -- In a string only holes are opened, and what opens one has a brace.
        obtain ⟨hkind, hhole⟩ := hole_of_isOpener he.isExpression_eq_false hstands.legal
          (isOpener_of_context? hinside)
        have hbrace := View.brace_mem_of_hole hhole hstands.taken
        have htop : s.top ∈ s.stack := top_mem_of_ne_root (by rw [hkind]; decide)
        rw [Nat.zero_add]
        refine (h.outer s.top htop closer e he).imp hless fun hlacks => ⟨beq_iff_eq.mpr hkind, ?_, hlacks⟩
        have hfront : (t ++ x).take m.length = t.take m.length := List.take_append_of_le_length hn
        exact List.mem_of_mem_take (hfront ▸ hbrace)
      · exact (h.outer context (List.mem_of_mem_tail hcontext) closer e he).imp_left hless
    | @leave opener hcloser hopener hcloses =>
      refine ⟨fun ht => absurd ht hplace, fun closer e he => ⟨hbegins closer e he, .inl ?_⟩,
        fun context hcontext closer e he => ?_⟩
      · have htaken : e = (t ++ x).take m.length := eq_take_of_closes hstands.taken hcloses he.text?_eq
        rw [Nat.zero_add, htaken, List.length_take]
        exact Nat.le_trans (Nat.min_le_left _ _) hn
      · rcases eq_top_or_mem_tail (s := (s.record m.kind ((t ++ x).take m.length)).leave opener
          s.tokens.size) hcontext with rfl | hcontext
        · have hsafe := (h.inner closer e he).2
          rw [Nat.zero_add] at hsafe
          exact hsafe.imp hless fun hhole => hhole.2.2
        · exact (h.outer context hcontext closer e he).imp_left hless
  · exact hsame hstack

/-- What is taken without beginning or ending a context is recorded. -/
theorem Takes.top_eq {kind : TokenKind} {lexeme : Text} (h : Takes s kind lexeme next)
    (hopener : kind.isOpener = false) (hcloser : kind.isCloser = false) : next.top = s.top := by
  cases h with
  | plain => rfl
  | enter hc =>
    rw [isOpener_of_context? hc] at hopener
    cases hopener
  | leave h =>
    rw [h] at hcloser
    cases hcloser

/-- **A match that could go on is the one that a step takes**, if it is as long. -/
theorem takes_of_goesOn (hstep : s.step config rest = .ok (next, n)) {kind : TokenKind}
    (hlegal : kind.isLegalIn (s.view config rest).context.kind = true) (hgoes : kind.goesOn d = true)
    (hmatch : (s.view config rest).matchKind kind = .ok (some n)) :
    Takes s kind (rest.take n) next ∧ next.top = s.top := by
  rcases step_cases hstep with ⟨m, rfl, hstands, htakes⟩ | ⟨hnone, -⟩
  · have hname : ∀ p ∈ TokenKind.precedence, p.2 ≠ kind := by
      rintro p hp rfl
      have hnames : ∀ p ∈ TokenKind.precedence, p.2 = .name := by decide
      rw [hnames p hp] at hgoes
      cases hgoes
    have hkind : m.kind = kind := (View.eq_of_stands hstands hlegal hmatch (Nat.le_refl _) hname).1
    rw [hkind] at htakes
    refine ⟨htakes, htakes.top_eq ?_ ?_⟩ <;> cases kind <;> first | rfl | cases hgoes
  · rw [hnone kind hlegal] at hmatch
    cases hmatch

/-- **The text of a string is taken as far as it goes**, where it has begun. -/
theorem length_eq_of_step (hstep : s.step config rest = .ok (next, n)) {hasHoles : Bool}
    {closer : TokenKind} {e : Text} (h : Interior s.top hasHoles closer e) {k : Nat}
    (hmatch : (s.view config rest).matchKind (Interior.textKind hasHoles) = .ok (some k)) : k = n := by
  have htext := h.matchKind_text (v := s.view config rest) rfl
  have hlength : View.positive (View.bodyLength (some e) hasHoles rest) = some k :=
    Except.ok.inj (htext.symm.trans hmatch)
  have hne : View.bodyLength (some e) hasHoles rest ≠ 0 := by
    intro hzero
    rw [hzero] at hlength
    cases hlength
  rw [View.positive, if_neg hne] at hlength
  cases hlength
  generalize hk : View.bodyLength (some e) hasHoles rest = k at hmatch hne
  have hle : k ≤ rest.length := hk ▸ View.bodyLength_le (some e) hasHoles rest
  have htake : (rest.take k).length = k := by rw [List.length_take, Nat.min_eq_left hle]
  have hfits : s.top.Fits (Interior.textKind hasHoles) (rest.take k) (rest.drop k) := by
    refine h.fits_text (List.ne_nil_of_length_pos (by omega)) ?_
    rw [List.take_append_drop, hk, htake]
  have hstands : Stands (s.view config rest) ⟨Interior.textKind hasHoles, k⟩ :=
    htake ▸ hfits (s.view config rest) rfl (List.take_append_drop k rest).symm
  rcases step_cases hstep with ⟨m, rfl, hm, -⟩ | ⟨hnone, -⟩
  · obtain ⟨found, hfound, hless⟩ := hm.others _ hstands.legal
    obtain ⟨found', hfound', hless'⟩ := hstands.others _ hm.legal
    have hlow := (hless k (Except.ok.inj (hfound.symm.trans hmatch))).1
    have hhigh := (hless' m.length (Except.ok.inj (hfound'.symm.trans hm.taken))).1
    exact Nat.le_antisymm hlow hhigh
  · rw [hnone _ hstands.legal] at hmatch
    cases hmatch

/-- **What matches in a state on the way ends in front of the place.** -/
theorem Unaffected.endsIn (hs : Grounded source s (t ++ x))
    (hstep : s.step config (t ++ x) = .ok (next, n)) (hn : n ≤ t.length)
    (h : next.Unaffected (t.drop n) x d) : (s.view config (t ++ x)).EndsIn t d := by
  refine ⟨fun kind hlegal => ?_, fun kind hlegal hgoes k hmatch => ?_, fun hcontext hlead => ?_,
    (h.of_step hs hstep hn).inner, fun hasHoles hkind k hmatch closer e he => ?_⟩
  · obtain ⟨found, hfound, hle⟩ := within_of_step hstep hlegal
    exact ⟨found, hfound, fun k hk => Nat.le_trans (hle k hk) hn⟩
  · obtain ⟨found, hfound, hle⟩ := within_of_step hstep hlegal
    have hk : k ≤ n := hle k (Except.ok.inj (hfound.symm.trans hmatch))
    refine Nat.lt_of_le_of_ne (Nat.le_trans hk hn) fun heq => ?_
    have hkn : k = n := by omega
    subst hkn
    obtain ⟨htakes, htop⟩ := takes_of_goesOn hstep hlegal hgoes hmatch
    have hnil : t.drop k = [] := by rw [heq, List.drop_length]
    obtain ⟨hexpression, hnumber⟩ := h.place hnil
    rw [htop] at hexpression
    cases kind with
    | number =>
      refine hnumber.elim (bne_iff_ne.mp hgoes) fun hbehind => hbehind
        ⟨⟨s.offset, s.offset + width ((t ++ x).take k)⟩, ?_, htakes.offset_eq.symm⟩
      rw [htakes.pieces_eq, List.getLast?_append, List.getLast?_singleton, Option.some_or]
    | stringText | rawStringText | basedStringText =>
      have hkinds := TokenKind.isInnerText_eq_false hexpression hlegal
      cases hkinds
    | _ => cases hgoes
  · rcases step_cases hstep with ⟨m, rfl, hstands, -⟩ | ⟨-, hrun, -⟩
    · exact Nat.le_trans (View.three_le_of_lead hcontext hstands hlead) hn
    · obtain ⟨base, hbase⟩ := Option.isSome_iff_exists.mp hlead
      obtain ⟨l, u, hrest, -⟩ := Radix.ofLead?_eq_some hbase
      have hrest : t ++ x = '0' :: l :: u := hrest
      rw [hrest] at hrun
      cases hrun
  · have he : s.top.IsEndedBy closer e := he
    have hkind : s.top.kind = Interior.bodyKind hasHoles := hkind
    have hinterior := he.interior hkind
    have hlegal : _ = true := Interior.isLegalIn_of_bodyKind hkind
    have hgoes : (Interior.textKind hasHoles).goesOn d = true := by cases hasHoles <;> rfl
    have hkn : k = n := length_eq_of_step hstep hinterior hmatch
    subst hkn
    obtain ⟨-, htop⟩ := takes_of_goesOn hstep hlegal hgoes hmatch
    rw [← htop] at he hkind
    have hbefore := h.inner closer e he
    rw [← List.drop_append_of_le_length hn, Interior.beq_of_bodyKind hkind] at hbefore
    exact hbefore.back hn

/-! ## §4 The same steps -/

/-- **The same step is taken**, whatever stands at the place now. -/
theorem step_swap (hc : c ∈ letters) (hd : d ∈ leads) (ht : t ≠ [])
    (hends : (s.view config (t ++ c :: x)).EndsIn t d)
    (hstep : s.step config (t ++ c :: x) = .ok (next, n)) (hn : n ≤ t.length) :
    s.step config (t ++ d :: y) = .ok (next, n) := by
  have hmatches : (s.view config (t ++ d :: y)).allMatches = (s.view config (t ++ c :: x)).allMatches := by
    refine View.matchesOf_congr fun kind hkind => ?_
    exact hends.matchKind_eq hc hd ht rfl (List.mem_filter.mp hkind).2
  have hcontrol : ∀ a ∈ letters ++ leads, Lexicon.isIllegalControl a = false :=
    List.all_iff_forall_prop.mp (by decide)
  have hrun : Lexicon.controlLength (t ++ d :: y) = Lexicon.controlLength (t ++ c :: x) := by
    rw [Lexicon.controlLength, Lexicon.controlLength,
      runLength_append_cons (hcontrol c (List.mem_append_left _ hc)),
      runLength_append_cons (hcontrol d (List.mem_append_right _ hd))]
  have hchevron : s.isSecondChevron (t ++ d :: y) = s.isSecondChevron (t ++ c :: x) := by
    rw [isSecondChevron, isSecondChevron, List.head?_append_of_ne_nil t ht,
      List.head?_append_of_ne_nil t ht]
  have htake : ∀ {k}, k ≤ t.length → (t ++ d :: y).take k = (t ++ c :: x).take k := by
    intro k hk
    rw [List.take_append_of_le_length hk, List.take_append_of_le_length hk]
  obtain ⟨ms, hms, hcase⟩ := cases_of_step hstep
  unfold step
  refine bind_ok_iff.mpr ⟨ms, mapError_ok_iff.mpr (hmatches.trans hms), ?_⟩
  rcases hcase with ⟨m, hm, rfl, htaken⟩ | ⟨hnone, hsecond, hpos, rfl, rfl⟩
  · rw [hm]
    exact bind_ok_iff.mpr ⟨_, htake hn ▸ htaken, rfl⟩
  · rw [hnone]
    dsimp only
    rw [hchevron, if_neg hsecond, hrun, if_pos hpos, htake hn]
    rfl

/-- **A scan comes to the place in the same state**, whatever stands there now. -/
theorem Reaches.swap {pre : Text} (h : Reaches config source s rest) (hsource : source = pre ++ c :: x)
    (hc : c ∈ letters) (hd : d ∈ leads) {t : Text} (hrest : rest = t ++ c :: x)
    (hs : s.Unaffected t (c :: x) d) (y : Text) :
    Reaches config (pre ++ d :: y) s (t ++ d :: y) := by
  induction h generalizing t with
  | start =>
    have hfront : t = pre := List.append_cancel_right (hrest.symm.trans hsource)
    exact hfront ▸ .start
  | @step s next rest n h hne hstep ih =>
    have hground := h.grounded
    obtain ⟨hpos, hle⟩ := (steps_of_step hstep).bounds hground
    -- The step takes a front of what is left, and the rest of the way stands behind it.
    have hsplit : rest = (rest.take n ++ t) ++ c :: x := by
      rw [List.append_assoc, ← hrest, List.take_append_drop]
    have hlength : (rest.take n).length = n := by rw [List.length_take, Nat.min_eq_left hle]
    generalize hfront : rest.take n = front at hsplit hlength
    subst hsplit hlength
    have hn : front.length ≤ (front ++ t).length := by
      rw [List.length_append]
      exact Nat.le_add_right _ _
    have hnext : next.Unaffected ((front ++ t).drop front.length) (c :: x) d := by
      rw [List.drop_left]
      exact hs
    have hbefore := ih rfl (hnext.of_step hground hstep hn)
    have hends := hnext.endsIn hground hstep hn
    have hne : front ++ t ≠ [] := List.append_ne_nil_of_left_ne_nil (List.ne_nil_of_length_pos hpos) t
    have hswapped := hbefore.step (List.append_ne_nil_of_left_ne_nil hne _)
      (step_swap hc hd hne hends hstep hn)
    rwa [List.append_assoc, List.drop_left] at hswapped

end Scan

end DewyFront
