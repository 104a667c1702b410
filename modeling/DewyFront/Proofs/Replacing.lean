/-
# DewyFront.Proofs.Replacing — the same tokens in front of another text

Where a scan stands in front of a letter, with a zero or an opening parenthesis there instead it takes the
same steps on the way. Only a number that reaches the place would go on with a zero, and only a delimiter
of an enclosing string could begin in front of the place and go on behind it.

* §1 numbers;
* §2 what ends a string;
* §3 matchers.
-/
import DewyFront.Proofs.Lookahead

namespace DewyFront

variable {t x y : Text} {c d : Char}

namespace View

variable {v : View}

/-! ## §1 Numbers -/

/-- A run of digits that ends in the front ends where it did, unless it reaches the place and a zero stands
there now. -/
theorem digitRun_swap {base : Radix} (hle : digitRun base (t ++ c :: x) ≤ t.length)
    (hlast : d = '(' ∨ digitRun base (t ++ c :: x) < t.length) :
    digitRun base (t ++ d :: y) = digitRun base (t ++ c :: x) := by
  rcases hlast with rfl | hlt
  · have hnone : (base.isDigit '(' || '(' == '_') = false := by
      rw [Radix.isDigit_mark (by decide) base]
      rfl
    exact runLength_swap hle fun h => absurd (h.symm.trans hnone) (by decide)
  · have hfront : runLength (fun a => base.isDigit a || a == '_') t < t.length := by
      by_contra hge
      have hall := of_runLength_eq (Nat.le_of_not_lt hge)
      exact absurd (length_le_runLength_append hall (c :: x)) (Nat.not_le_of_lt hlt)
    rw [digitRun, digitRun, runLength_append_of_lt hfront, runLength_append_of_lt hfront]

/-- The same lead begins a text, if something of the front stands behind it. -/
theorem ofLead?_swap (hd : d ∈ leads) (ht : t ≠ [])
    (hlead : (Radix.ofLead? (t ++ c :: x)).isSome = true → 3 ≤ t.length) :
    Radix.ofLead? (t ++ d :: y) = Radix.ofLead? (t ++ c :: x) := by
  rcases t with _ | ⟨a, _ | ⟨b, t⟩⟩
  · exact absurd rfl ht
  · cases hold : Radix.ofLead? ([a] ++ c :: x) with
    | none => exact ofLead?_cons_lead hd a y
    | some base => exact absurd (hlead (by rw [hold]; rfl)) (by simp)
  · exact (ofLead?_cons_cons a b _).trans (ofLead?_cons_cons a b _).symm

/-- **A number that ends in the front is the same.** -/
theorem numberAt_swap (hd : d ∈ leads) (ht : t ≠ [])
    (hlead : (Radix.ofLead? (t ++ c :: x)).isSome = true → 3 ≤ t.length) {start : Nat}
    {found : Option Nat} (h : v.numberAt start (t ++ c :: x) = .ok found)
    (hle : ∀ n, found = some n → n ≤ t.length) (hlast : d = '(' ∨ ∀ n, found = some n → n < t.length) :
    v.numberAt start (t ++ d :: y) = .ok found := by
  unfold numberAt at h ⊢
  rw [ofLead?_swap hd ht hlead]
  -- With a lead, three characters stand in the front: those of the lead and a digit.
  cases hold : Radix.ofLead? (t ++ c :: x) with
  | some base =>
    obtain ⟨a, b, e, t, rfl⟩ : ∃ a b e r, t = a :: b :: e :: r := by
      have hthree := hlead (by rw [hold]; rfl)
      rcases t with _ | ⟨a, _ | ⟨b, _ | ⟨e, t⟩⟩⟩
      · exact absurd rfl ht
      · exact absurd hthree (by simp)
      · exact absurd hthree (by simp)
      · exact ⟨a, b, e, t, rfl⟩
    rw [hold] at h
    have hdrop : ∀ z : Text, (a :: b :: e :: t ++ z).drop 2 = e :: t ++ z := fun z => rfl
    dsimp only at h ⊢
    rw [hdrop] at h ⊢
    rw [List.cons_append, List.head?_cons] at h ⊢
    split at h
    · next hdigit =>
      rw [if_pos hdigit]
      split at h
      · cases h
      · next hradix =>
        cases h
        have hrun : digitRun base (e :: t ++ d :: y) = digitRun base (e :: t ++ c :: x) := by
          refine digitRun_swap ?_ (hlast.imp_right fun hshort => ?_)
          · have hlong : 2 + digitRun base (e :: t ++ c :: x) ≤ t.length + 3 := hle _ rfl
            rw [List.length_cons]
            omega
          · have hlong : 2 + digitRun base (e :: t ++ c :: x) < t.length + 3 := hshort _ rfl
            rw [List.length_cons]
            omega
        rw [List.cons_append, List.cons_append] at hrun
        rw [if_neg hradix, hrun]
    · next hdigit => rw [if_neg hdigit]; exact h
  | none =>
    have hhead : ∀ z : Text, (t ++ z).head? = t.head? := fun z => List.head?_append_of_ne_nil t ht
    rw [hold] at h
    dsimp only at h ⊢
    rw [hhead] at h ⊢
    split at h
    · next hdigit =>
      cases h
      rw [if_pos hdigit, digitRun_swap (hle _ rfl) (hlast.imp_right fun hshort => hshort _ rfl)]
    · next hdigit => rw [if_neg hdigit]; exact h

/-- An exponent is a marker with a number behind it. -/
theorem exponent_of_rest {a : Char} (hprevious : v.previous = some .number) (hrest : v.rest = a :: t) :
    v.exponent = if a = 'e' ∨ a = 'E' ∨ a = 'p' ∨ a = 'P'
      then (v.numberAt (v.start + 1) t).map (·.map (· + 1)) else .ok none := by
  rw [exponent, hprevious, hrest]

end View

/-- Digits have codes of one byte. -/
theorem Radix.toNat_lt_of_isDigit {base : Radix} (h : base.isDigit c = true) : c.toNat < 123 := by
  have hrange : ∀ {low high : Char}, high.toNat < 123 → low ≤ c ∧ c ≤ high → c.toNat < 123 :=
    fun hhigh hc => Nat.lt_of_le_of_lt (UInt32.le_iff_toNat_le.mp hc.2) hhigh
  have hvalue : ∀ {p : Nat → Bool}, (digitValue? c).any p = true → c.toNat < 123 := by
    intro p hp
    unfold digitValue? at hp
    split_ifs at hp with hdigit hlower hupper
    · exact hrange (by decide) hdigit
    · exact hrange (by decide) hlower
    · exact hrange (by decide) hupper
    · cases hp
  have hdigit : c.isDigit = true → c.toNat < 123 := by
    intro hc
    obtain ⟨hlow, hhigh⟩ := Bool.and_eq_true_iff.mp hc
    exact hrange (show '9'.toNat < 123 by decide) ⟨of_decide_eq_true hlow, of_decide_eq_true hhigh⟩
  cases base with
  | dozenal =>
    simp only [isDigit, Bool.or_eq_true, beq_iff_eq] at h
    rcases h with (((h | rfl) | rfl) | rfl) | rfl
    · exact hdigit h
    all_goals decide
  | base64 =>
    simp only [isDigit, Char.isAlphanum, Bool.or_eq_true, beq_iff_eq] at h
    rcases h with (((((h | h) | rfl) | rfl) | rfl) | rfl) | rfl
    · exact toNat_lt_of_letter (mem_letters_of_isAlpha h)
    · exact hdigit h
    all_goals decide
  | _ => exact hvalue h

/-- In every base but 64, digits may stand in a name. -/
theorem Radix.isNameContinue_of_isDigit {base : Radix} (hbase : base ≠ .base64)
    (h : base.isDigit c = true) : Lexicon.isNameContinue c = true := by
  have hcodes : ∀ base ∈ Radix.all, base ≠ .base64 → ∀ n < 123, base.isDigit (Char.ofNat n) = true →
      Lexicon.isNameContinue (Char.ofNat n) = true := by decide +kernel
  exact of_toNat_lt (p := fun c => base.isDigit c = true → Lexicon.isNameContinue c = true)
    (hcodes base base.mem_all hbase) (toNat_lt_of_isDigit h) h

/-- A digit that a name may begin with is a letter. -/
theorem Radix.mem_letters_of_isDigit {base : Radix} (h : base.isDigit c = true)
    (hstart : Lexicon.isNameStart c = true) : c ∈ letters := by
  have hcodes : ∀ n < 123, Lexicon.isNameStart (Char.ofNat n) = true →
      (∃ base ∈ Radix.all, base.isDigit (Char.ofNat n) = true) → Char.ofNat n ∈ letters := by
    decide +kernel
  exact of_toNat_lt (p := fun c => Lexicon.isNameStart c = true →
    (∃ base ∈ Radix.all, base.isDigit c = true) → c ∈ letters) hcodes (toNat_lt_of_isDigit h) hstart
    ⟨base, base.mem_all, h⟩

/-- A base is named by a letter. -/
theorem Radix.mem_letters_of_ofLetter? {base : Radix} (h : ofLetter? c = some base) : c ∈ letters := by
  have hletter : base.letter = c.toLower := by simpa using List.find?_some h
  unfold Char.toLower at hletter
  split at hletter
  · next hupper =>
    have hisUpper : c.isUpper = true := decide_eq_true hupper
    exact mem_letters_of_isAlpha (Bool.or_eq_true_iff.mpr (.inl hisUpper))
  · rw [← hletter]
    cases base <;> decide

namespace View

variable {v : View}

/-- A number that reaches a letter has a base that the letter is no digit of, so that its characters may
stand in a name. -/
theorem isNameContinue_of_numberAt (hc : c ∈ letters) {start : Nat}
    (h : v.numberAt start (t ++ c :: x) = .ok (some t.length)) :
    ∀ b ∈ t, Lexicon.isNameContinue b = true := by
  have hscanned := scanned_of_numberAt h
  rw [List.take_left, List.drop_left] at hscanned
  generalize Tree.integerLit v.context.digitBase t = i at hscanned
  have hbase : i.base ≠ .base64 := by
    intro hbase
    have hdigit : ∀ c ∈ letters, Radix.base64.isDigit c = true := List.all_iff_forall_prop.mp (by decide)
    have hall : ∀ b ∈ Radix.unled t ++ [c], (i.base.isDigit b || b == '_') = true := by
      refine List.forall_mem_append.mpr ⟨fun b hb => ?_, List.forall_mem_singleton.mpr ?_⟩
      · simpa using hscanned.mem hb
      · rw [hbase, hdigit c hc]
        rfl
    have hlong := length_le_runLength_append hall x
    have hrun : runLength (fun b => i.base.isDigit b || b == '_') (Radix.unled t ++ c :: x) =
        (Radix.unled t).length := hscanned.run
    rw [List.append_assoc, List.singleton_append, hrun, List.length_append, List.length_singleton] at hlong
    omega
  have hunled : ∀ b ∈ Radix.unled t, Lexicon.isNameContinue b = true := by
    intro b hb
    rcases hscanned.mem hb with hdigit | rfl
    · exact Radix.isNameContinue_of_isDigit hbase hdigit
    · rfl
  unfold Radix.unled at hunled
  split at hunled
  · next hlead =>
    obtain ⟨base, hbase⟩ := Option.isSome_iff_exists.mp hlead
    obtain ⟨l, u, rfl, hletter⟩ := Radix.ofLead?_eq_some hbase
    refine List.forall_mem_cons.mpr ⟨rfl, List.forall_mem_cons.mpr ⟨?_, hunled⟩⟩
    exact Lexicon.isNameContinue_letter (Radix.mem_letters_of_ofLetter? hletter)
  · exact hunled

/-- A name that begins in the front and does not reach the letter behind it ends in the front, at some
character that no name goes on with. -/
theorem not_forall_isNameContinue {a : Char} (ha : a ∈ letters) (hc : c ∈ letters)
    (hname : Lexicon.nameLength (a :: (t ++ c :: x)) ≤ t.length + 1) :
    ¬ ∀ b ∈ t, Lexicon.isNameContinue b = true := by
  intro hall
  have hfront : ∀ b ∈ t ++ [c], (Lexicon.isNameContinue b || Lexicon.isDecoration b) = true := by
    refine List.forall_mem_append.mpr ⟨fun b hb => by rw [hall b hb]; rfl, ?_⟩
    refine List.forall_mem_singleton.mpr ?_
    rw [Lexicon.isNameContinue_letter hc, Bool.true_or]
  have hlong := length_le_runLength_append hfront x
  rw [List.append_assoc, List.length_append, List.singleton_append, List.length_singleton] at hlong
  rw [Lexicon.nameLength_cons (Lexicon.isNameStart_letter ha) (Lexicon.isDecoration_letter ha)] at hname
  omega

/-- A lead that ends behind the front, or with it, is a zero and a letter. -/
theorem three_le_of_not_forall (hbreak : ¬ ∀ b ∈ t, Lexicon.isNameContinue b = true)
    (hlead : (Radix.ofLead? (t ++ x)).isSome = true) : 3 ≤ t.length := by
  by_contra hshort
  obtain ⟨base, hbase⟩ := Option.isSome_iff_exists.mp hlead
  obtain ⟨l, u, hsplit, hletter⟩ := Radix.ofLead?_eq_some hbase
  have hl := Lexicon.isNameContinue_letter (Radix.mem_letters_of_ofLetter? hletter)
  rcases t with _ | ⟨b, _ | ⟨e, _ | ⟨e', t⟩⟩⟩
  · exact hbreak (List.forall_mem_nil _)
  · cases hsplit
    exact hbreak (List.forall_mem_singleton.mpr rfl)
  · cases hsplit
    exact hbreak (List.forall_mem_cons.mpr ⟨rfl, List.forall_mem_singleton.mpr hl⟩)
  · exact hshort (by simp)

/-- **An exponent that ends in the front is the same**, for it cannot reach the place: a marker and digits
are a name as well, and the letter would belong to it. -/
theorem exponent_swap (hc : c ∈ letters) (hd : d ∈ leads) (ht : t ≠ []) (hrest : v.rest = t ++ c :: x)
    (hname : Lexicon.nameLength v.rest ≤ t.length) {found : Option Nat} (h : v.exponent = .ok found)
    (hle : ∀ n, found = some n → n ≤ t.length) :
    View.exponent { v with rest := t ++ d :: y } = .ok found := by
  by_cases hprevious : v.previous = some .number
  · obtain ⟨a, t, rfl⟩ := List.exists_cons_of_ne_nil ht
    have hnew : View.exponent { v with rest := a :: t ++ d :: y } = _ :=
      exponent_of_rest hprevious rfl
    rw [exponent_of_rest hprevious hrest] at h
    rw [hnew]
    by_cases ha : a = 'e' ∨ a = 'E' ∨ a = 'p' ∨ a = 'P'
    · rw [if_pos ha] at h ⊢
      obtain ⟨found, hfound, rfl⟩ := map_ok_iff.mp h
      -- Some character behind the marker does not go on with the name.
      have hletter : a ∈ letters := by rcases ha with rfl | rfl | rfl | rfl <;> decide
      have hbreak := not_forall_isNameContinue hletter hc (hrest ▸ hname)
      have hle : ∀ n, found = some n → n ≤ t.length := by
        rintro n rfl
        exact Nat.le_of_succ_le_succ (hle (n + 1) rfl)
      refine map_ok_iff.mpr ⟨found, numberAt_swap hd ?_ (three_le_of_not_forall hbreak) hfound hle
        (.inr ?_), rfl⟩
      · rintro rfl
        exact hbreak (List.forall_mem_nil _)
      · rintro n rfl
        refine Nat.lt_of_le_of_ne (hle n rfl) ?_
        rintro rfl
        exact hbreak (isNameContinue_of_numberAt hc hfound)
    · rw [if_neg ha] at h ⊢
      exact h
  · rw [exponent_of_previous hprevious] at h
    have hnew : View.exponent { v with rest := t ++ d :: y } = .ok none := exponent_of_previous hprevious
    rw [hnew]
    exact h

end View

/-! ## §2 What ends a string -/

/-- **`IsEndedBy`** — a kind of token that may end the string of a context, and the text of that token. -/
inductive Context.IsEndedBy (context : Context) : TokenKind → Text → Prop
  | quotes {run : Text} (h : context.ending? = some (.quotes run)) : IsEndedBy context .stringCloser run
  | delimiter {s : Text} (h : context.ending? = some (.delimiter s))
      (hkind : context.kind ≠ .basedStringBody) : IsEndedBy context .heredocCloser s

namespace Context.IsEndedBy

variable {context : Context} {closer : TokenKind} {s : Text} {v : View}

theorem isLegalIn (h : context.IsEndedBy closer s) : closer.isLegalIn context.kind = true := by
  cases h with
  | quotes h => cases context <;> first | rfl | cases h
  | delimiter h hkind => cases context <;> first | rfl | exact absurd rfl hkind | cases h

theorem text?_eq (h : context.IsEndedBy closer s) : context.ending?.bind Ending.text? = some s := by
  cases h with
  | quotes h | delimiter h _ =>
    rw [h]
    rfl

/-- An expression is not ended as a string is. -/
theorem isExpression_eq_false (h : context.IsEndedBy closer s) : context.kind.isExpression = false := by
  cases h with
  | quotes h | delimiter h _ => cases context <;> first | rfl | cases h

theorem matchKind_eq (h : v.context.IsEndedBy closer s) :
    v.matchKind closer = .ok (if s.isPrefixOf v.rest then some s.length else none) := by
  cases h with
  | quotes h | delimiter h _ =>
    rw [View.matchKind_eq_closed (by decide), closing?, h]
    rfl

theorem interior (h : context.IsEndedBy closer s) {hasHoles : Bool}
    (hkind : context.kind = Interior.bodyKind hasHoles) : Interior context hasHoles closer s := by
  cases hasHoles <;> cases context <;> cases hkind <;> cases h with
  | quotes h | delimiter h _ =>
    cases h
    constructor

/-- Where no text ends the string, no closer matches. -/
theorem matchKind_eq_none {kind : TokenKind} (hkind : kind = .stringCloser ∨ kind = .heredocCloser)
    (hlegal : kind.isLegalIn v.context.kind = true) (hnone : ∀ s, ¬ v.context.IsEndedBy kind s) :
    v.matchKind kind = .ok none := by
  rw [View.matchKind_eq_closed hkind]
  cases hclosing : v.context.closing? kind with
  | none => rfl
  | some s =>
    rcases cases_of_closing? hclosing with ⟨rfl, he⟩ | ⟨rfl, he⟩
    · exact absurd (.quotes he) (hnone s)
    · refine absurd (.delimiter he fun hkind => ?_) (hnone s)
      rw [hkind] at hlegal
      cases hlegal

end Context.IsEndedBy

theorem Interior.beq_of_bodyKind {kind : ContextKind} {hasHoles : Bool}
    (h : kind = Interior.bodyKind hasHoles) : (kind == .stringBody) = hasHoles := by
  rw [h]
  cases hasHoles <;> rfl

theorem Interior.isLegalIn_of_bodyKind {kind : ContextKind} {hasHoles : Bool}
    (h : kind = Interior.bodyKind hasHoles) : (Interior.textKind hasHoles).isLegalIn kind = true := by
  rw [h]
  cases hasHoles <;> rfl

theorem Context.exists_isEndedBy {context : Context} {hasHoles : Bool} {s : Text}
    (hkind : context.kind = Interior.bodyKind hasHoles) (h : context.ending?.bind Ending.text? = some s) :
    ∃ closer, context.IsEndedBy closer s := by
  have hne : context.kind ≠ .basedStringBody := by
    rw [hkind]
    cases hasHoles <;> decide
  obtain ⟨ending, hending, htext⟩ := Option.bind_eq_some_iff.mp h
  cases ending with
  | quotes run =>
    cases htext
    exact ⟨_, .quotes hending⟩
  | delimiter d =>
    cases htext
    exact ⟨_, .delimiter hending hne⟩
  | endOfSource => cases htext

/-! ## §3 Matchers -/

/-- Kinds that could go on with what stands at the place now: the text of a string, and a number with a
zero. -/
def TokenKind.goesOn (d : Char) : TokenKind → Bool
  | stringText | rawStringText | basedStringText => true
  | number => d != '('
  | _ => false

namespace View

variable {v : View} {kind : TokenKind}

/-- **`EndsIn`** — everything that matches ends in a text in front of a place, and what could go on there
ends before the place. What ends the string does not begin in the text to end behind it, nor behind the
part of the text that belongs to the string. -/
structure EndsIn (v : View) (t : Text) (d : Char) : Prop where
  within : ∀ kind, kind.isLegalIn v.context.kind = true → ∃ found, v.matchKind kind = .ok found ∧
    ∀ n, found = some n → n ≤ t.length
  short : ∀ kind, kind.isLegalIn v.context.kind = true → kind.goesOn d = true →
    ∀ n, v.matchKind kind = .ok (some n) → n < t.length
  lead : v.context.kind.isExpression = true → (Radix.ofLead? v.rest).isSome = true → 3 ≤ t.length
  begins : ∀ closer s, v.context.IsEndedBy closer s →
    EndsBefore 0 t v.rest d (v.context.kind == .stringBody) s
  ends : ∀ hasHoles, v.context.kind = Interior.bodyKind hasHoles → ∀ n,
    v.matchKind (Interior.textKind hasHoles) = .ok (some n) →
    ∀ closer s, v.context.IsEndedBy closer s → EndsBefore n t v.rest d hasHoles s

theorem le_of_positive {m k : Nat} (h : ∀ n, positive m = some n → n ≤ k) : m ≤ k := by
  by_cases hm : m = 0
  · rw [hm]
    exact Nat.zero_le k
  · exact h m (by rw [positive, if_neg hm])

/-- The text of a string is the same. -/
theorem EndsIn.stringText_eq (h : v.EndsIn t d) (ht : t ≠ []) (hrest : v.rest = t ++ c :: x)
    {hasHoles : Bool} (hkind : v.context.kind = Interior.bodyKind hasHoles) :
    View.stringText { v with rest := t ++ d :: y } hasHoles = v.stringText hasHoles := by
  have hlegal := Interior.isLegalIn_of_bodyKind hkind
  have hgoes : (Interior.textKind hasHoles).goesOn d = true := by cases hasHoles <;> rfl
  have hmatch : v.matchKind (Interior.textKind hasHoles) = .ok (v.stringText hasHoles) := by
    cases hasHoles <;> rfl
  have hholes := Interior.beq_of_bodyKind hkind
  have hbegins := h.begins
  have hends := h.ends hasHoles hkind
  have hshort := h.short _ hlegal hgoes
  rw [hholes, hrest] at hbegins
  rw [hmatch, stringText, hrest] at hshort hends
  rw [stringText, stringText, hrest]
  by_cases hzero : bodyLength (v.context.ending?.bind Ending.text?) hasHoles (t ++ c :: x) = 0
  · refine congrArg positive (bodyLength_swap (hzero ▸ List.length_pos_of_ne_nil ht) fun s hs => ?_)
    obtain ⟨closer, hcloser⟩ := Context.exists_isEndedBy hkind hs
    exact hzero ▸ hbegins closer s hcloser
  · have hfound : Except.ok (ε := LexError)
        (positive (bodyLength (v.context.ending?.bind Ending.text?) hasHoles (t ++ c :: x))) =
        .ok (some (bodyLength (v.context.ending?.bind Ending.text?) hasHoles (t ++ c :: x))) := by
      rw [positive, if_neg hzero]
    refine congrArg positive (bodyLength_swap (hshort _ hfound) fun s hs => ?_)
    obtain ⟨closer, hcloser⟩ := Context.exists_isEndedBy hkind hs
    exact hends _ hfound closer s hcloser

/-- So is what ends it. -/
theorem EndsIn.closer_eq (h : v.EndsIn t d) (hrest : v.rest = t ++ c :: x)
    (hkind : kind = .stringCloser ∨ kind = .heredocCloser)
    (hlegal : kind.isLegalIn v.context.kind = true) :
    View.matchKind { v with rest := t ++ d :: y } kind = v.matchKind kind := by
  generalize hw : ({ v with rest := t ++ d :: y } : View) = w
  have hcontext : w.context = v.context := hw ▸ rfl
  by_cases hcloser : ∃ s, v.context.IsEndedBy kind s
  · obtain ⟨s, hs⟩ := hcloser
    have hends : EndsBefore 0 t (t ++ c :: x) d _ s := hrest ▸ h.begins kind s hs
    have hsame : s.isPrefixOf (t ++ d :: y) = s.isPrefixOf (t ++ c :: x) :=
      hends.isPrefixOf_eq fun hprefix => Nat.zero_add s.length ▸ hends.1 hprefix
    have hws : w.context.IsEndedBy kind s := hcontext ▸ hs
    rw [hs.matchKind_eq, hws.matchKind_eq, ← hw, hrest]
    dsimp only
    rw [hsame]
  · have hnone := not_exists.mp hcloser
    rw [Context.IsEndedBy.matchKind_eq_none hkind hlegal hnone]
    rw [← hcontext] at hlegal hnone
    exact Context.IsEndedBy.matchKind_eq_none hkind hlegal hnone

/-- A comment that closes in the front, or does not begin there, is the same. -/
theorem blockComment_swap (hc : c ∈ letters) (hd : d ∈ leads) (ht : t ≠ []) (hrest : v.rest = t ++ c :: x)
    {found : Option Nat} (h : v.blockComment = .ok found) (hle : ∀ n, found = some n → n ≤ t.length) :
    View.blockComment { v with rest := t ++ d :: y } = .ok found := by
  have hopen : ∀ openers, Lexicon.scanComment (t ++ c :: x) ≠ .unterminated openers := by
    intro openers hscan
    rw [blockComment, hrest, hscan] at h
    cases h
  have hclosed : ∀ n, Lexicon.scanComment (t ++ c :: x) = .closed n → n ≤ t.length := by
    intro n hscan
    rw [blockComment, hrest, hscan] at h
    cases h
    exact hle n rfl
  rw [← h, blockComment, blockComment, hrest, Lexicon.scanComment_swap hc hd ht hopen hclosed]
  cases hscan : Lexicon.scanComment (t ++ c :: x) with
  | unterminated openers => exact absurd hscan (hopen openers)
  | absent | closed => rfl

/-- Digits in a string end in front of the place. -/
theorem EndsIn.basedText_eq (h : v.EndsIn t d) (ht : t ≠ []) (hrest : v.rest = t ++ c :: x)
    (hlegal : TokenKind.basedStringText.isLegalIn v.context.kind = true) :
    View.basedText { v with rest := t ++ d :: y } = v.basedText := by
  have hshort := h.short .basedStringText hlegal rfl
  rw [matchKind] at hshort
  unfold basedText at hshort ⊢
  dsimp only
  split
  · next base hcontext =>
    rw [hcontext, hrest] at hshort
    rw [hrest]
    have hlt : digitRun base (t ++ c :: x) < t.length := by
      by_cases hzero : digitRun base (t ++ c :: x) = 0
      · exact hzero ▸ List.length_pos_of_ne_nil ht
      · exact hshort _ (congrArg _ (if_neg hzero))
    have hrun : digitRun base (t ++ d :: y) = digitRun base (t ++ c :: x) :=
      digitRun_swap (Nat.le_of_lt hlt) (.inr hlt)
    unfold digitRun at hrun
    rw [hrun]
  · rfl

/-- A number ends in front of the place, unless a parenthesis stands there now. -/
theorem EndsIn.number_eq (h : v.EndsIn t d) (hd : d ∈ leads) (ht : t ≠ []) (hrest : v.rest = t ++ c :: x)
    (hlegal : TokenKind.number.isLegalIn v.context.kind = true) {found : Option Nat}
    (hfound : v.matchKind .number = .ok found) (hle : ∀ n, found = some n → n ≤ t.length) :
    View.matchKind { v with rest := t ++ d :: y } .number = .ok found := by
  have hlead := h.lead hlegal
  have hshort : d = '(' ∨ ∀ n, v.matchKind .number = .ok (some n) → n < t.length := by
    by_cases hparen : d = '('
    · exact .inl hparen
    · exact .inr (h.short .number hlegal (bne_iff_ne.mpr hparen))
  rw [hfound] at hshort
  rw [hrest] at hlead
  rw [matchKind, hrest] at hfound
  exact numberAt_swap hd ht hlead hfound hle (hshort.imp_right fun hshort n hn => hshort n (congrArg _ hn))

/-- What a matcher finds that reads only the text is the same, if it finds the same in both texts as long
as that ends in the front. -/
theorem EndsIn.matchKind_eq_of_rest (h : v.EndsIn t d) (hrest : v.rest = t ++ c :: x)
    (hlegal : kind.isLegalIn v.context.kind = true) (f : Text → Option Nat)
    (hf : ∀ w : View, w.matchKind kind = .ok (f w.rest))
    (hswap : (∀ n, f (t ++ c :: x) = some n → n ≤ t.length) → f (t ++ d :: y) = f (t ++ c :: x)) :
    View.matchKind { v with rest := t ++ d :: y } kind = v.matchKind kind := by
  obtain ⟨found, hfound, hle⟩ := h.within kind hlegal
  rw [hf] at hfound
  cases hfound
  rw [hrest] at hle
  rw [hf, hf, hrest, hswap hle]

/-- **What matches in front of a letter matches in front of what stands in its place.** -/
theorem EndsIn.matchKind_eq (h : v.EndsIn t d) (hc : c ∈ letters) (hd : d ∈ leads) (ht : t ≠ [])
    (hrest : v.rest = t ++ c :: x) (hlegal : kind.isLegalIn v.context.kind = true) :
    View.matchKind { v with rest := t ++ d :: y } kind = v.matchKind kind := by
  obtain ⟨found, hfound, hle⟩ := h.within kind hlegal
  -- Most kinds read only the text, and what the others read besides stays the same.
  cases kind with
  | blank =>
    have hblank : ∀ a ∈ letters ++ leads, Lexicon.isBlank a = false :=
      List.all_iff_forall_prop.mp (by decide)
    refine h.matchKind_eq_of_rest hrest hlegal (positive ∘ Lexicon.blankLength) (fun _ => rfl) fun _ => ?_
    refine congrArg positive ?_
    rw [Lexicon.blankLength, Lexicon.blankLength,
      runLength_append_cons (hblank c (List.mem_append_left _ hc)),
      runLength_append_cons (hblank d (List.mem_append_right _ hd))]
  | lineComment =>
    exact h.matchKind_eq_of_rest hrest hlegal (positive ∘ Lexicon.lineCommentLength) (fun _ => rfl)
      fun hle => congrArg positive (Lexicon.lineCommentLength_swap hc hd ht (le_of_positive hle))
  | blockComment =>
    rw [hfound]
    exact blockComment_swap hc hd ht hrest hfound hle
  | name =>
    exact h.matchKind_eq_of_rest hrest hlegal (positive ∘ Lexicon.nameLength) (fun _ => rfl)
      fun hle => congrArg positive (Lexicon.nameLength_swap hc (le_of_positive hle))
  | symbol =>
    have hsymbols : ∀ d ∈ leads, ∀ s ∈ Lexicon.symbols, d ∉ s := List.all_iff_forall_prop.mp (by decide)
    exact h.matchKind_eq_of_rest hrest hlegal (positive ∘ Lexicon.symbolLength) (fun _ => rfl)
      fun hle => congrArg positive (Lexicon.longestOf_swap (hsymbols d hd) (le_of_positive hle))
  | shift =>
    have hshifts : ∀ d ∈ leads, ∀ s ∈ Lexicon.shifts, d ∉ s := List.all_iff_forall_prop.mp (by decide)
    exact h.matchKind_eq_of_rest hrest hlegal (positive ∘ Lexicon.shiftLength) (fun _ => rfl)
      fun hle => congrArg positive (Lexicon.longestOf_swap (hshifts d hd) (le_of_positive hle))
  | hashtag =>
    exact h.matchKind_eq_of_rest hrest hlegal hashtag (fun _ => rfl) fun hle => hashtag_swap hc ht hle
  | leftBracket | rightBracket | leftParen | rightParen | leftBrace | rightBrace | leftAngle
  | rightAngle =>
    refine h.matchKind_eq_of_rest hrest hlegal (single _) (fun _ => rfl) fun _ => ?_
    rw [single, single, List.head?_append_of_ne_nil _ ht, List.head?_append_of_ne_nil _ ht]
  | basedBlockOpener =>
    exact h.matchKind_eq_of_rest hrest hlegal basedBlock (fun _ => rfl)
      fun hle => basedBlock_swap hc hd ht hle
  | stringOpener =>
    refine h.matchKind_eq_of_rest hrest hlegal quoteRun (fun _ => rfl) fun _ => ?_
    rw [quoteRun_append_cons (isQuote_letter hc), quoteRun_append_cons (isQuote_lead hd)]
  | rawStringOpener =>
    refine h.matchKind_eq_of_rest hrest hlegal rawString (fun _ => rfl) fun _ => ?_
    rw [rawString_append_cons (isQuote_letter hc) ht, rawString_append_cons (isQuote_lead hd) ht]
  | basedStringOpener =>
    exact h.matchKind_eq_of_rest hrest hlegal basedString (fun _ => rfl)
      fun hle => basedString_swap hc hd ht hle
  | stringCloser | heredocCloser => exact h.closer_eq hrest (by simp) hlegal
  | stringText | rawStringText =>
    exact congrArg Except.ok (h.stringText_eq ht hrest (eq_of_beq hlegal))
  | stringEscape =>
    obtain ⟨hole, hhole, hholes⟩ := h.within .holeEscape hlegal
    cases hhole
    rw [hfound]
    exact escape_swap hc hd ht hrest hfound hle hholes
  | holeEscape =>
    exact h.matchKind_eq_of_rest hrest hlegal holeEscape (fun _ => rfl)
      fun hle => holeEscape_swap hc hd ht hle
  | basedStringText => exact congrArg Except.ok (h.basedText_eq ht hrest hlegal)
  | restOfFileOpener =>
    have hmarks : ∀ d ∈ leads, d ∉ "#\"\"\"".toList ∧ d ∉ "#'''".toList :=
      List.all_iff_forall_prop.mp (by decide)
    exact h.matchKind_eq_of_rest hrest hlegal (either _ _) (fun _ => rfl)
      fun hle => either_swap (by decide) (hmarks d hd).1 (hmarks d hd).2 hle
  | rawRestOfFileOpener =>
    have hmarks : ∀ d ∈ leads, d ∉ "#r\"\"\"".toList ∧ d ∉ "#r'''".toList :=
      List.all_iff_forall_prop.mp (by decide)
    exact h.matchKind_eq_of_rest hrest hlegal (either _ _) (fun _ => rfl)
      fun hle => either_swap (by decide) (hmarks d hd).1 (hmarks d hd).2 hle
  | heredocOpener | rawHeredocOpener =>
    rw [hfound]
    exact heredoc_swap hc hd ht hrest (by decide) hfound hle
  | number =>
    rw [hfound]
    exact h.number_eq hd ht hrest hlegal hfound hle
  | exponent =>
    -- An exponent is a name as well, so a name has to end in the front, too.
    obtain ⟨name, hname, hnames⟩ := h.within .name hlegal
    cases hname
    rw [hfound]
    exact exponent_swap hc hd ht hrest (le_of_positive hnames) hfound hle

end View

end DewyFront
