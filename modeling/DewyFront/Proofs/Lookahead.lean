/-
# DewyFront.Proofs.Lookahead — matches that end in front of a letter

A matcher looks at what stands behind the text that it takes. Where everything that matches ends in front
of a letter, another text may stand there: with a zero or an opening parenthesis in front, the same kinds
match and take as much. Only a number that reaches the place would go on with a zero, and only what ends
a string could begin in front of the place and go on behind it.

* §1 letters, zeros and parentheses;
* §2 runs and prefixes;
* §3 the lexicon;
* §4 strings and heredocs.
-/
import DewyFront.Proofs.Digits
import DewyFront.Proofs.Interiors
import Mathlib.Data.Bool.AllAny

namespace DewyFront

/-! ## §1 Characters -/

/-- The characters that a name may begin with and that some base has for a digit. -/
def letters : Text :=
  ['A', 'B', 'C', 'D', 'E', 'F', 'G', 'H', 'I', 'J', 'K', 'L', 'M', 'N', 'O', 'P', 'Q', 'R', 'S', 'T', 'U',
   'V', 'W', 'X', 'Y', 'Z', 'a', 'b', 'c', 'd', 'e', 'f', 'g', 'h', 'i', 'j', 'k', 'l', 'm', 'n', 'o', 'p',
   'q', 'r', 's', 't', 'u', 'v', 'w', 'x', 'y', 'z', '_']

/-- What may stand in place of a letter: a zero, or an opening parenthesis. -/
def leads : Text := ['0', '(']

variable {t x y : Text} {c d : Char}

/-- What holds of all small codes holds of the characters that have them. -/
theorem of_toNat_lt {p : Char → Prop} {n : Nat} (h : ∀ k < n, p (Char.ofNat k)) (hc : c.toNat < n) :
    p c := by
  have hcode := h c.toNat hc
  rwa [Char.ofNat_toNat] at hcode

theorem mem_letters_of_isAlpha (h : c.isAlpha = true) : c ∈ letters := by
  have hcodes : ∀ n < 123, (Char.ofNat n).isAlpha = true → Char.ofNat n ∈ letters := by decide +kernel
  have hbound : c.toNat < 123 := by
    rcases Bool.or_eq_true_iff.mp h with hupper | hlower
    · have hupper : 'A' ≤ c ∧ c ≤ 'Z' := of_decide_eq_true hupper
      have hle : c.toNat ≤ 90 := UInt32.le_iff_toNat_le.mp hupper.2
      omega
    · have hle : c.toNat ≤ 122 :=
        UInt32.le_iff_toNat_le.mp (of_decide_eq_true (Bool.and_eq_true_iff.mp hlower).2)
      omega
  exact of_toNat_lt (p := fun c => c.isAlpha = true → c ∈ letters) hcodes hbound h

theorem toNat_lt_of_letter (hc : c ∈ letters) : c.toNat < 123 := by
  have hall : ∀ c ∈ letters, c.toNat < 123 := List.all_iff_forall_prop.mp (by decide)
  exact hall c hc

namespace Lexicon

/-- Decorations have codes above those of the letters. -/
theorem isDecoration_of_toNat_lt (hc : c.toNat < 123) : isDecoration c = false := by
  have hall : ∀ a ∈ decorations, 123 ≤ a.toNat := List.all_iff_forall_prop.mp (by decide +kernel)
  refine Bool.eq_false_iff.mpr fun hdecoration => ?_
  have hmem : c ∈ decorations := List.contains_iff_mem.mp hdecoration
  exact absurd hc (Nat.not_lt_of_le (hall c hmem))

theorem isNameStart_letter (hc : c ∈ letters) : isNameStart c = true := by
  have hall : ∀ c ∈ letters, isNameStart c = true := List.all_iff_forall_prop.mp (by decide +kernel)
  exact hall c hc

theorem isNameContinue_letter (hc : c ∈ letters) : isNameContinue c = true := by
  rw [isNameContinue, isNameStart_letter hc, Bool.true_or]

theorem isDecoration_letter (hc : c ∈ letters) : isDecoration c = false :=
  isDecoration_of_toNat_lt (toNat_lt_of_letter hc)

theorem isDelimiterCharacter_letter (hc : c ∈ letters) : isDelimiterCharacter c = true := by
  have hall : ∀ c ∈ letters, isDelimiterCharacter c = true :=
    List.all_iff_forall_prop.mp (by decide +kernel)
  exact hall c hc

end Lexicon

theorem ne_of_letter {a : Char} (hc : c ∈ letters) (ha : a ∉ letters) : c ≠ a :=
  fun heq => ha (heq ▸ hc)

theorem ne_of_lead {a : Char} (hd : d ∈ leads) (ha : a ∉ leads) : d ≠ a :=
  fun heq => ha (heq ▸ hd)

/-- Texts with a letter, or with what may stand in its place, begin with the same other characters. -/
theorem head?_swap {a : Char} (hc : c ∈ letters) (hd : d ∈ leads) (ha : a ∉ letters ++ leads)
    (t x y : Text) : (t ++ d :: y).head? = some a ↔ (t ++ c :: x).head? = some a := by
  obtain ⟨hletter, hlead⟩ := not_or.mp (mt List.mem_append.mpr ha)
  cases t with
  | nil =>
    constructor
    · exact fun h => absurd (Option.some.inj h) (ne_of_lead hd hlead)
    · exact fun h => absurd (Option.some.inj h) (ne_of_letter hc hletter)
  | cons b t => exact Iff.rfl

theorem View.isQuote_letter (hc : c ∈ letters) : View.isQuote c = false := by
  have hall : ∀ c ∈ letters, View.isQuote c = false := List.all_iff_forall_prop.mp (by decide)
  exact hall c hc

theorem View.isQuote_lead (hd : d ∈ leads) : View.isQuote d = false := by
  have hall : ∀ d ∈ leads, View.isQuote d = false := List.all_iff_forall_prop.mp (by decide)
  exact hall d hd

/-! ## §2 Runs and prefixes -/

section

variable {p : Char → Bool}

/-- A run that goes no further than a text ends there, if what it takes behind the text it would have
taken before. -/
theorem runLength_swap (hle : runLength p (t ++ c :: x) ≤ t.length) (hd : p d = true → p c = true) :
    runLength p (t ++ d :: y) = runLength p (t ++ c :: x) := by
  cases hc : p c with
  | false =>
    have hd : p d = false := Bool.eq_false_iff.mpr fun h => Bool.false_ne_true (hc.symm.trans (hd h))
    rw [runLength_append_cons hc, runLength_append_cons hd]
  | true =>
    have hlt : runLength p t < t.length := by
      by_contra hge
      have hall := List.forall_mem_append.mpr
        ⟨of_runLength_eq (Nat.le_of_not_lt hge), List.forall_mem_singleton.mpr hc⟩
      have hmore := length_le_runLength_append hall x
      rw [List.append_assoc, List.length_append] at hmore
      exact absurd (Nat.le_trans hmore hle) (Nat.not_succ_le_self _)
    rw [runLength_append_of_lt hlt, runLength_append_of_lt hlt]

/-- What a run takes of the front it takes, whatever stands behind. -/
theorem le_runLength_swap {n : Nat} (hn : n ≤ t.length) (h : n ≤ runLength p (t ++ x)) (y : Text) :
    n ≤ runLength p (t ++ y) := by
  by_cases hlt : runLength p t < t.length
  · rwa [runLength_append_of_lt hlt] at h ⊢
  · exact Nat.le_trans hn (length_le_runLength_append (of_runLength_eq (Nat.le_of_not_lt hlt)) y)

end

/-- **A text that begins with a spelling still does**, and no other does, unless the spelling could begin
with the front and go on with what stands behind it now. -/
theorem isPrefixOf_swap {s : Text} (hs : s.isPrefixOf (t ++ c :: x) = true → s.length ≤ t.length)
    (hd : (∀ a ∈ t, a ∈ s) → d ∈ s → s.length ≤ t.length) :
    s.isPrefixOf (t ++ d :: y) = s.isPrefixOf (t ++ c :: x) := by
  by_cases hlength : s.length ≤ t.length
  · rw [isPrefixOf_append_iff hlength, isPrefixOf_append_iff hlength]
  · rw [Bool.eq_false_iff.mpr (mt hs hlength)]
    refine Bool.eq_false_iff.mpr fun hprefix => hlength ?_
    obtain ⟨hmem, hall⟩ := mem_of_isPrefixOf hprefix (Nat.lt_of_not_le hlength)
    exact hd hall hmem

/-! ## §3 The lexicon -/

namespace Lexicon

/-- A comment of a line that ends in the front ends where it did. -/
theorem lineCommentLength_swap (hc : c ∈ letters) (hd : d ∈ leads) (ht : t ≠ [])
    (hle : lineCommentLength (t ++ c :: x) ≤ t.length) :
    lineCommentLength (t ++ d :: y) = lineCommentLength (t ++ c :: x) := by
  obtain ⟨a, t, rfl⟩ := List.exists_cons_of_ne_nil ht
  rw [List.cons_append] at hle
  rw [List.cons_append, List.cons_append]
  by_cases ha : a = '%'
  · subst ha
    by_cases hopens : t.head? = some '{'
    · obtain ⟨more, rfl⟩ := List.head?_eq_some_iff.mp hopens
      rfl
    · have hhead : ∀ {e : Char}, e ≠ '{' → ∀ z, (t ++ e :: z).head? ≠ some '{' := by
        intro e he z
        cases t with
        | nil => exact fun h => he (Option.some.inj h)
        | cons b t => exact hopens
      have hold := lineCommentLength_percent (hhead (ne_of_letter hc (by decide)) x)
      have hnew := lineCommentLength_percent (hhead (ne_of_lead hd (by decide)) y)
      -- Without its newline the comment would take the letter.
      have hnewline : (c != '\n') = true := bne_iff_ne.mpr (ne_of_letter hc (by decide))
      have hlt : runLength (· != '\n') (t ++ c :: x) < t.length := by
        rw [hold, List.length_append, List.length_cons, List.length_cons] at hle
        split at hle <;> omega
      rw [hold, hnew, runLength_swap (Nat.le_of_lt hlt) fun _ => hnewline,
        if_pos (by rw [List.length_append]; omega), if_pos (by rw [List.length_append]; omega)]
  · simp [lineCommentLength, ha]

/-- A block comment that ends in a front of a text is closed there. -/
theorem scanNested_of_le {openers : List Nat} {chars bytes n : Nat}
    (h : scanNested openers chars bytes (t ++ x) = .closed n) (hn : n ≤ chars + t.length) :
    scanNested openers chars bytes t = .closed n := by
  fun_induction scanNested openers chars bytes t with
  | case1 openers chars bytes rest ih =>
    rw [List.cons_append, List.cons_append, scanNested] at h
    exact ih h (by simpa [Nat.add_assoc, Nat.add_comm, Nat.add_left_comm] using hn)
  | case2 chars bytes rest first outer inner ih =>
    rw [List.cons_append, List.cons_append, scanNested] at h
    exact ih h (by simpa [Nat.add_assoc, Nat.add_comm, Nat.add_left_comm] using hn)
  | case3 openers chars bytes rest hopeners =>
    rw [List.cons_append, List.cons_append, scanNested] at h
    · exact h
    · exact hopeners
  | case4 openers chars bytes a rest hopens hcloses ih =>
    cases rest with
    | nil =>
      -- One character is left of the front, and the comment would go on behind it.
      have hmore : chars + 1 < n := by
        rw [List.singleton_append] at h
        unfold scanNested at h
        split at h
        · have hbounds := scanNested_bounds h
          omega
        · split at h
          · have hbounds := scanNested_bounds h
            omega
          · cases h
            omega
        · next heq =>
          cases heq
          exact (scanNested_bounds h).1
        · next heq => cases heq
      exact absurd hn (Nat.not_le_of_lt hmore)
    | cons b rest =>
      rw [List.cons_append, List.cons_append, scanNested] at h
      · exact ih h (by rw [List.length_cons] at hn; omega)
      · rintro more rfl heq
        cases heq
        exact hopens rest rfl rfl
      · rintro more rfl heq
        cases heq
        exact hcloses rest rfl rfl
  | case5 openers chars bytes =>
    have hbounds := (scanNested_bounds h).1
    exact absurd hn (Nat.not_le_of_lt hbounds)

/-- So is one behind which a letter stands. -/
theorem scanComment_swap (hc : c ∈ letters) (hd : d ∈ leads) (ht : t ≠ [])
    (hopen : ∀ openers, scanComment (t ++ c :: x) ≠ .unterminated openers)
    (hle : ∀ n, scanComment (t ++ c :: x) = .closed n → n ≤ t.length) :
    scanComment (t ++ d :: y) = scanComment (t ++ c :: x) := by
  have habsent : ∀ a b z, ¬ (a = '%' ∧ b = '{') → scanComment (a :: b :: z) = .absent := by
    intro a b z hne
    rw [scanComment]
    rintro more heq
    cases heq
    exact hne ⟨rfl, rfl⟩
  rcases t with _ | ⟨a, _ | ⟨b, t⟩⟩
  · exact absurd rfl ht
  · have hold : ¬ (a = '%' ∧ c = '{') := fun h => ne_of_letter hc (by decide) h.2
    have hnew : ¬ (a = '%' ∧ d = '{') := fun h => ne_of_lead hd (by decide) h.2
    rw [List.singleton_append, List.singleton_append, habsent a c x hold, habsent a d y hnew]
  · rw [List.cons_append, List.cons_append] at hopen hle
    rw [List.cons_append, List.cons_append, List.cons_append, List.cons_append]
    by_cases hopens : a = '%' ∧ b = '{'
    · obtain ⟨rfl, rfl⟩ := hopens
      rw [scanComment] at hopen hle
      rw [scanComment, scanComment]
      cases hscan : scanNested [0] 2 2 (t ++ c :: x) with
      | absent => exact absurd hscan (scanNested_ne_absent _ _ _ _)
      | unterminated openers => exact absurd hscan (hopen openers)
      | closed n =>
        have hlength := hle n hscan
        rw [List.length_cons, List.length_cons, Nat.add_assoc, Nat.add_comm] at hlength
        exact scanNested_append (d :: y) (scanNested_of_le hscan hlength)
    · rw [habsent a b _ hopens, habsent a b _ hopens]

/-- Behind decorations a name begins with its first character. -/
theorem nameLength_append {s : Text} {a : Char} (hs : ∀ b ∈ s, isDecoration b = true)
    (ha : isDecoration a = false) (z : Text) : nameLength (s ++ a :: z) =
      if isNameStart a then s.length + 1 + runLength (fun b => isNameContinue b || isDecoration b) z
      else 0 := by
  have hrun : runLength isDecoration (s ++ a :: z) = s.length :=
    runLength_append_eq hs fun b hb => by cases hb; exact ha
  unfold nameLength
  rw [hrun]
  dsimp only
  rw [List.drop_left]

/-- A name goes on with a letter, so that one that ends in the front ends where it did. -/
theorem nameLength_swap (hc : c ∈ letters) (hle : nameLength (t ++ c :: x) ≤ t.length) :
    nameLength (t ++ d :: y) = nameLength (t ++ c :: x) := by
  have hcontinue : (isNameContinue c || isDecoration c) = true := by
    rw [isNameContinue_letter hc, Bool.true_or]
  have hdecorations : ∀ b ∈ t.takeWhile isDecoration, isDecoration b = true :=
    fun b hb => List.mem_takeWhile_imp hb
  have hsplit := List.takeWhile_append_dropWhile (p := isDecoration) (l := t)
  cases hrest : t.dropWhile isDecoration with
  | nil =>
    -- Behind nothing but decorations the letter begins a name.
    rw [hrest, List.append_nil] at hsplit
    rw [hsplit] at hdecorations
    rw [nameLength_append hdecorations (isDecoration_letter hc), if_pos (isNameStart_letter hc)] at hle
    omega
  | cons a rest =>
    have ha : isDecoration a = false := by
      have hhead := List.head?_dropWhile_not isDecoration t
      rw [hrest] at hhead
      simpa using hhead
    rw [hrest] at hsplit
    have hlength := congrArg List.length hsplit
    rw [List.length_append, List.length_cons] at hlength
    rw [← hsplit, List.append_assoc, List.cons_append, nameLength_append hdecorations ha, hsplit] at hle
    rw [← hsplit, List.append_assoc, List.append_assoc, List.cons_append, List.cons_append,
      nameLength_append hdecorations ha, nameLength_append hdecorations ha]
    by_cases hstart : isNameStart a = true
    · rw [if_pos hstart] at hle
      have hle : runLength (fun b => isNameContinue b || isDecoration b) (rest ++ c :: x) ≤
        rest.length := by
        omega
      rw [if_pos hstart, if_pos hstart, runLength_swap hle fun _ => hcontinue]
    · rw [if_neg hstart, if_neg hstart]

theorem length_le_longestOf {table : List Text} {s : Text} (hs : s ∈ table)
    (h : s.isPrefixOf t = true) : s.length ≤ longestOf table t := by
  -- The search may start from any length: it never gives up what it has found.
  have hfold : ∀ (table : List Text) (best : Nat),
      best ≤ table.foldl (fun best s => if s.isPrefixOf t then max best s.length else best) best ∧
      ∀ s ∈ table, s.isPrefixOf t = true → s.length ≤
        table.foldl (fun best s => if s.isPrefixOf t then max best s.length else best) best := by
    intro table
    induction table with
    | nil => exact fun best => ⟨Nat.le_refl _, List.forall_mem_nil _⟩
    | cons r table ih =>
      intro best
      obtain ⟨hbest, hall⟩ := ih (if r.isPrefixOf t then max best r.length else best)
      refine ⟨Nat.le_trans ?_ hbest, List.forall_mem_cons.mpr ⟨fun hr => Nat.le_trans ?_ hbest, hall⟩⟩
      · split
        · exact Nat.le_max_left _ _
        · exact Nat.le_refl _
      · rw [if_pos hr]
        exact Nat.le_max_right _ _
  exact (hfold table 0).2 s hs h

/-- So does a spelling of a table, if no spelling has what stands there instead. -/
theorem longestOf_swap {table : List Text} (hd : ∀ s ∈ table, d ∉ s)
    (hle : longestOf table (t ++ c :: x) ≤ t.length) :
    longestOf table (t ++ d :: y) = longestOf table (t ++ c :: x) := by
  unfold longestOf
  refine List.foldl_ext _ _ 0 fun best s hs => ?_
  rw [isPrefixOf_swap (fun hprefix => ?_) fun _ hmem => absurd hmem (hd s hs)]
  exact Nat.le_trans (length_le_longestOf hs hprefix) hle

end Lexicon

namespace View

variable {v : View}

/-! ## §4 Strings and heredocs -/

theorem hashtag_swap (hc : c ∈ letters) (ht : t ≠ [])
    (hle : ∀ n, hashtag (t ++ c :: x) = some n → n ≤ t.length) :
    hashtag (t ++ d :: y) = hashtag (t ++ c :: x) := by
  obtain ⟨a, t, rfl⟩ := List.exists_cons_of_ne_nil ht
  rw [List.cons_append] at hle
  rw [List.cons_append, List.cons_append]
  by_cases ha : a = '#'
  · subst ha
    rw [hashtag] at hle
    rw [hashtag, hashtag, Lexicon.nameLength_swap hc]
    by_contra hlt
    have hpos : Lexicon.nameLength (t ++ c :: x) ≠ 0 := by omega
    have hbound : Lexicon.nameLength (t ++ c :: x) + 1 ≤ t.length + 1 :=
      hle _ (by rw [positive, if_neg hpos]; rfl)
    omega
  · simp [hashtag, ha]

/-- Two characters make a lead, or none. -/
theorem ofLead?_cons_cons (a b : Char) (z : Text) :
    Radix.ofLead? (a :: b :: z) = Radix.ofLead? [a, b] := by
  by_cases ha : a = '0'
  · subst ha
    rfl
  · simp [Radix.ofLead?, ha]

/-- Neither a zero nor a parenthesis names a base. -/
theorem ofLead?_cons_lead (hd : d ∈ leads) (a : Char) (y : Text) : Radix.ofLead? (a :: d :: y) = none := by
  have hletter : ∀ d ∈ leads, Radix.ofLetter? d = none := List.all_iff_forall_prop.mp (by decide)
  by_cases ha : a = '0'
  · subst ha
    exact hletter d hd
  · simp [Radix.ofLead?, ha]

theorem basedString_swap (hc : c ∈ letters) (hd : d ∈ leads) (ht : t ≠ [])
    (hle : ∀ n, basedString (t ++ c :: x) = some n → n ≤ t.length) :
    basedString (t ++ d :: y) = basedString (t ++ c :: x) := by
  rcases t with _ | ⟨a, _ | ⟨b, t⟩⟩
  · exact absurd rfl ht
  · have hold : basedString ([a] ++ c :: x) = none := by
      refine Option.eq_none_iff_forall_ne_some.mpr fun n hn => ?_
      have hlow := three_le_of_basedString hn
      have hhigh : n ≤ 1 := hle n hn
      omega
    rw [hold, basedString, List.singleton_append, ofLead?_cons_lead hd]
    rfl
  · have hdrop : ∀ z : Text, (a :: b :: t ++ z).drop 2 = t ++ z := fun z => rfl
    rw [basedString, basedString, hdrop, hdrop, quoteRun_append_cons (isQuote_lead hd),
      quoteRun_append_cons (isQuote_letter hc), List.cons_append, List.cons_append, List.cons_append,
      List.cons_append, ofLead?_cons_cons, ofLead?_cons_cons a b (t ++ c :: x)]

theorem basedBlock_swap (hc : c ∈ letters) (hd : d ∈ leads) (ht : t ≠ [])
    (hle : ∀ n, basedBlock (t ++ c :: x) = some n → n ≤ t.length) :
    basedBlock (t ++ d :: y) = basedBlock (t ++ c :: x) := by
  rcases t with _ | ⟨a, _ | ⟨b, t⟩⟩
  · exact absurd rfl ht
  · have hold : basedBlock ([a] ++ c :: x) = none := by
      refine Option.eq_none_iff_forall_ne_some.mpr fun n hn => ?_
      have hhigh : n ≤ 1 := hle n hn
      unfold basedBlock at hn
      split at hn
      · cases hn
        omega
      · cases hn
    rw [hold, basedBlock, List.singleton_append, ofLead?_cons_lead hd]
    rfl
  · have hhead := head?_swap hc hd (show '[' ∉ letters ++ leads by decide) t x y
    have hdrop : ∀ z : Text, (a :: b :: t ++ z).drop 2 = t ++ z := fun z => rfl
    have hlead : ∀ z : Text, Radix.ofLead? (a :: b :: t ++ z) = Radix.ofLead? [a, b] :=
      fun z => ofLead?_cons_cons a b (t ++ z)
    rw [basedBlock, basedBlock, hdrop, hdrop, hlead, hlead]
    simp only [hhead]

theorem either_swap {r s : String} (hlength : r.length = s.length) (hr : d ∉ r.toList) (hs : d ∉ s.toList)
    (hle : ∀ n, either r s (t ++ c :: x) = some n → n ≤ t.length) :
    either r s (t ++ d :: y) = either r s (t ++ c :: x) := by
  have hbound : r.toList.isPrefixOf (t ++ c :: x) = true ∨ s.toList.isPrefixOf (t ++ c :: x) = true →
      r.length ≤ t.length := by
    intro h
    refine hle _ ?_
    rw [either, if_pos (Bool.or_eq_true_iff.mpr h)]
  have hfirst : r.toList.isPrefixOf (t ++ d :: y) = r.toList.isPrefixOf (t ++ c :: x) := by
    refine isPrefixOf_swap (fun h => ?_) fun _ hmem => absurd hmem hr
    rw [String.length_toList]
    exact hbound (.inl h)
  have hsecond : s.toList.isPrefixOf (t ++ d :: y) = s.toList.isPrefixOf (t ++ c :: x) := by
    refine isPrefixOf_swap (fun h => ?_) fun _ hmem => absurd hmem hs
    rw [String.length_toList, ← hlength]
    exact hbound (.inr h)
  rw [either, either, hfirst, hsecond]

theorem holeEscape_swap (hc : c ∈ letters) (hd : d ∈ leads) (ht : t ≠ [])
    (hle : ∀ n, holeEscape (t ++ c :: x) = some n → n ≤ t.length) :
    holeEscape (t ++ d :: y) = holeEscape (t ++ c :: x) := by
  obtain ⟨a, t, rfl⟩ := List.exists_cons_of_ne_nil ht
  rw [List.cons_append] at hle
  rw [List.cons_append, List.cons_append]
  by_cases ha : a = '\\'
  · subst ha
    cases t with
    | nil =>
      rw [List.nil_append, Marks.holeEscape_eq] at hle
      rw [List.nil_append, List.nil_append, Marks.holeEscape_eq, Marks.holeEscape_eq]
      have hold : ¬ ((c = 'u' ∨ c = 'U') ∧ x.head? = some '{') := by
        intro h
        have hshort := hle 3 (if_pos h)
        exact absurd hshort (by decide)
      have hnew : ¬ ((d = 'u' ∨ d = 'U') ∧ y.head? = some '{') := by
        rintro ⟨h | h, -⟩
        · exact ne_of_lead hd (by decide) h
        · exact ne_of_lead hd (by decide) h
      rw [if_neg hold, if_neg hnew]
    | cons b t =>
      have hhead := head?_swap hc hd (show '{' ∉ letters ++ leads by decide) t x y
      rw [List.cons_append, List.cons_append, Marks.holeEscape_eq, Marks.holeEscape_eq]
      simp only [hhead]
  · simp [holeEscape, ha]

/-- An escape that ends in the front is the same. -/
theorem escape_swap (hc : c ∈ letters) (hd : d ∈ leads) (ht : t ≠ []) (hrest : v.rest = t ++ c :: x)
    {found : Option Nat} (h : v.escape = .ok found) (hle : ∀ n, found = some n → n ≤ t.length)
    (hhole : ∀ n, holeEscape v.rest = some n → n ≤ t.length) :
    View.escape { v with rest := t ++ d :: y } = .ok found := by
  obtain ⟨a, t, rfl⟩ := List.exists_cons_of_ne_nil ht
  by_cases ha : a = '\\'
  · subst ha
    cases t with
    | nil =>
      -- The letter would belong to the escape, or to the opener of a hole.
      rw [escape_of_rest hrest] at h
      have hlong : ¬ ∃ n, found = some n ∧ 1 < n := by
        rintro ⟨n, hn, hlt⟩
        exact absurd (hle n hn) (Nat.not_le_of_lt hlt)
      rw [hrest, List.singleton_append, Marks.holeEscape_eq] at hhole
      split at h
      · next hu =>
        split at h
        · next hbrace => exact absurd (hhole 3 (if_pos ⟨hu, hbrace⟩)) (by decide)
        · split at h
          · cases h
          · cases h
            exact absurd ⟨_, rfl, by decide⟩ hlong
      · cases h
        exact absurd ⟨_, rfl, by decide⟩ hlong
    | cons b t =>
      have hrest : v.rest = '\\' :: b :: (t ++ c :: x) := hrest
      have hnew : (View.mk v.config v.start v.context v.previous ('\\' :: b :: t ++ d :: y)).rest =
        '\\' :: b :: (t ++ d :: y) := rfl
      rw [escape_of_rest hrest] at h
      rw [escape_of_rest hnew]
      by_cases hb : b = 'u' ∨ b = 'U'
      · rw [if_pos hb] at h ⊢
        -- Neither the letter nor what stands there now is a brace.
        have hhead := head?_swap hc hd (show '{' ∉ letters ++ leads by decide) t x y
        by_cases hbrace : (t ++ c :: x).head? = some '{'
        · rw [if_pos hbrace] at h
          rw [if_pos (hhead.mpr hbrace)]
          exact h
        · rw [if_neg hbrace] at h
          rw [if_neg (mt hhead.mp hbrace)]
          split at h
          · cases h
          · next hdigits =>
            cases h
            -- All digits stand in the front.
            have hlength : escapeDigits ≤ t.length := by
              have hlong := hle _ rfl
              rw [List.length_cons, List.length_cons] at hlong
              omega
            have hrun := le_runLength_swap (p := isHexDigit) (x := c :: x) hlength (by omega) (d :: y)
            rw [Nat.min_eq_right hrun, if_neg (Nat.lt_irrefl _)]
      · rw [if_neg hb] at h ⊢
        exact h
  · have hold : v.rest.head? ≠ some '\\' := by
      rw [hrest]
      exact fun heq => ha (Option.some.inj heq)
    have hnew : (View.mk v.config v.start v.context v.previous (a :: t ++ d :: y)).rest.head? ≠
        some '\\' := fun heq => ha (Option.some.inj heq)
    rw [escape_of_head hold] at h
    rw [escape_of_head hnew]
    exact h

/-- A quote in the front behind the sigil opens the same heredoc, if the delimiter ends in the front. -/
theorem heredoc_swap_of_quote {sigil body : Text} {q : Char} {found : Option Nat} (hc : c ∈ letters)
    (hrest : v.rest = sigil ++ q :: (body ++ c :: x)) (h : v.heredoc sigil = .ok found)
    (hle : ∀ n, found = some n → n ≤ (sigil ++ q :: body).length) :
    View.heredoc { v with rest := sigil ++ q :: (body ++ d :: y) } sigil = .ok found := by
  rw [heredoc_of_quote hrest] at h
  rw [heredoc_of_quote rfl]
  by_cases hends : body.dropWhile Lexicon.isDelimiterCharacter = []
  · -- The letter would belong to the delimiter.
    have htake : (body ++ c :: x).takeWhile Lexicon.isDelimiterCharacter =
        body ++ c :: x.takeWhile Lexicon.isDelimiterCharacter := by
      rw [List.takeWhile_append_of_pos (List.dropWhile_eq_nil_iff.mp hends),
        List.takeWhile_cons_of_pos (Lexicon.isDelimiterCharacter_letter hc)]
    have hempty : (body ++ c :: x.takeWhile Lexicon.isDelimiterCharacter).isEmpty = false := by
      cases body <;> rfl
    rw [htake, hempty] at h
    cases hq : isQuote q with
    | false =>
      rw [hq] at h
      exact h
    | true =>
      rw [hq, if_neg (by decide)] at h
      split at h
      · cases h
      · split at h
        · cases h
        · split at h
          · cases h
          · cases h
            have hlong := hle _ rfl
            simp only [List.length_append, List.length_cons] at hlong
            omega
  · rw [takeWhile_append_of_dropWhile hends, head?_dropWhile_append hends] at h ⊢
    exact h

/-- A heredoc that opens in the front is the same. -/
theorem heredoc_swap (hc : c ∈ letters) (hd : d ∈ leads) (ht : t ≠ []) (hrest : v.rest = t ++ c :: x)
    {sigil : Text} (hsigil : sigil ∈ [['#'], ['#', 'r']]) {found : Option Nat}
    (h : v.heredoc sigil = .ok found) (hle : ∀ n, found = some n → n ≤ t.length) :
    View.heredoc { v with rest := t ++ d :: y } sigil = .ok found := by
  generalize hw : ({ v with rest := t ++ d :: y } : View) = w
  have hwrest : w.rest = t ++ d :: y := hw ▸ rfl
  -- The sigil stands in front of the place, unless it is the raw one and only a hash sign does.
  have hlength : sigil.length ≤ t.length ∨ sigil = ['#', 'r'] ∧ ∃ a, t = [a] := by
    rcases t with _ | ⟨a, _ | ⟨b, t⟩⟩
    · exact absurd rfl ht
    · simp only [List.mem_cons, List.not_mem_nil, or_false] at hsigil
      rcases hsigil with rfl | rfl
      · exact .inl (Nat.le_refl _)
      · exact .inr ⟨rfl, a, rfl⟩
    · left
      simp only [List.mem_cons, List.not_mem_nil, or_false] at hsigil
      rcases hsigil with rfl | rfl <;> simp
  rcases hlength with hlength | ⟨rfl, a, rfl⟩
  · by_cases hbegins : sigil.isPrefixOf t = true
    · obtain ⟨body, rfl⟩ := List.isPrefixOf_iff_prefix.mp hbegins
      cases body with
      | nil =>
        rw [List.append_nil] at hrest hwrest
        rw [heredoc_of_not_quote hrest (isQuote_letter hc)] at h
        rw [heredoc_of_not_quote hwrest (isQuote_lead hd)]
        exact h
      | cons q body =>
        rw [List.append_assoc, List.cons_append] at hrest hwrest
        have hswap := heredoc_swap_of_quote (d := d) (y := y) hc hrest h hle
        rwa [← List.cons_append, ← List.append_assoc, hw] at hswap
    · have hnone : ∀ {u : View} {z : Text}, u.rest = t ++ z → u.heredoc sigil = .ok none := by
        intro u z hu
        refine heredoc_of_not_sigil ?_
        rw [hu, isPrefixOf_append_iff hlength]
        exact Bool.eq_false_iff.mpr hbegins
      rw [hnone hrest] at h
      rw [hnone hwrest]
      exact h
  · -- Only a hash sign is in front of the letter.
    have hfound : found = none := by
      refine Option.eq_none_iff_forall_ne_some.mpr fun n hn => ?_
      subst hn
      have hlow : 2 + 3 ≤ n := le_of_heredoc h
      have hhigh : n ≤ 1 := hle n rfl
      omega
    rw [hfound]
    refine heredoc_of_not_sigil ?_
    rw [hwrest, Bool.eq_false_iff, ne_eq, List.isPrefixOf_iff_prefix, List.singleton_append,
      List.cons_prefix_cons, List.cons_prefix_cons]
    exact fun hprefix => ne_of_lead hd (by decide) hprefix.2.1.symm

/-- **`EndsBefore`** — what ends a string begins behind the first characters of a text only if it ends
in the text, and it cannot begin there and go on with a character behind the text: either it is too short,
or the text has a brace behind its first characters, and what ends the string lacks the brace or the
character. -/
def EndsBefore (n : Nat) (t rest : Text) (d : Char) (hasHoles : Bool) (s : Text) : Prop :=
  (s.isPrefixOf (rest.drop n) = true → n + s.length ≤ t.length) ∧
    (n + s.length ≤ t.length ∨ hasHoles = true ∧ '{' ∈ t ∧ ('{' ∈ s → d ∉ s))

namespace EndsBefore

variable {n : Nat} {rest s : Text} {a : Char} {hasHoles : Bool}

/-- What ends the string begins the same texts. -/
theorem isPrefixOf_eq (h : EndsBefore n t rest d hasHoles s)
    (hs : s.isPrefixOf (t ++ c :: x) = true → s.length ≤ t.length) :
    s.isPrefixOf (t ++ d :: y) = s.isPrefixOf (t ++ c :: x) := by
  refine isPrefixOf_swap hs fun hall hmem => ?_
  rcases h.2 with hle | ⟨-, hbrace, hsafe⟩
  · exact Nat.le_of_add_left_le hle
  · exact absurd hmem (hsafe (hall _ hbrace))

theorem tail (h : EndsBefore (1 + n) (a :: t) (a :: rest) d hasHoles s)
    (ha : hasHoles = true → a ≠ '{') : EndsBefore n t rest d hasHoles s := by
  obtain ⟨hbegins, hsafe⟩ := h
  rw [Nat.add_comm, List.drop_succ_cons, List.length_cons] at hbegins
  rw [List.length_cons] at hsafe
  refine ⟨fun hprefix => ?_, hsafe.imp (fun hle => by omega) ?_⟩
  · have hle := hbegins hprefix
    omega
  · rintro ⟨hholes, hbrace, hlacks⟩
    exact ⟨hholes, (List.mem_cons.mp hbrace).resolve_left (ha hholes).symm, hlacks⟩

end EndsBefore

/-- The text of a string that ends in the front ends where it did. -/
theorem bodyLength_swap {stop : Option Text} {hasHoles : Bool}
    (hlt : bodyLength stop hasHoles (t ++ c :: x) < t.length)
    (hends : ∀ s, stop = some s →
      EndsBefore (bodyLength stop hasHoles (t ++ c :: x)) t (t ++ c :: x) d hasHoles s) :
    bodyLength stop hasHoles (t ++ d :: y) = bodyLength stop hasHoles (t ++ c :: x) := by
  induction t with
  | nil => cases hlt
  | cons a t ih =>
    have hsame : (∀ s, stop = some s → s.isPrefixOf (a :: (t ++ c :: x)) = true →
          s.length ≤ (a :: t).length) →
        stop.any (·.isPrefixOf (a :: (t ++ d :: y))) = stop.any (·.isPrefixOf (a :: (t ++ c :: x))) := by
      intro hs
      cases stop with
      | none => rfl
      | some s => exact (hends s rfl).isPrefixOf_eq (hs s rfl)
    rw [List.cons_append, bodyLength] at hlt hends
    rw [List.cons_append, List.cons_append, bodyLength, bodyLength]
    split at hlt
    · next hstops =>
      rw [if_pos hstops] at hends
      rw [hsame fun s hs hprefix => Nat.zero_add s.length ▸ (hends s hs).1 hprefix, if_pos hstops,
        if_pos hstops]
    · next hgoes =>
      rw [if_neg hgoes] at hends
      have hgoes' := hgoes
      rw [Bool.or_eq_true, not_or] at hgoes'
      have hbrace : hasHoles = true → a ≠ '{' := by
        rintro rfl rfl
        exact hgoes'.1 rfl
      have hbegins : ∀ s, stop = some s → ¬ s.isPrefixOf (a :: (t ++ c :: x)) = true := by
        rintro s rfl hprefix
        exact hgoes'.2 hprefix
      rw [hsame fun s hs hprefix => absurd hprefix (hbegins s hs), if_neg hgoes, if_neg hgoes,
        ih (by rw [List.length_cons] at hlt; omega) fun s hs => (hends s hs).tail hbrace]

end View

end DewyFront
