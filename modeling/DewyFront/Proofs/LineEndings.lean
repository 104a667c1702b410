/-
# DewyFront.Proofs.LineEndings — matches where a carriage return is in front of every newline

Newlines are layout, end line comments, and may stand in block comments and in strings; no other token
takes one. So with a carriage return in front of every newline the same kinds match, and each takes as
many characters more as there are newlines in what it takes. The one exception is an escape, since a
backslash governs one character: behind it there must be no newline.

* §1 texts;
* §2 offsets;
* §3 scanners that stay in a line;
* §4 scanners that go over lines;
* §5 matchers;
* §6 all kinds.
-/
import DewyFront.Proofs.Controls
import Mathlib.Order.Monotone.Basic

namespace DewyFront

variable {s t : Text} {c : Char} {n : Nat}

/-! ## §1 Texts -/

/-- **`withReturns`** — a text with a carriage return in front of every newline. -/
def withReturns (t : Text) : Text := t.flatMap fun c => if c = '\n' then ['\r', '\n'] else [c]

@[simp] theorem withReturns_nil : withReturns [] = [] := rfl

@[simp] theorem withReturns_newline (t : Text) :
    withReturns ('\n' :: t) = '\r' :: '\n' :: withReturns t := rfl

theorem withReturns_cons (h : c ≠ '\n') (t : Text) : withReturns (c :: t) = c :: withReturns t := by
  rw [withReturns, List.flatMap_cons, if_neg h]
  rfl

@[simp] theorem withReturns_append (s t : Text) :
    withReturns (s ++ t) = withReturns s ++ withReturns t :=
  List.flatMap_append

/-- In a line nothing changes. -/
theorem withReturns_of_not_mem (h : '\n' ∉ t) : withReturns t = t := by
  induction t with
  | nil => rfl
  | cons c t ih =>
    obtain ⟨hc, ht⟩ := not_or.mp (mt List.mem_cons.mpr h)
    rw [withReturns_cons (Ne.symm hc), ih ht]

theorem head?_withReturns (t : Text) :
    (withReturns t).head? = t.head?.map fun c => if c = '\n' then '\r' else c := by
  cases t with
  | nil => rfl
  | cons c t =>
    by_cases hc : c = '\n'
    · rw [hc]
      rfl
    · rw [withReturns_cons hc, List.head?_cons, List.head?_cons, Option.map_some, if_neg hc]

/-- What does not end lines is at the front where it was. -/
theorem head?_withReturns_iff (hc : ¬ IsLineBreak c) :
    (withReturns t).head? = some c ↔ t.head? = some c := by
  obtain ⟨hnewline, hreturn⟩ := not_or.mp hc
  rw [head?_withReturns]
  cases t with
  | nil => exact Iff.rfl
  | cons a t =>
    rw [List.head?_cons, Option.map_some, Option.some_inj, Option.some_inj]
    split
    · next ha =>
      subst ha
      exact iff_of_false (Ne.symm hreturn) (Ne.symm hnewline)
    · exact Iff.rfl

/-- **`grown`** — how many characters the first so many characters of a text become. -/
def grown (t : Text) (n : Nat) : Nat := n + (t.take n).count '\n'

@[simp] theorem grown_zero (t : Text) : grown t 0 = 0 := by
  rw [grown, List.take_zero, List.count_nil]

theorem grown_newline (t : Text) (n : Nat) : grown ('\n' :: t) (n + 1) = grown t n + 2 := by
  rw [grown, grown, List.take_succ_cons, List.count_cons_self]
  omega

theorem grown_cons (h : c ≠ '\n') (t : Text) (n : Nat) : grown (c :: t) (n + 1) = grown t n + 1 := by
  rw [grown, grown, List.take_succ_cons, List.count_cons_of_ne h]
  omega

theorem strictMono_grown (t : Text) : StrictMono (grown t) := by
  intro m n hlt
  have hcount : (t.take m).count '\n' ≤ (t.take n).count '\n' := by
    rw [← Nat.min_eq_left (Nat.le_of_lt hlt), ← List.take_take]
    exact (List.take_sublist m (t.take n)).count_le '\n'
  exact Nat.add_lt_add_of_lt_of_le hlt hcount

theorem grown_of_not_mem (h : '\n' ∉ t.take n) : grown t n = n := by
  rw [grown, List.count_eq_zero.mpr h, Nat.add_zero]

theorem length_withReturns_take (h : n ≤ t.length) : (withReturns (t.take n)).length = grown t n := by
  induction t generalizing n with
  | nil =>
    rw [Nat.le_zero.mp h]
    rfl
  | cons c t ih =>
    cases n with
    | zero => rw [List.take_zero, grown_zero]; rfl
    | succ n =>
      have hn := ih (Nat.le_of_succ_le_succ h)
      rw [List.take_succ_cons]
      by_cases hc : c = '\n'
      · rw [hc, withReturns_newline, List.length_cons, List.length_cons, hn, grown_newline]
      · rw [withReturns_cons hc, List.length_cons, hn, grown_cons hc]

/-- **What the first characters become comes first.** -/
theorem withReturns_take_append_drop (t : Text) (n : Nat) :
    withReturns t = withReturns (t.take n) ++ withReturns (t.drop n) := by
  rw [← withReturns_append, List.take_append_drop]

theorem take_grown (h : n ≤ t.length) : (withReturns t).take (grown t n) = withReturns (t.take n) := by
  rw [withReturns_take_append_drop t n, ← length_withReturns_take h, List.take_left]

theorem drop_grown (h : n ≤ t.length) : (withReturns t).drop (grown t n) = withReturns (t.drop n) := by
  rw [withReturns_take_append_drop t n, ← length_withReturns_take h, List.drop_left]

/-! ## §2 Offsets -/

/-- **`returnsOffset`** — where an offset of a text is with a carriage return in front of every
newline. -/
def returnsOffset : Text → Nat → Nat
  | [], n => n
  | c :: t, n =>
    if n < c.utf8Size then n else width (withReturns [c]) + returnsOffset t (n - c.utf8Size)

theorem utf8Size_le_width_withReturns (c : Char) : c.utf8Size ≤ width (withReturns [c]) := by
  by_cases hc : c = '\n'
  · rw [hc]
    decide
  · rw [withReturns_of_not_mem fun hmem => hc (List.mem_singleton.mp hmem).symm]
    exact Nat.le_refl _

/-- The order of offsets stays. -/
theorem strictMono_returnsOffset (t : Text) : StrictMono (returnsOffset t) := by
  induction t with
  | nil => exact fun _ _ h => h
  | cons c t ih =>
    intro m n hlt
    have hc := utf8Size_le_width_withReturns c
    rw [returnsOffset, returnsOffset]
    by_cases hm : m < c.utf8Size
    · rw [if_pos hm]
      split
      · exact hlt
      · exact Nat.lt_of_lt_of_le hm (Nat.le_add_right_of_le hc)
    · rw [if_neg hm, if_neg (by omega)]
      exact Nat.add_lt_add_left (ih (by omega)) _

/-- **What stands behind a text stands behind what the text becomes.** -/
theorem returnsOffset_width (s t : Text) : returnsOffset (s ++ t) (width s) = width (withReturns s) := by
  induction s with
  | nil =>
    cases t with
    | nil => rfl
    | cons c t => exact if_pos (Char.utf8Size_pos c)
  | cons c s ih =>
    have hsplit : withReturns (c :: s) = withReturns [c] ++ withReturns s := withReturns_append [c] s
    rw [List.cons_append, returnsOffset, width_cons, if_neg (Nat.not_lt.mpr (Nat.le_add_right _ _)),
      Nat.add_sub_cancel_left, ih, hsplit, width_append]

/-! ## §3 Lines -/

/-- **A scanner that stops at the end of a line sees nothing of what ends it.** -/
theorem eq_of_append_cons {α : Type} {scan : Text → α}
    (h : ∀ c, IsLineBreak c → ∀ t x, scan (t ++ c :: x) = scan t) (t : Text) :
    scan (withReturns t) = scan t := by
  by_cases hmem : '\n' ∈ t
  · obtain ⟨line, more, rfl, hline⟩ := List.eq_append_cons_of_mem hmem
    rw [withReturns_append, withReturns_newline, withReturns_of_not_mem hline, h _ (.inr rfl),
      h _ (.inl rfl)]
  · rw [withReturns_of_not_mem hmem]

/-- A clean text has nothing that ends a line. -/
theorem IsClean.not_mem (h : IsClean s) (hc : IsLineBreak c) : c ∉ s := by
  intro hmem
  have hcontrol := h c hmem
  rcases hc with rfl | rfl <;> cases hcontrol

theorem IsClean.isPrefixOf_withReturns (h : IsClean s) (t : Text) :
    s.isPrefixOf (withReturns t) = s.isPrefixOf t :=
  @eq_of_append_cons _ (fun t => s.isPrefixOf t)
    (fun _ hc => isPrefixOf_append_cons (h.not_mem hc)) t

theorem dropWhile_withReturns {p : Char → Bool} (hp : ∀ c, IsLineBreak c → p c = false) (t : Text) :
    (withReturns t).dropWhile p = withReturns (t.dropWhile p) := by
  induction t with
  | nil => rfl
  | cons c t ih =>
    by_cases hc : c = '\n'
    · rw [hc, withReturns_newline, List.dropWhile_cons_of_neg, List.dropWhile_cons_of_neg,
        withReturns_newline]
      · rw [hp '\n' (.inl rfl)]
        exact Bool.false_ne_true
      · rw [hp '\r' (.inr rfl)]
        exact Bool.false_ne_true
    · rw [withReturns_cons hc, List.dropWhile_cons, List.dropWhile_cons]
      split
      · exact ih
      · rw [withReturns_cons hc]

/-- A run takes both characters that end lines, or neither. -/
theorem runLength_withReturns {p : Char → Bool} (hp : p '\r' = p '\n') (t : Text) :
    runLength p (withReturns t) = grown t (runLength p t) := by
  have hcons : ∀ {c t}, runLength p (c :: t) = if p c then runLength p t + 1 else 0 := by
    intro c t
    rw [runLength, List.takeWhile_cons]
    split <;> rfl
  induction t with
  | nil => rfl
  | cons c t ih =>
    by_cases hc : c = '\n'
    · rw [hc, withReturns_newline, hcons, hcons, hcons, hp]
      split
      · rw [ih, grown_newline]
      · rw [grown_zero]
    · rw [withReturns_cons hc, hcons, hcons]
      split
      · rw [ih, grown_cons hc]
      · rw [grown_zero]

/-! ## §4 Several lines -/

namespace Lexicon

theorem lineCommentLength_withReturns (t : Text) :
    lineCommentLength (withReturns t) = grown t (lineCommentLength t) := by
  cases t with
  | nil => rfl
  | cons a t =>
    by_cases ha : a = '%'
    · subst ha
      rw [withReturns_cons (by decide)]
      by_cases hopens : t.head? = some '\x7b'
      · obtain ⟨more, rfl⟩ := List.head?_eq_some_iff.mp hopens
        rw [withReturns_cons (by decide)]
        rfl
      · have hopens' : (withReturns t).head? ≠ some '\x7b' :=
          mt (head?_withReturns_iff (by unfold IsLineBreak; decide)).mp hopens
        rw [lineCommentLength_percent hopens, lineCommentLength_percent hopens']
        by_cases hmem : '\n' ∈ t
        · -- The comment takes the newline, and the carriage return in front of it.
          obtain ⟨line, more, rfl, hline⟩ := List.eq_append_cons_of_mem hmem
          have hbody : ∀ d ∈ line, (d != '\n') = true := fun d hd =>
            bne_iff_ne.mpr fun heq => hline (heq ▸ hd)
          have hrun : runLength (· != '\n') (line ++ '\n' :: more) = line.length :=
            runLength_append_eq hbody fun d hd => by cases hd; rfl
          have hrun' : runLength (· != '\n') (line ++ '\r' :: '\n' :: withReturns more) =
              line.length + 1 := by
            have hreturn : ∀ d ∈ line ++ ['\r'], (d != '\n') = true :=
              List.forall_mem_append.mpr ⟨hbody, List.forall_mem_singleton.mpr rfl⟩
            have hfront := runLength_append_eq (t := '\n' :: withReturns more) hreturn
              fun d hd => by cases hd; rfl
            rw [List.append_assoc, List.length_append] at hfront
            exact hfront
          rw [withReturns_append, withReturns_newline, withReturns_of_not_mem hline, hrun, hrun',
            if_pos (by simp), if_pos (by simp), grown_cons (by decide), grown,
            List.take_append, List.take_of_length_le (Nat.le_succ _), List.count_append,
            List.count_eq_zero.mpr hline, Nat.add_sub_cancel_left]
          rfl
        · rw [withReturns_of_not_mem hmem]
          refine (grown_of_not_mem fun hnewline => ?_).symm
          exact hmem ((List.mem_cons.mp (List.mem_of_mem_take hnewline)).resolve_left (by decide))
    · have hnone : ∀ {b : Char} {x : Text}, b ≠ '%' → lineCommentLength (b :: x) = 0 := by
        intro b x hb
        simp [lineCommentLength, hb]
      by_cases hnewline : a = '\n'
      · subst hnewline
        rw [withReturns_newline, hnone (by decide), hnone ha, grown_zero]
      · rw [withReturns_cons hnewline, hnone ha, hnone ha, grown_zero]

/-- **`CommentScan.Grows`** — what is read of the same comments with a carriage return in front of every
newline: a closed one is as long as its text becomes. -/
inductive CommentScan.Grows (chars chars' : Nat) (t : Text) : CommentScan → CommentScan → Prop
  | closed (n : Nat) : Grows chars chars' t (.closed (chars + n)) (.closed (chars' + grown t n))
  | unterminated (openers openers' : List Nat) :
      Grows chars chars' t (.unterminated openers) (.unterminated openers')
  | absent : Grows chars chars' t .absent .absent

theorem CommentScan.Grows.cons {a : Char} {chars chars' : Nat} {x y : CommentScan}
    (h : Grows (chars + 1) (chars' + 1) t x y) (ha : a ≠ '\n') : Grows chars chars' (a :: t) x y := by
  cases h with
  | closed n =>
    have hgrown : Grows chars chars' (a :: t) _ _ := .closed (n + 1)
    rw [grown_cons ha, Nat.add_comm n, Nat.add_comm (grown t n), ← Nat.add_assoc, ← Nat.add_assoc]
      at hgrown
    exact hgrown
  | unterminated openers openers' => exact .unterminated openers openers'
  | absent => exact .absent

theorem CommentScan.Grows.newline {chars chars' : Nat} {x y : CommentScan}
    (h : Grows (chars + 1) (chars' + 1 + 1) t x y) : Grows chars chars' ('\n' :: t) x y := by
  cases h with
  | closed n =>
    have hgrown : Grows chars chars' ('\n' :: t) _ _ := .closed (n + 1)
    rw [grown_newline, Nat.add_comm n, Nat.add_comm (grown t n), ← Nat.add_assoc, ← Nat.add_assoc]
      at hgrown
    exact hgrown
  | unterminated openers openers' => exact .unterminated openers openers'
  | absent => exact .absent

/-- What is no mark of a comment is read by itself. -/
theorem scanNested_cons {openers : List Nat} {chars bytes : Nat} {a : Char} {x : Text}
    (hopens : ¬ (a = '%' ∧ x.head? = some '\x7b')) (hcloses : ¬ (a = '\x7d' ∧ x.head? = some '%')) :
    scanNested openers chars bytes (a :: x) = scanNested openers (chars + 1) (bytes + a.utf8Size) x := by
  rw [scanNested]
  · rintro more rfl rfl
    exact hopens ⟨rfl, rfl⟩
  · rintro more rfl rfl
    exact hcloses ⟨rfl, rfl⟩

/-- **A block comment ends where it did**: it depends on how many comments are open, not on where. -/
theorem scanNested_withReturns {openers openers' : List Nat} (hlength : openers'.length = openers.length)
    (chars chars' bytes bytes' : Nat) (t : Text) :
    CommentScan.Grows chars chars' t (scanNested openers chars bytes t)
      (scanNested openers' chars' bytes' (withReturns t)) := by
  -- Along the scan of the text without returns; the other one takes a step more at each newline.
  fun_induction scanNested openers chars bytes t generalizing openers' chars' bytes' with
  | case1 openers chars bytes rest ih =>
    rw [withReturns_cons (by decide), withReturns_cons (by decide), scanNested]
    have hrest := @ih (bytes' :: openers') (congrArg (· + 1) hlength) (chars' + 2) (bytes' + 2)
    exact (hrest.cons (by decide)).cons (by decide)
  | case2 chars bytes rest first outer more ih =>
    rw [withReturns_cons (by decide), withReturns_cons (by decide)]
    rcases openers' with _ | ⟨first', _ | ⟨outer', more'⟩⟩
    · cases hlength
    · cases hlength
    · rw [scanNested]
      have hrest := @ih (outer' :: more') (Nat.succ.inj hlength) (chars' + 2) (bytes' + 2)
      exact (hrest.cons (by decide)).cons (by decide)
  | case3 openers chars bytes rest hopeners =>
    rw [withReturns_cons (by decide), withReturns_cons (by decide)]
    have hclosed : scanNested openers' chars' bytes' ('\x7d' :: '%' :: withReturns rest) =
        .closed (chars' + 2) := by
      rw [scanNested]
      rintro first outer more rfl
      rcases openers with _ | ⟨first', _ | ⟨outer', more'⟩⟩
      · cases hlength
      · cases hlength
      · exact hopeners first' outer' more' rfl
    rw [hclosed]
    exact .closed 2
  | case4 openers chars bytes a rest hopens hcloses ih =>
    by_cases ha : a = '\n'
    · subst ha
      rw [withReturns_newline, scanNested_cons (by simp) (by simp), scanNested_cons (by simp) (by simp)]
      exact (ih hlength _ _).newline
    · have hhead : ∀ b, ¬ IsLineBreak b → (withReturns rest).head? = some b → ∃ more, rest = b :: more :=
        fun b hb h => List.head?_eq_some_iff.mp ((head?_withReturns_iff hb).mp h)
      have hopens' : ¬ (a = '%' ∧ (withReturns rest).head? = some '\x7b') := by
        rintro ⟨rfl, h⟩
        obtain ⟨more, rfl⟩ := hhead '\x7b' (by unfold IsLineBreak; decide) h
        exact hopens more rfl rfl
      have hcloses' : ¬ (a = '\x7d' ∧ (withReturns rest).head? = some '%') := by
        rintro ⟨rfl, h⟩
        obtain ⟨more, rfl⟩ := hhead '%' (by unfold IsLineBreak; decide) h
        exact hcloses more rfl rfl
      rw [withReturns_cons ha, scanNested_cons hopens' hcloses']
      exact (ih hlength _ _).cons ha
  | case5 openers chars bytes => exact .unterminated _ _

theorem scanComment_withReturns (t : Text) :
    CommentScan.Grows 0 0 t (scanComment t) (scanComment (withReturns t)) := by
  have habsent : ∀ {t : Text}, ['%', '\x7b'].isPrefixOf t = false → scanComment t = .absent := by
    intro t h
    rw [scanComment]
    rintro more rfl
    cases h
  cases hopens : ['%', '\x7b'].isPrefixOf t with
  | true =>
    obtain ⟨t, rfl⟩ := List.isPrefixOf_iff_prefix.mp hopens
    have hscan : CommentScan.Grows 2 2 t (scanNested [0] 2 2 t) (scanNested [0] 2 2 (withReturns t)) :=
      scanNested_withReturns rfl 2 2 2 2 t
    exact (hscan.cons (by decide)).cons (by decide)
  | false =>
    have hclean : IsClean ['%', '\x7b'] := .of_all (by decide)
    rw [habsent hopens, habsent (by rw [hclean.isPrefixOf_withReturns, hopens])]
    exact .absent

end Lexicon

/-- The text of a string ends where it did, if what ends it is clean. -/
theorem View.bodyLength_withReturns {stop : Option Text} (hasHoles : Bool)
    (hstop : ∀ s, stop = some s → IsClean s) (t : Text) :
    bodyLength stop hasHoles (withReturns t) = grown t (bodyLength stop hasHoles t) := by
  have hsame : ∀ t, stop.any (·.isPrefixOf (withReturns t)) = stop.any (·.isPrefixOf t) := by
    intro t
    cases stop with
    | none => rfl
    | some s => exact (hstop s rfl).isPrefixOf_withReturns t
  -- What ends the string begins no text that begins with the end of a line.
  have hbreak : ∀ c, IsLineBreak c → ∀ x, ((hasHoles && (c == '\\' || c == '\x7b')) ||
      stop.any (·.isPrefixOf (c :: x))) = stop.any (·.isPrefixOf []) := by
    intro c hc x
    have hmark : (c == '\\' || c == '\x7b') = false := by rcases hc with rfl | rfl <;> rfl
    rw [hmark, Bool.and_false, Bool.false_or]
    cases stop with
    | none => rfl
    | some s => exact isPrefixOf_append_cons ((hstop s rfl).not_mem hc) [] x
  induction t with
  | nil => rw [withReturns_nil, bodyLength, grown_zero]
  | cons c t ih =>
    by_cases hc : c = '\n'
    · subst hc
      rw [withReturns_newline, bodyLength, bodyLength, bodyLength, hbreak _ (.inr rfl),
        hbreak _ (.inl rfl), hbreak _ (.inl rfl)]
      split
      · rw [grown_zero]
      · rw [ih, Nat.add_comm 1 (bodyLength stop hasHoles t), grown_newline]
        omega
    · have hbegins := hsame (c :: t)
      rw [withReturns_cons hc] at hbegins ⊢
      rw [bodyLength, bodyLength, hbegins]
      split
      · rw [grown_zero]
      · rw [ih, Nat.add_comm 1, Nat.add_comm 1, grown_cons hc]

/-! ## §5 Matchers -/

namespace View

variable {v v' : View}

/-- **`WithReturns`** — what matchers see with a carriage return in front of every newline of the text
that is left. -/
structure WithReturns (v v' : View) : Prop where
  config : v'.config = v.config
  context : v'.context = v.context
  previous : v'.previous = v.previous
  rest : v'.rest = withReturns v.rest

theorem single_withReturns (hc : ¬ IsLineBreak c) (t : Text) : single c (withReturns t) = single c t := by
  rw [single, single]
  simp only [head?_withReturns_iff hc]

theorem either_withReturns {a b : String} (ha : IsClean a.toList) (hb : IsClean b.toList) (t : Text) :
    either a b (withReturns t) = either a b t := by
  rw [either, either, ha.isPrefixOf_withReturns, hb.isPrefixOf_withReturns]

theorem rawString_withReturns (t : Text) : rawString (withReturns t) = rawString t := by
  refine eq_of_append_cons (fun c hc t x => ?_) t
  cases t with
  | nil => rcases hc with rfl | rfl <;> rfl
  | cons a t => exact rawString_append_cons (isQuote_outside (.inr hc)) (List.cons_ne_nil a t) x

theorem closed_withReturns {closing : Option Text} (h : ∀ s, closing = some s → IsClean s) (t : Text) :
    closed closing (withReturns t) = closed closing t := by
  cases closing with
  | none => rfl
  | some s => rw [closed, closed, Option.bind_some, Option.bind_some, (h s rfl).isPrefixOf_withReturns]

/-- A block comment ends where it did, or is open as it was. -/
theorem WithReturns.blockComment (h : WithReturns v v') :
    Related LexError.SameCode (fun found found' => found' = found.map (grown v.rest)) v.blockComment
      v'.blockComment := by
  unfold View.blockComment
  rw [h.rest]
  have hscan := Lexicon.scanComment_withReturns v.rest
  generalize Lexicon.scanComment v.rest = scan at hscan
  generalize Lexicon.scanComment (withReturns v.rest) = scan' at hscan
  cases hscan with
  | closed n =>
    rw [Nat.zero_add, Nat.zero_add]
    exact .ok rfl
  | unterminated => exact .error rfl
  | absent => exact .ok rfl

/-- An escape that governs no newline is the same. -/
theorem WithReturns.escape (h : WithReturns v v') (hnewline : ¬ ['\\', '\n'] <+: v.rest) :
    Related LexError.SameCode Eq v.escape v'.escape := by
  have hrest' := h.rest
  cases hrest : v.rest with
  | nil =>
    rw [hrest, withReturns_nil] at hrest'
    rw [escape_of_head (by rw [hrest]; exact nofun), escape_of_head (by rw [hrest']; exact nofun)]
    exact .ok rfl
  | cons a t =>
    by_cases ha : a = '\\'
    · subst ha
      rw [hrest, withReturns_cons (by decide)] at hrest'
      cases t with
      | nil =>
        rw [View.escape, hrest, View.escape, hrest']
        exact .error rfl
      | cons b t =>
        have hb : b ≠ '\n' := by
          rintro rfl
          exact hnewline (hrest ▸ ⟨t, rfl⟩)
        have hbrace := head?_withReturns_iff (c := '\x7b') (t := t) (by unfold IsLineBreak; decide)
        have hdigits : runLength isHexDigit (withReturns t) = runLength isHexDigit t :=
          eq_of_append_cons (fun c hc => runLength_append_cons
            (Radix.isDigit_outside (.inr hc) .hexadecimal)) t
        rw [withReturns_cons hb] at hrest'
        rw [escape_of_rest hrest, escape_of_rest hrest', hdigits]
        simp only [hbrace]
        split
        · split
          · exact .ok rfl
          · split
            · exact .error rfl
            · exact .ok rfl
        · exact .ok rfl
    · have hslash : v.rest.head? ≠ some '\\' := by
        rw [hrest]
        exact fun heq => ha (Option.some.inj heq)
      have hslash' : v'.rest.head? ≠ some '\\' := by
        rw [hrest']
        exact mt (head?_withReturns_iff (by unfold IsLineBreak; decide)).mp hslash
      rw [escape_of_head hslash, escape_of_head hslash']
      exact .ok rfl

/-- A delimiter behind the sigil and a quote ends where it did. -/
theorem heredoc_withReturns_of_quote {sigil body : Text} {q : Char} (hq : isQuote q = true)
    (hrest : v.rest = sigil ++ q :: body) (hrest' : v'.rest = sigil ++ q :: withReturns body) :
    Related LexError.SameCode Eq (v.heredoc sigil) (v'.heredoc sigil) := by
  have hbreak : ¬ IsLineBreak q := by
    rintro (rfl | rfl) <;> cases hq
  have hdelimiter : ∀ c, IsLineBreak c → Lexicon.isDelimiterCharacter c = false := by
    rintro c (rfl | rfl) <;> decide
  have htake : (withReturns body).takeWhile Lexicon.isDelimiterCharacter =
      body.takeWhile Lexicon.isDelimiterCharacter :=
    eq_of_append_cons (fun c hc => takeWhile_append_cons (hdelimiter c hc)) body
  have hnext := head?_withReturns_iff (t := body.dropWhile Lexicon.isDelimiterCharacter) hbreak
  rw [heredoc_of_quote hrest, heredoc_of_quote hrest', htake, dropWhile_withReturns hdelimiter]
  simp only [ne_eq, hnext]
  -- No quote or no delimiter, no quote behind it, blanks alone, blanks at an end.
  split
  · exact .ok rfl
  · split
    · exact .error rfl
    · split
      · exact .error rfl
      · split
        · exact .error rfl
        · exact .ok rfl

/-- The delimiter of a heredoc ends where it did. -/
theorem WithReturns.heredoc (h : WithReturns v v') {sigil : Text} (hsigil : IsClean sigil) :
    Related LexError.SameCode Eq (v.heredoc sigil) (v'.heredoc sigil) := by
  have hrest' := h.rest
  cases hbegins : sigil.isPrefixOf v.rest with
  | false =>
    have hbegins' : sigil.isPrefixOf v'.rest = false := by
      rw [hrest', hsigil.isPrefixOf_withReturns, hbegins]
    rw [heredoc_of_not_sigil hbegins, heredoc_of_not_sigil hbegins']
    exact .ok rfl
  | true =>
    obtain ⟨body, hbody⟩ := List.isPrefixOf_iff_prefix.mp hbegins
    have hline : '\n' ∉ sigil := hsigil.not_mem (.inl rfl)
    rw [← hbody, withReturns_append, withReturns_of_not_mem hline] at hrest'
    cases body with
    | nil =>
      rw [heredoc_of_not_quote hbody.symm rfl, heredoc_of_not_quote hrest' rfl]
      exact .ok rfl
    | cons q body =>
      cases hq : isQuote q with
      | false =>
        have hq' : (withReturns (q :: body)).head?.any isQuote = false := by
          rw [head?_withReturns, List.head?_cons, Option.map_some, Option.any_some]
          split
          · rfl
          · exact hq
        rw [heredoc_of_not_quote hbody.symm hq, heredoc_of_not_quote hrest' hq']
        exact .ok rfl
      | true =>
        have hnewline : q ≠ '\n' := by
          rintro rfl
          cases hq
        rw [withReturns_cons hnewline] at hrest'
        exact heredoc_withReturns_of_quote hq hbody.symm hrest'

/-- A number ends where it did. -/
theorem WithReturns.numberAt (h : WithReturns v v') (start start' : Nat) (t : Text) :
    Related LexError.SameCode Eq (v.numberAt start t) (v'.numberAt start' (withReturns t)) := by
  rw [eq_of_append_cons fun c hc => numberAt_append_cons (.inr hc) v' start']
  exact numberAt_related h.config (by rw [h.context]) start start' t

theorem WithReturns.exponent (h : WithReturns v v') :
    Related LexError.SameCode Eq v.exponent v'.exponent := by
  by_cases hprevious : v.previous = some .number
  · have hprevious' := h.previous.trans hprevious
    have hrest' := h.rest
    unfold View.exponent
    rw [hprevious, hprevious', hrest']
    cases v.rest with
    | nil => exact .ok rfl
    | cons a t =>
      by_cases ha : a = '\n'
      · subst ha
        exact .ok rfl
      · rw [withReturns_cons ha]
        dsimp only
        split
        · exact (h.numberAt _ _ t).map fun _ _ heq => heq ▸ rfl
        · exact .ok rfl
  · rw [exponent_of_previous hprevious, exponent_of_previous (by rwa [h.previous])]
    exact .ok rfl

/-! ## §6 All kinds -/

/-- Digits in a string end where they did. -/
theorem WithReturns.basedText (h : WithReturns v v') : v'.basedText = v.basedText := by
  rw [View.basedText, View.basedText, h.context, h.rest]
  split
  · next base _ =>
    have hdigits : ∀ c, IsLineBreak c → (base.isDigit c || c == '_') = false := by
      intro c hc
      rw [Radix.isDigit_outside (.inr hc)]
      rcases hc with rfl | rfl <;> rfl
    rw [eq_of_append_cons fun c hc => runLength_append_cons (hdigits c hc)]
  · rfl

/-- **A token that is neither free nor layout is in one line**, and is the same. -/
theorem WithReturns.matchKind_of_not_isFree (h : WithReturns v v') (hends : v.context.EndsCleanly)
    {kind : TokenKind} (hfree : kind.isFree = false) (hblank : kind ≠ .blank) :
    Related LexError.SameCode Eq (v.matchKind kind) (v'.matchKind kind) := by
  have hscan : ∀ {scan : Text → Option Nat}, (∀ t, scan (withReturns t) = scan t) →
      Related LexError.SameCode Eq (.ok (scan v.rest)) (.ok (scan v'.rest)) := by
    intro scan hscan
    rw [h.rest, hscan]
    exact .ok rfl
  have hlength : ∀ {scan : Text → Nat}, (∀ c, IsLineBreak c → ∀ t x, scan (t ++ c :: x) = scan t) →
      Related LexError.SameCode Eq (.ok (positive (scan v.rest))) (.ok (positive (scan v'.rest))) :=
    fun {scan} hcons =>
      @hscan (fun t => positive (scan t)) fun t => congrArg positive (eq_of_append_cons hcons t)
  cases kind with
  | blank => exact absurd rfl hblank
  | lineComment | blockComment | stringText | rawStringText | stringEscape => cases hfree
  | name => exact hlength fun c hc => Lexicon.nameLength_append_cons (.inr hc)
  | symbol => exact hlength fun c hc => Lexicon.symbolLength_append_cons (.inr hc)
  | shift => exact hlength fun c hc => Lexicon.shiftLength_append_cons (.inr hc)
  | hashtag => exact hscan (eq_of_append_cons fun c hc => hashtag_append_cons (.inr hc))
  | leftBracket | rightBracket | leftParen | rightParen | leftBrace | rightBrace | leftAngle
  | rightAngle => exact hscan (single_withReturns (by unfold IsLineBreak; decide))
  | basedBlockOpener => exact hscan (eq_of_append_cons fun c hc => basedBlock_append_cons (.inr hc))
  | stringOpener =>
    exact hscan (eq_of_append_cons fun c hc => quoteRun_append_cons (isQuote_outside (.inr hc)))
  | rawStringOpener => exact hscan rawString_withReturns
  | basedStringOpener => exact hscan (eq_of_append_cons fun c hc => basedString_append_cons (.inr hc))
  | stringCloser | heredocCloser =>
    rw [matchKind_eq_closed (by decide), matchKind_eq_closed (by decide), h.context, h.rest,
      closed_withReturns fun s hs => hends s (Context.text?_of_closing? hs)]
    exact .ok rfl
  | holeEscape => exact hscan (eq_of_append_cons fun c hc => holeEscape_append_cons (.inr hc))
  | basedStringText =>
    rw [matchKind, matchKind, h.basedText]
    exact .ok rfl
  | restOfFileOpener | rawRestOfFileOpener =>
    exact hscan (either_withReturns (.of_all (by decide)) (.of_all (by decide)))
  | heredocOpener | rawHeredocOpener => exact h.heredoc (.of_all (by decide))
  | number =>
    rw [matchKind, matchKind, h.rest]
    exact h.numberAt _ _ _
  | exponent => exact h.exponent

/-- An escape that governs no newline has none. -/
theorem not_mem_of_escape (hnewline : ¬ ['\\', '\n'] <+: v.rest) (h : v.escape = .ok (some n)) :
    '\n' ∉ v.rest.take n := by
  by_cases hhead : v.rest.head? = some '\\'
  · obtain ⟨rest, hrest⟩ := List.head?_eq_some_iff.mp hhead
    cases rest with
    | nil =>
      rw [escape, hrest] at h
      cases h
    | cons b t =>
      have hb : '\n' ≠ b := by
        rintro rfl
        exact hnewline (hrest ▸ ⟨t, rfl⟩)
      rw [escape_of_rest hrest] at h
      rw [hrest]
      split at h
      · split at h
        · cases h
        · split at h
          · cases h
          · next hfound =>
            cases h
            have hdigits : escapeDigits ≤ runLength isHexDigit t := by omega
            have hnone : '\n' ∉ t.take escapeDigits := fun hmem =>
              absurd (forall_mem_take_of_le_runLength hdigits _ hmem) (by decide)
            rw [Nat.add_comm, List.take_succ_cons, List.take_succ_cons]
            simp [hb, hnone]
      · cases h
        simp [hb]
  · rw [escape_of_head hhead] at h
    cases h

/-- What takes nothing takes nothing with carriage returns either. -/
theorem positive_grown (t : Text) (n : Nat) : positive (grown t n) = (positive n).map (grown t) := by
  by_cases hn : n = 0
  · rw [hn, grown_zero]
    rfl
  · have hle : n ≤ grown t n := Nat.le_add_right n _
    rw [positive, positive, if_neg hn, if_neg (by omega)]
    rfl

/-- What stays in a line stays as long as it is. -/
theorem related_grown {t : Text} {x y : Except LexError (Option Nat)}
    (hsame : Related LexError.SameCode Eq x y) (hnone : ∀ n, x = .ok (some n) → '\n' ∉ t.take n) :
    Related LexError.SameCode (fun found found' => found' = found.map (grown t)) x y := by
  cases hsame with
  | error h => exact .error h
  | @ok found _ heq =>
    subst heq
    cases found with
    | none => exact .ok rfl
    | some n => exact .ok (congrArg some (grown_of_not_mem (hnone n rfl)).symm)

/-- The text of a string grows by what it has of newlines. -/
theorem WithReturns.stringText (h : WithReturns v v') (hends : v.context.EndsCleanly) (hasHoles : Bool) :
    v'.stringText hasHoles = (v.stringText hasHoles).map (grown v.rest) := by
  rw [View.stringText, View.stringText, h.context, h.rest,
    bodyLength_withReturns hasHoles fun s hs => hends s hs, positive_grown]

/-- **What matches in a text matches with a carriage return in front of every newline**, and is as long as
it becomes. -/
theorem WithReturns.matchKind (h : WithReturns v v') (hends : v.context.EndsCleanly) {kind : TokenKind}
    (hescape : kind = .stringEscape → ¬ ['\\', '\n'] <+: v.rest) :
    Related LexError.SameCode (fun found found' => found' = found.map (grown v.rest))
      (v.matchKind kind) (v'.matchKind kind) := by
  cases kind with
  | blank =>
    rw [View.matchKind, View.matchKind, h.rest, Lexicon.blankLength, Lexicon.blankLength,
      runLength_withReturns (by decide), positive_grown]
    exact .ok rfl
  | lineComment =>
    rw [View.matchKind, View.matchKind, h.rest, Lexicon.lineCommentLength_withReturns, positive_grown]
    exact .ok rfl
  | blockComment => exact h.blockComment
  | stringText | rawStringText =>
    rw [View.matchKind, View.matchKind, h.stringText hends]
    exact .ok rfl
  | stringEscape =>
    exact related_grown (h.escape (hescape rfl)) fun n hn => not_mem_of_escape (hescape rfl) hn
  | _ =>
    refine related_grown (h.matchKind_of_not_isFree hends rfl (by decide)) fun n hn => ?_
    exact (clean_of_matchKind rfl (by decide) hends hn).not_mem (.inl rfl)

end View

end DewyFront
