/-
# DewyFront.Proofs.Comments — block comments nest exactly

Read from the left, a text is a list of marks: openers and closers of comments, and single characters.
A closer takes the last opener that is still open, so an opener stays open exactly if no stretch behind
it closes more than it opens. A comment ends where what stands in it balances; a comment that nothing
ends is refused with the openers that stay open.

* §1 marks;
* §2 openers and closers;
* §3 the scan of a list of marks;
* §4 block comments.
-/
import DewyFront.Lexicon
import Mathlib.Data.List.Infix

namespace DewyFront
namespace Lexicon

/-! ## §1 Marks -/

/-- **`Mark`** — what is read at a time: an opener of a comment, a closer, or a single character. -/
inductive Mark where
  | opener
  | closer
  | single (c : Char)
deriving DecidableEq, Repr

/-- The characters of a mark. -/
def Mark.text : Mark → Text
  | opener => ['%', '\x7b']
  | closer => ['\x7d', '%']
  | single c => [c]

/-- **`marks`** — a text as it is read from the left. -/
def marks : Text → List Mark
  | '%' :: '{' :: rest => .opener :: marks rest
  | '}' :: '%' :: rest => .closer :: marks rest
  | c :: rest => .single c :: marks rest
  | [] => []

/-- The text of some marks. -/
def spelled (ms : List Mark) : Text := ms.flatMap Mark.text

variable {m : Mark} {ms rest : List Mark}

@[simp] theorem spelled_cons : spelled (m :: ms) = m.text ++ spelled ms := List.flatMap_cons

/-- Reading loses nothing. -/
theorem spelled_marks (t : Text) : spelled (marks t) = t := by
  fun_induction marks t with
  | case1 rest ih => rw [spelled_cons, ih]; rfl
  | case2 rest ih => rw [spelled_cons, ih]; rfl
  | case3 c rest _ _ ih => rw [spelled_cons, ih]; rfl
  | case4 => rfl

/-- **A closer is read behind any text**: neither of its characters goes with what is in front. -/
theorem marks_append_closer (t u : Text) :
    marks (t ++ '}' :: '%' :: u) = marks t ++ .closer :: marks u := by
  fun_induction marks t with
  | case1 rest ih => rw [List.cons_append, List.cons_append, marks, ih, List.cons_append]
  | case2 rest ih => rw [List.cons_append, List.cons_append, marks, ih, List.cons_append]
  | case3 c rest hopens hcloses ih =>
    rw [List.cons_append, marks, ih, List.cons_append]
    · rintro more rfl hmore
      cases rest with
      | nil => cases hmore
      | cons d rest =>
        cases hmore
        exact hopens rest rfl rfl
    · rintro more rfl hmore
      cases rest with
      | nil => cases hmore
      | cons d rest =>
        cases hmore
        exact hcloses rest rfl rfl
  | case4 => rfl

/-! ## §2 Openers and closers -/

/-- **`Contained`** — no front of a list of marks closes more than it opens. -/
def Contained (ms : List Mark) : Prop :=
  ∀ front, front <+: ms → front.count .closer ≤ front.count .opener

/-- **`Balanced`** — a list of marks closes what it opens and nothing else. -/
structure Balanced (ms : List Mark) : Prop where
  contained : Contained ms
  count_eq : ms.count .closer = ms.count .opener

/-- **`excess`** — how many closers of a list of marks find nothing to close in it. -/
def excess : List Mark → Nat
  | [] => 0
  | .opener :: ms => excess ms - 1
  | .closer :: ms => excess ms + 1
  | .single _ :: ms => excess ms

/-- What is to hold of all fronts of a list holds of the empty one, and of those with its first mark. -/
theorem forall_prefix_cons {p : List Mark → Prop} (hnil : p []) :
    (∀ front, front <+: m :: ms → p front) ↔ ∀ front, front <+: ms → p (m :: front) := by
  constructor
  · exact fun h front hfront => h _ (List.cons_prefix_cons.mpr ⟨rfl, hfront⟩)
  · rintro h (_ | ⟨d, front⟩) hprefix
    · exact hnil
    · obtain ⟨rfl, hfront⟩ := List.cons_prefix_cons.mp hprefix
      exact h front hfront

/-- No front closes more than `n` beyond what it opens if all closers but `n` find an opener. -/
theorem excess_le_iff {n : Nat} : excess ms ≤ n ↔
    ∀ front, front <+: ms → front.count .closer ≤ front.count .opener + n := by
  induction ms generalizing n with
  | nil => simp [excess]
  | cons m ms ih =>
    rw [forall_prefix_cons (by simp)]
    cases m with
    | opener =>
      rw [excess, Nat.sub_le_iff_le_add]
      refine ih.trans (forall₂_congr fun front _ => ?_)
      simp [Nat.add_right_comm, Nat.add_assoc]
    | closer =>
      cases n with
      | zero =>
        simp only [excess, Nat.add_one_ne_zero, Nat.le_zero, false_iff, not_forall]
        exact ⟨[], List.nil_prefix, by simp⟩
      | succ n => simp [excess, ih, ← Nat.add_assoc]
    | single c => simp [excess, ih]

theorem contained_iff : Contained ms ↔ excess ms = 0 := by
  rw [← Nat.le_zero, excess_le_iff]
  rfl

/-- A closer that finds nothing to close stands behind marks that close just as many besides their own. -/
theorem exists_closer_of_lt_excess {n : Nat} (h : n < excess ms) : ∃ inner back,
    ms = inner ++ .closer :: back ∧ excess inner ≤ n ∧
      inner.count .closer = inner.count .opener + n := by
  induction ms generalizing n with
  | nil => cases h
  | cons m ms ih =>
    cases m with
    | opener =>
      obtain ⟨inner, back, rfl, hexcess, hcount⟩ := ih (Nat.add_lt_of_lt_sub h)
      refine ⟨.opener :: inner, back, rfl, Nat.sub_le_of_le_add hexcess, ?_⟩
      simp only [List.count_cons_self, List.count_cons_of_ne (show Mark.opener ≠ .closer by decide)]
      omega
    | closer =>
      cases n with
      | zero => exact ⟨[], ms, rfl, Nat.le_refl 0, rfl⟩
      | succ n =>
        obtain ⟨inner, back, rfl, hexcess, hcount⟩ := ih (Nat.lt_of_succ_lt_succ h)
        refine ⟨.closer :: inner, back, rfl, Nat.succ_le_succ hexcess, ?_⟩
        simp only [List.count_cons_self, List.count_cons_of_ne (show Mark.closer ≠ .opener by decide)]
        omega
    | single c =>
      obtain ⟨inner, back, rfl, hexcess, hcount⟩ := ih h
      exact ⟨.single c :: inner, back, rfl, hexcess, by simpa using hcount⟩

/-- **`Closes`** — marks close the opener in front of them: there is a closer behind some that balance. -/
def Closes (ms : List Mark) : Prop := ∃ inner back, ms = inner ++ .closer :: back ∧ Balanced inner

theorem not_closes_iff : ¬ Closes ms ↔ Contained ms := by
  constructor
  · intro h
    rw [contained_iff]
    by_contra hne
    obtain ⟨inner, back, heq, hexcess, hcount⟩ := exists_closer_of_lt_excess (Nat.pos_of_ne_zero hne)
    exact h ⟨inner, back, heq, contained_iff.mpr (Nat.le_zero.mp hexcess), hcount⟩
  · rintro h ⟨inner, back, rfl, hbalanced⟩
    have hfront : inner ++ [.closer] <+: inner ++ .closer :: back := ⟨back, by simp⟩
    have hle := h _ hfront
    have hcount := hbalanced.count_eq
    simp only [List.count_append, List.count_singleton_self,
      List.count_singleton, beq_iff_eq, reduceCtorEq, if_false] at hle
    omega

instance : DecidablePred Contained := fun _ => decidable_of_iff _ contained_iff.symm

instance : DecidablePred Closes := fun _ => decidable_of_iff _ (not_iff_comm.mp not_closes_iff)

theorem balanced_iff : Balanced ms ↔ Contained ms ∧ ms.count .closer = ms.count .opener :=
  ⟨fun h => ⟨h.contained, h.count_eq⟩, fun h => ⟨h.1, h.2⟩⟩

instance : DecidablePred Balanced := fun _ => decidable_of_iff _ balanced_iff.symm

/-- **`staysOpen`** — the offsets of the openers that nothing closes, the first mark being at `offset`. -/
def staysOpen (offset : Nat) : List Mark → List Nat
  | [] => []
  | m :: ms =>
    let more := staysOpen (offset + width m.text) ms
    if m = .opener ∧ ¬ Closes ms then offset :: more else more

theorem mem_staysOpen {offset o : Nat} : o ∈ staysOpen offset ms ↔
    ∃ front back, ms = front ++ .opener :: back ∧ ¬ Closes back ∧ offset + width (spelled front) = o := by
  induction ms generalizing offset with
  | nil => simp [staysOpen]
  | cons m ms ih =>
    have hmore : (∃ front back, m :: ms = (m :: front) ++ .opener :: back ∧ ¬ Closes back ∧
        offset + width (spelled (m :: front)) = o) ↔ o ∈ staysOpen (offset + width m.text) ms := by
      simp [ih, spelled, Nat.add_assoc]
    have hsplit : (∃ front back, m :: ms = front ++ .opener :: back ∧ ¬ Closes back ∧
        offset + width (spelled front) = o) ↔
          ((m = .opener ∧ ¬ Closes ms) ∧ o = offset) ∨ o ∈ staysOpen (offset + width m.text) ms := by
      rw [← hmore]
      constructor
      · rintro ⟨_ | ⟨d, front⟩, back, heq, hback, ho⟩
        · cases heq
          exact .inl ⟨⟨rfl, hback⟩, ho.symm⟩
        · cases heq
          exact .inr ⟨front, back, rfl, hback, ho⟩
      · rintro (⟨⟨rfl, hback⟩, rfl⟩ | ⟨front, back, heq, hback, ho⟩)
        · exact ⟨[], ms, rfl, hback, rfl⟩
        · exact ⟨m :: front, back, heq, hback, ho⟩
    rw [hsplit, staysOpen]
    split
    · next h => simp [h]
    · next h => simp [h]

theorem pairwise_staysOpen (offset : Nat) (ms : List Mark) :
    (staysOpen offset ms).Pairwise (· < ·) := by
  induction ms generalizing offset with
  | nil => exact .nil
  | cons m ms ih =>
    rw [staysOpen]
    split
    · next h =>
      refine .cons (fun o ho => ?_) (ih _)
      obtain ⟨front, back, -, -, rfl⟩ := mem_staysOpen.mp ho
      have hwidth : width m.text = 2 := by rw [h.1]; rfl
      omega
    · exact ih _

/-! ## §3 Scans -/

/-- **`scanMarks`** — reads on inside block comments, mark by mark. -/
def scanMarks (openers : List Nat) (chars bytes : Nat) : List Mark → CommentScan
  | [] => .unterminated openers.reverse
  | m :: ms =>
    let stop := chars + m.text.length
    let next := bytes + width m.text
    match m, openers with
    | .opener, _ => scanMarks (bytes :: openers) stop next ms
    | .closer, _ :: outer :: more => scanMarks (outer :: more) stop next ms
    | .closer, _ => .closed stop
    | .single _, _ => scanMarks openers stop next ms

/-- **A scan goes by the marks of its text.** -/
theorem scanNested_eq (openers : List Nat) (chars bytes : Nat) (t : Text) :
    scanNested openers chars bytes t = scanMarks openers chars bytes (marks t) := by
  induction openers, chars, bytes, t using scanNested.induct with
  | case1 openers chars bytes rest ih => rw [scanNested, ih, marks]; rfl
  | case2 chars bytes rest first outer more ih => rw [scanNested, ih, marks]; rfl
  | case3 openers chars bytes rest hopeners =>
    rw [marks]
    rcases openers with _ | ⟨first, _ | ⟨outer, more⟩⟩
    · rfl
    · rfl
    · exact absurd rfl (hopeners first outer more)
  | case4 openers chars bytes c rest hopens hcloses ih =>
    rw [scanNested.eq_4 openers chars bytes c rest hopens hcloses, ih, marks.eq_3 c rest hopens hcloses]
    rfl
  | case5 openers chars bytes => rfl

/-- **What balances leaves the openers as they were**, but for those that it closes besides its own. -/
theorem scanMarks_append {extra base : List Nat} {chars bytes : Nat} (hexcess : excess ms ≤ extra.length)
    (hcount : ms.count .closer = ms.count .opener + extra.length) (hbase : base ≠ []) :
    scanMarks (extra ++ base) chars bytes (ms ++ rest) =
      scanMarks base (chars + (spelled ms).length) (bytes + width (spelled ms)) rest := by
  induction ms generalizing extra chars bytes with
  | nil =>
    obtain rfl : extra = [] := List.length_eq_zero_iff.mp (by simpa using hcount.symm)
    rfl
  | cons m ms ih =>
    rw [spelled_cons, List.length_append, width_append, ← Nat.add_assoc, ← Nat.add_assoc]
    cases m with
    | opener =>
      rw [excess, Nat.sub_le_iff_le_add] at hexcess
      have hexcess : excess ms ≤ (bytes :: extra).length := hexcess
      have hcount : ms.count .closer = ms.count .opener + (bytes :: extra).length := by
        simp at hcount ⊢
        omega
      exact ih hexcess hcount
    | closer =>
      cases extra with
      | nil => cases hexcess
      | cons o extra =>
        have hcount : ms.count .closer = ms.count .opener + extra.length := by
          simp at hcount
          omega
        -- an opener is left that encloses the one closed here
        obtain ⟨outer, more, hmore⟩ := List.exists_cons_of_ne_nil
          (List.append_ne_nil_of_right_ne_nil extra hbase)
        have hstep : scanMarks (o :: extra ++ base) chars bytes (.closer :: ms ++ rest) =
            scanMarks (extra ++ base) (chars + Mark.closer.text.length)
              (bytes + width Mark.closer.text) (ms ++ rest) := by
          rw [List.cons_append, hmore]
          rfl
        rw [hstep]
        exact ih (Nat.le_of_succ_le_succ hexcess) hcount
    | single c =>
      have hcount : ms.count .closer = ms.count .opener + extra.length := by simpa using hcount
      exact ih hexcess hcount

/-- **What is left open at the end** are the openers that what follows does not close, and those in it
that stay open. -/
theorem scanMarks_unterminated {openers : List Nat} {chars bytes : Nat}
    (h : excess ms < openers.length) : scanMarks openers chars bytes ms =
      .unterminated ((openers.drop (excess ms)).reverse ++ staysOpen bytes ms) := by
  induction ms generalizing openers chars bytes with
  | nil => simp [scanMarks, excess, staysOpen]
  | cons m ms ih =>
    cases m with
    | opener =>
      have hlt : excess ms < (bytes :: openers).length := by
        simp only [excess, List.length_cons] at h ⊢
        omega
      refine (ih hlt).trans ?_
      cases hexcess : excess ms with
      | zero => simp [staysOpen, not_closes_iff, contained_iff, excess, hexcess]
      | succ n => simp [staysOpen, not_closes_iff, contained_iff, excess, hexcess]
    | closer =>
      rcases openers with _ | ⟨o, _ | ⟨outer, more⟩⟩
      · cases h
      · exact absurd (Nat.lt_of_succ_lt_succ h) (Nat.not_lt_zero _)
      · have hlt : excess ms < (outer :: more).length := Nat.lt_of_succ_lt_succ h
        refine (ih hlt).trans ?_
        simp [staysOpen, excess]
    | single c =>
      refine (ih h).trans ?_
      simp [staysOpen, excess]

/-! ## §4 Comments -/

/-- **Block comments nest exactly.** Behind an opener and a text that balances, the next closer ends the
comment, whatever follows. If nothing closes the first opener, the openers that are reported are those
that nothing closes, in their order, the outermost first. -/
theorem scanComment_nests :
    (∀ t u : Text, Balanced (marks t) →
      let source := '%' :: '{' :: (t ++ '}' :: '%' :: u)
      scanComment source = .closed (t.length + 4) ∧ width (source.take (t.length + 4)) = width t + 4) ∧
    ∀ t : Text, ¬ Closes (marks t) → ∃ openers,
      scanComment ('%' :: '{' :: t) = .unterminated openers ∧ openers.Pairwise (· < ·) ∧
      ∀ o, o ∈ openers ↔ ∃ front back, marks ('%' :: '{' :: t) = front ++ .opener :: back ∧
        ¬ Closes back ∧ width (spelled front) = o := by
  constructor
  · intro t u h source
    constructor
    · have hscan : scanMarks ([] ++ [0]) 2 2 (marks t ++ .closer :: marks u) =
          scanMarks [0] (2 + (spelled (marks t)).length) (2 + width (spelled (marks t)))
            (.closer :: marks u) :=
        scanMarks_append (Nat.le_of_eq (contained_iff.mp h.contained)) h.count_eq (List.cons_ne_nil _ _)
      rw [spelled_marks] at hscan
      calc scanComment source
        _ = scanNested [0] 2 2 (t ++ '}' :: '%' :: u) := rfl
        _ = .closed (2 + t.length + 2) := by
          rw [scanNested_eq, marks_append_closer]
          exact hscan
        _ = .closed (t.length + 4) := by rw [Nat.add_comm 2, Nat.add_assoc]
    · have htake : source.take (t.length + 4) = '%' :: '{' :: (t ++ ['}', '%']) := by
        have hsource : source = ('%' :: '{' :: (t ++ ['}', '%'])) ++ u := by simp [source]
        rw [hsource]
        exact List.take_left' (by simp)
      have hends : '%'.utf8Size = 1 ∧ '{'.utf8Size = 1 ∧ '}'.utf8Size = 1 := by decide
      rw [htake]
      simp only [width_cons, width_append, width_nil, hends]
      omega
  · intro t h
    have hopen : staysOpen 0 (marks ('%' :: '{' :: t)) = 0 :: staysOpen 2 (marks t) := by
      rw [marks, staysOpen, if_pos ⟨rfl, h⟩]
      rfl
    refine ⟨staysOpen 0 (marks ('%' :: '{' :: t)), ?_, pairwise_staysOpen _ _, fun o => ?_⟩
    · have hzero := contained_iff.mp (not_closes_iff.mp h)
      have hscan := @scanMarks_unterminated (marks t) [0] 2 2 (by rw [hzero]; exact Nat.one_pos)
      rw [hzero] at hscan
      rw [hopen]
      exact (scanNested_eq [0] 2 2 t).trans hscan
    · simpa using @mem_staysOpen (marks ('%' :: '{' :: t)) 0 o

/-- A text that balances although it ends with half a closer, in front of half an opener; and a text in
which the first of two comments is closed inside a third. -/
theorem scanComment_nests_of_halves :
    Balanced (marks ['%', '{', 'é', '}', '%', '}']) ∧
    scanComment ['%', '{', '%', '{', 'é', '}', '%', '}', '}', '%', '{'] = .closed 10 ∧
    ¬ Closes (marks ['%', '%', '{', '}', '%', 'é', '%', '{']) ∧
    ∃ openers, scanComment ['%', '{', '%', '%', '{', '}', '%', 'é', '%', '{'] = .unterminated openers ∧
      openers.Pairwise (· < ·) ∧
      ∀ o, o ∈ openers ↔ ∃ front back,
        marks ['%', '{', '%', '%', '{', '}', '%', 'é', '%', '{'] = front ++ .opener :: back ∧
          ¬ Closes back ∧ width (spelled front) = o := by
  have hbalanced : Balanced (marks ['%', '{', 'é', '}', '%', '}']) := by decide
  have hopen : ¬ Closes (marks ['%', '%', '{', '}', '%', 'é', '%', '{']) := by decide
  exact ⟨hbalanced, (scanComment_nests.1 _ ['{'] hbalanced).1, hopen,
    scanComment_nests.2 _ hopen⟩

end Lexicon
end DewyFront
