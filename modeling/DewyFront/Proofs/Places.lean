/-
# DewyFront.Proofs.Places — spans that stand on given places, in order

Some offsets are the places that a span may begin or end at. Covering spans, and taking the point where
one ends, gives no other places. What stands in a list is in order if each of its spans begins where the
one in front has ended, or later. A stage keeps to the places if both what it gives and what it refuses
is about them.

* §1 spans on places, and spans that cover others;
* §2 spans in order;
* §3 lists of things that stand in order;
* §4 causes and outcomes.
-/
import DewyFront.ParseError
import DewyFront.Proofs.Outcomes
import DewyFront.Proofs.Rows
import Mathlib.Order.MinMax

namespace DewyFront

variable {p : Nat → Prop}

/-! ## §1 Spans -/

namespace Span

variable {s t u : Span} {spans : List Span} {lo hi lo' hi' : Nat}

/-- **`On`** — a span that does not end before it begins, with both ends among some places. -/
structure On (p : Nat → Prop) (s : Span) : Prop where
  start : p s.start
  stop : p s.stop
  le : s.start ≤ s.stop

/-- **`Covers`** — a span with all of another in it. -/
structure Covers (s t : Span) : Prop where
  start : s.start ≤ t.start
  stop : t.stop ≤ s.stop

theorem on_point {offset : Nat} (h : p offset) : (point offset).On p := ⟨h, h, le_rfl⟩

theorem On.endPoint (h : s.On p) : s.endPoint.On p := on_point h.stop

theorem On.merge (hs : s.On p) (ht : t.On p) : (s.merge t).On p where
  start := by
    rcases min_choice s.start t.start with h | h <;> rw [Span.merge, h]
    exacts [hs.start, ht.start]
  stop := by
    rcases max_choice s.stop t.stop with h | h <;> rw [Span.merge, h]
    exacts [hs.stop, ht.stop]
  le := by
    have := hs.le
    simp only [Span.merge]
    omega

theorem On.mergeAll (hs : s.On p) (h : ∀ t ∈ spans, t.On p) : (s.mergeAll spans).On p := by
  induction spans generalizing s with
  | nil => exact hs
  | cons t spans ih =>
    exact ih (hs.merge (h t (List.mem_cons_self ..))) fun u hu => h u (List.mem_cons_of_mem t hu)

theorem Covers.refl (s : Span) : s.Covers s := ⟨le_rfl, le_rfl⟩

theorem Covers.trans (h : s.Covers t) (h' : t.Covers u) : s.Covers u :=
  ⟨h.start.trans h'.start, h'.stop.trans h.stop⟩

theorem covers_merge_left (s t : Span) : (s.merge t).Covers s := ⟨min_le_left .., le_max_left ..⟩

theorem covers_merge_right (s t : Span) : (s.merge t).Covers t := ⟨min_le_right .., le_max_right ..⟩

theorem Covers.merge (hs : u.Covers s) (ht : u.Covers t) : u.Covers (s.merge t) :=
  ⟨le_min hs.start ht.start, max_le hs.stop ht.stop⟩

theorem covers_mergeAll (s : Span) (spans : List Span) :
    (s.mergeAll spans).Covers s ∧ ∀ t ∈ spans, (s.mergeAll spans).Covers t := by
  induction spans generalizing s with
  | nil => exact ⟨.refl s, fun t ht => nomatch ht⟩
  | cons t spans ih =>
    obtain ⟨hmerge, hrest⟩ := ih (s.merge t)
    refine ⟨hmerge.trans (covers_merge_left s t), fun u hu => ?_⟩
    rcases List.mem_cons.mp hu with rfl | hu
    · exact hmerge.trans (covers_merge_right s u)
    · exact hrest u hu

theorem Covers.mergeAll (hs : u.Covers s) (h : ∀ t ∈ spans, u.Covers t) :
    u.Covers (s.mergeAll spans) := by
  induction spans generalizing s with
  | nil => exact hs
  | cons t spans ih =>
    exact ih (hs.merge (h t (List.mem_cons_self ..))) fun v hv => h v (List.mem_cons_of_mem t hv)

/-- A span that covers others begins where one of them begins and ends where one of them ends. -/
theorem exists_mergeAll_eq (s : Span) (spans : List Span) :
    (∃ t ∈ s :: spans, (s.mergeAll spans).start = t.start) ∧
      ∃ t ∈ s :: spans, (s.mergeAll spans).stop = t.stop := by
  induction spans generalizing s with
  | nil => exact ⟨⟨s, List.mem_singleton_self s, rfl⟩, s, List.mem_singleton_self s, rfl⟩
  | cons u spans ih =>
    obtain ⟨⟨t, ht, hstart⟩, t', ht', hstop⟩ := ih (s.merge u)
    constructor
    · rcases List.mem_cons.mp ht with rfl | ht
      · rcases min_choice s.start u.start with h | h
        · exact ⟨s, List.mem_cons_self .., hstart.trans h⟩
        · exact ⟨u, List.mem_cons_of_mem s (List.mem_cons_self ..), hstart.trans h⟩
      · exact ⟨t, List.mem_cons_of_mem s (List.mem_cons_of_mem u ht), hstart⟩
    · rcases List.mem_cons.mp ht' with rfl | ht'
      · rcases max_choice s.stop u.stop with h | h
        · exact ⟨s, List.mem_cons_self .., hstop.trans h⟩
        · exact ⟨u, List.mem_cons_of_mem s (List.mem_cons_self ..), hstop.trans h⟩
      · exact ⟨t', List.mem_cons_of_mem s (List.mem_cons_of_mem u ht'), hstop⟩

/-! ## §2 Order -/

/-- **`Ascends`** — spans on some places between two offsets, each behind the one in front. -/
def Ascends (p : Nat → Prop) (lo hi : Nat) : List Span → Prop
  | [] => lo ≤ hi
  | s :: rest => lo ≤ s.start ∧ s.On p ∧ Ascends p s.stop hi rest

theorem Ascends.le (h : Ascends p lo hi spans) : lo ≤ hi := by
  induction spans generalizing lo with
  | nil => exact h
  | cons s spans ih => exact h.1.trans (h.2.1.le.trans (ih h.2.2))

theorem Ascends.mono (h : Ascends p lo hi spans) (hlo : lo' ≤ lo) (hhi : hi ≤ hi') :
    Ascends p lo' hi' spans := by
  induction spans generalizing lo lo' with
  | nil => exact hlo.trans (h.trans hhi)
  | cons s spans ih => exact ⟨hlo.trans h.1, h.2.1, ih h.2.2 le_rfl⟩

theorem ascends_append {xs ys : List Span} :
    Ascends p lo hi (xs ++ ys) ↔ ∃ middle, Ascends p lo middle xs ∧ Ascends p middle hi ys := by
  induction xs generalizing lo with
  | nil => exact ⟨fun h => ⟨lo, le_rfl, h⟩, fun ⟨_, hle, h⟩ => h.mono hle le_rfl⟩
  | cons x xs ih => simp [Ascends, ih, and_assoc]

theorem Ascends.of_mem (h : Ascends p lo hi spans) (hs : s ∈ spans) :
    s.On p ∧ (Span.mk lo hi).Covers s := by
  obtain ⟨front, back, rfl⟩ := List.append_of_mem hs
  obtain ⟨middle, hfront, hle, hon, hback⟩ := ascends_append.mp h
  exact ⟨hon, ⟨hfront.le.trans hle, hback.le⟩⟩

/-- Spans in order stand so between any offsets that they are between. -/
theorem Ascends.within (h : Ascends p lo hi spans) (hle : lo' ≤ hi')
    (hspans : ∀ s ∈ spans, (Span.mk lo' hi').Covers s) : Ascends p lo' hi' spans := by
  induction spans generalizing lo lo' with
  | nil => exact hle
  | cons s spans ih =>
    obtain ⟨hs, hrest⟩ := List.forall_mem_cons.mp hspans
    refine ⟨hs.start, h.2.1, ih h.2.2 hs.stop fun t ht => ⟨?_, (hrest t ht).stop⟩⟩
    exact (h.2.2.of_mem ht).2.start

/-- Spans side by side are in order. -/
theorem Tiles.ascends (h : Tiles lo hi spans) (hlo : p lo) (hstop : ∀ s ∈ spans, p s.stop) :
    Ascends p lo hi spans := by
  induction spans generalizing lo with
  | nil => exact le_of_eq h
  | cons s spans ih =>
    obtain ⟨rfl, hlt, hrest⟩ := h
    have hs := hstop s (List.mem_cons_self ..)
    exact ⟨le_rfl, ⟨hlo, hs, hlt.le⟩, ih hrest hs fun t ht => hstop t (List.mem_cons_of_mem s ht)⟩

end Span

/-! ## §3 Lists -/

section Lists

variable {α : Type} {place : α → Span} {q : α → Prop} {lo hi lo' hi' : Nat} {x y : α} {xs ys : List α}

/-- **`InOrder`** — things that satisfy `q` and stand in order. -/
structure InOrder (p : Nat → Prop) (place : α → Span) (q : α → Prop) (lo hi : Nat) (xs : List α) :
    Prop where
  ascends : Span.Ascends p lo hi (xs.map place)
  all : ∀ x ∈ xs, q x

namespace InOrder

theorem le (h : InOrder p place q lo hi xs) : lo ≤ hi := h.ascends.le

theorem nil (h : lo ≤ hi) : InOrder p place q lo hi [] := ⟨h, fun _ hx => nomatch hx⟩

theorem cons_iff : InOrder p place q lo hi (x :: xs) ↔
    lo ≤ (place x).start ∧ (place x).On p ∧ q x ∧ InOrder p place q (place x).stop hi xs := by
  constructor
  · rintro ⟨⟨hle, hon, hrest⟩, hall⟩
    exact ⟨hle, hon, hall x (List.mem_cons_self ..), hrest,
      fun y hy => hall y (List.mem_cons_of_mem x hy)⟩
  · rintro ⟨hle, hon, hx, hrest, hall⟩
    refine ⟨⟨hle, hon, hrest⟩, fun y hy => ?_⟩
    rcases List.mem_cons.mp hy with rfl | hy
    exacts [hx, hall y hy]

theorem mono (h : InOrder p place q lo hi xs) (hlo : lo' ≤ lo) (hhi : hi ≤ hi') :
    InOrder p place q lo' hi' xs := ⟨h.ascends.mono hlo hhi, h.all⟩

theorem append_iff : InOrder p place q lo hi (xs ++ ys) ↔
    ∃ middle, InOrder p place q lo middle xs ∧ InOrder p place q middle hi ys := by
  constructor
  · rintro ⟨hascends, hall⟩
    rw [List.map_append] at hascends
    obtain ⟨middle, hxs, hys⟩ := Span.ascends_append.mp hascends
    exact ⟨middle, ⟨hxs, fun x hx => hall x (List.mem_append_left ys hx)⟩,
      hys, fun y hy => hall y (List.mem_append_right xs hy)⟩
  · rintro ⟨middle, ⟨hxs, hall⟩, hys, hall'⟩
    refine ⟨?_, List.forall_mem_append.mpr ⟨hall, hall'⟩⟩
    rw [List.map_append]
    exact Span.ascends_append.mpr ⟨middle, hxs, hys⟩

theorem append {middle : Nat} (hxs : InOrder p place q lo middle xs)
    (hys : InOrder p place q middle hi ys) : InOrder p place q lo hi (xs ++ ys) :=
  append_iff.mpr ⟨middle, hxs, hys⟩

theorem of_mem (h : InOrder p place q lo hi xs) (hx : x ∈ xs) :
    (place x).On p ∧ (Span.mk lo hi).Covers (place x) ∧ q x := by
  obtain ⟨hon, hcovers⟩ := h.ascends.of_mem (List.mem_map_of_mem hx)
  exact ⟨hon, hcovers, h.all x hx⟩

theorem sublist (h : InOrder p place q lo hi ys) (hs : xs.Sublist ys) : InOrder p place q lo hi xs := by
  induction hs generalizing lo with
  | slnil => exact h
  | cons y _ ih =>
    obtain ⟨hle, hon, -, hrest⟩ := cons_iff.mp h
    exact ih (hrest.mono (hle.trans hon.le) le_rfl)
  | cons_cons y _ ih =>
    obtain ⟨hle, hon, hy, hrest⟩ := cons_iff.mp h
    exact cons_iff.mpr ⟨hle, hon, hy, ih hrest⟩

/-- What is left behind a thing in order begins where that ends. -/
theorem of_getElem? {n : Nat} (h : InOrder p place q lo hi xs) (hx : xs[n]? = some x) :
    lo ≤ (place x).start ∧ (place x).On p ∧ q x ∧
      InOrder p place q (place x).stop hi (xs.drop (n + 1)) := by
  induction xs generalizing lo n with
  | nil => cases hx
  | cons y xs ih =>
    obtain ⟨hle, hon, hy, hrest⟩ := cons_iff.mp h
    cases n with
    | zero =>
      cases hx
      exact ⟨hle, hon, hy, hrest⟩
    | succ n =>
      obtain ⟨hstop, hx⟩ := ih hrest hx
      exact ⟨hle.trans (hon.le.trans hstop), hx⟩

/-- **Things in order stand between the first and the last of them**, which are covered by the span
from the one to the other. -/
theorem tighten (h : InOrder p place q lo hi xs) (hfirst : xs.head? = some x)
    (hlast : xs.getLast? = some y) :
    InOrder p place q (place x).start (place y).stop xs ∧
      (place x).merge (place y) = ⟨(place x).start, (place y).stop⟩ ∧
      lo ≤ (place x).start ∧ (place y).stop ≤ hi := by
  obtain ⟨rest, rfl⟩ := List.head?_eq_some_iff.mp hfirst
  obtain ⟨hle, hon, hx, hrest⟩ := cons_iff.mp h
  have hraised : InOrder p place q (place x).start hi (x :: rest) :=
    cons_iff.mpr ⟨le_rfl, hon, hx, hrest⟩
  obtain ⟨front, hfront⟩ := List.getLast?_eq_some_iff.mp hlast
  rw [hfront] at hraised ⊢
  obtain ⟨middle, hinit, hend⟩ := append_iff.mp hraised
  obtain ⟨hmiddle, hony, hy, hbehind⟩ := cons_iff.mp hend
  have htight : InOrder p place q (place x).start (place y).stop (front ++ [y]) :=
    hinit.append (cons_iff.mpr ⟨hmiddle, hony, hy, nil le_rfl⟩)
  refine ⟨htight, Span.merge_eq (hinit.le.trans hmiddle) ?_, hle, hbehind.le⟩
  have hmem : x ∈ front ++ [y] := hfront ▸ List.mem_cons_self ..
  exact (htight.of_mem hmem).2.1.stop

end InOrder

end Lists

/-! ## §4 Causes and outcomes -/

namespace ParseError

/-- **`spans`** — what a cause is about. -/
def spans : ParseError → List Span
  | ellipsisBothSides span | backtickSides span _ | expectedExpression span | missingOperator span
  | elseWithoutFlow span | incompleteFlow _ span _ | tooManyReadings span _ => [span]
  | operatorWithoutOperand o | missingFlatOperand o => [o.span]
  | nestedOperator outer inner => [outer.span, inner.span]
  | severalRangeMarks marks => marks.map (·.span)

/-- **`On`** — a cause about some of the places, and about one at least. -/
structure On (p : Nat → Prop) (cause : ParseError) : Prop where
  spans : ∀ s ∈ cause.spans, s.On p
  ne_nil : cause.spans ≠ []

theorem on_of_spans_eq {cause : ParseError} {s : Span} (h : cause.spans = [s]) (hs : s.On p) :
    cause.On p where
  spans := by simpa [h] using hs
  ne_nil := by simp [h]

theorem on_missingOperand {o : Operator} (h : o.span.On p) : (missingOperand o).On p := by
  unfold missingOperand
  split <;> exact on_of_spans_eq rfl h

end ParseError

section Outcomes

variable {α β : Type} {q r : α → Prop} {x : Except (Failure ParseError) α}

/-- **`EndsOn`** — an outcome whose result satisfies `q`, or whose refusal is about some of the
places. -/
def EndsOn (p : Nat → Prop) (q : α → Prop) : Except (Failure ParseError) α → Prop
  | .ok a => q a
  | .error (.refused cause) => cause.On p
  | .error (.broken _) => True

namespace EndsOn

theorem mono (h : EndsOn p q x) (hqr : ∀ a, q a → r a) : EndsOn p r x := by
  rcases x with (cause | b) | a
  · exact h
  · trivial
  · exact hqr a h

theorem bind {q : α → Prop} {r : β → Prop} {g : α → Except (Failure ParseError) β}
    (h : EndsOn p q x) (hg : ∀ a, q a → EndsOn p r (g a)) : EndsOn p r (x >>= g) := by
  rcases x with (cause | b) | a
  · exact h
  · trivial
  · exact hg a h

theorem map {r : β → Prop} {g : α → β} (h : EndsOn p q x) (hg : ∀ a, q a → r (g a)) :
    EndsOn p r (x.map g) := by
  rcases x with (cause | b) | a
  · exact h
  · trivial
  · exact hg a h

/-- What a result is, with where it is from. -/
theorem attach (h : EndsOn p q x) : EndsOn p (fun a => q a ∧ x = .ok a) x := by
  rcases x with (cause | b) | a
  · exact h
  · trivial
  · exact ⟨h, rfl⟩

theorem foldlM {γ : Type} {step : α → γ → Except (Failure ParseError) α} {cs : List γ} {a : α}
    (ha : q a) (hstep : ∀ c ∈ cs, ∀ a, q a → EndsOn p q (step a c)) :
    EndsOn p q (cs.foldlM step a) := by
  induction cs generalizing a with
  | nil => exact ha
  | cons c cs ih =>
    rw [List.foldlM_cons]
    exact (hstep c (List.mem_cons_self ..) a ha).bind fun b hb =>
      ih hb fun d hd => hstep d (List.mem_cons_of_mem c hd)

theorem of_eq_ok {a : α} (h : EndsOn p q x) (hx : x = .ok a) : q a := by
  rw [hx] at h
  exact h

theorem of_eq_refuse {cause : ParseError} (h : EndsOn p q x) (hx : x = refuse cause) :
    cause.On p := by
  rw [hx] at h
  exact h

/-- What is known of results and of refusals is known of outcomes. -/
theorem intro (hok : ∀ a, x = .ok a → q a) (hrefused : ∀ cause, x = refuse cause → cause.On p) :
    EndsOn p q x := by
  rcases x with (cause | b) | a
  · exact hrefused cause rfl
  · trivial
  · exact hok a rfl

end EndsOn

end Outcomes

end DewyFront
