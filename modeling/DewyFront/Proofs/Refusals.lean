/-
# DewyFront.Proofs.Refusals — why an operator is refused, and why there is another to reduce

An operator whose operands are drawn to it is refused for one of three causes: it stands directly
inside itself, its range has several range marks, or a postfix operator is still pending in front of
its run. The first two are refusals of the node that the operator would make. The third is not: the
pending operator can be reduced, so there always is a stretch that can be joined.

* §1 refusals;
* §2 refusals of an operator;
* §3 passes, operator by operator;
* §4 stretches that can be joined;
* §5 runs.
-/
import DewyFront.Proofs.Climbing

namespace DewyFront

/-! ## §1 Refusals -/

namespace Reduction

variable {front back drawn : List Drawn} {o : Operator} {pull : Pull} {cause : ParseError}

theorem pullOf_ne_refuse (left right : Option Operator) (e : Expr) :
    pullOf left right e ≠ refuse cause := by
  rw [pullOf_eq]
  intro h
  split at h
  · cases h
  · split at h
    · cases h
    · split at h
      · cases h
      · split at h <;> cases h

/-- A survey is not refused: it finds what every slot is drawn to, or a contested juxtaposition. -/
theorem surveyFrom_ne_refuse (previous : Option Slot) (place : Nat) (slots : List Slot) :
    surveyFrom previous place slots ≠ refuse cause := by
  induction slots generalizing previous place with
  | nil => rintro ⟨⟩
  | cons s slots ih =>
    intro h
    cases s with
    | operator o =>
      rcases bind_refuse_iff.mp h with h | ⟨sv, -, h⟩
      · exact ih _ _ h
      · cases h
    | node e =>
      rcases bind_refuse_iff.mp h with h | ⟨found, -, h⟩
      · exact pullOf_ne_refuse _ _ _ h
      · cases found with
        | some pull =>
          rcases bind_refuse_iff.mp h with h | ⟨sv, -, h⟩
          · exact ih _ _ h
          · cases h
        | none =>
          rcases bind_refuse_iff.mp h with h | ⟨place', -, h⟩
          · unfold contestedAt at h
            split at h
            · cases h
            · split at h <;> cases h
          · cases h

/-! ## §2 Operators -/

/-- **`Refused`** — why the operator between `front` and `back` is refused. -/
inductive Refused (front : List Drawn) (o : Operator) (back : List Drawn) : ParseError → Prop
  /-- An operand of the node is made with the same operator. -/
  | nested {r : Reduction} {left right : Expr} {child : Expr} {inner : Operator}
      (halone : ∃ level ∈ o.op.levels, level.assoc = .alone) (hmade : Made front o back r)
      (hnode : r.node = binaryNode o left right) (hchild : child = left ∨ child = right)
      (hinner : child.binaryOperator? = some inner) (hsame : inner.op = o.op) :
      Refused front o back (.nestedOperator o inner)
  /-- The node is a range with several range marks. -/
  | marks {r : Reduction} {operands : List Expr} {span : Span} (hrange : o.op = .bond .range)
      (hmade : Made front o back r) (hnode : r.node = .flat o operands span)
      (hmarks : 1 < (rangeMarks operands).length) :
      Refused front o back (.severalRangeMarks (rangeMarks operands))
  /-- A postfix operator is pending in front of an operator of the run. -/
  | pending {inner rest : List Drawn} {q p : Operator} {x y : Pull} (hflat : o.op.isFlat = true)
      (hfront : front = inner ++ ⟨.operator q, x⟩ :: ⟨.operator p, y⟩ :: rest)
      (hafter : q.op.isAfter = true) (hsame : p.op = o.op) :
      Refused front o back (.missingFlatOperand o)

/-- A node is refused for an operand that has the same operator between its parts. -/
theorem checkNesting_refused {child : Expr} (h : checkNesting o child = refuse cause) :
    ∃ inner, child.binaryOperator? = some inner ∧ inner.op = o.op ∧
      cause = .nestedOperator o inner := by
  unfold checkNesting at h
  split at h
  · next inner hinner =>
    split at h
    · next hsame =>
      cases h
      exact ⟨inner, hinner, hsame, rfl⟩
    · cases h
  · cases h

theorem checkRange_refused {operands : List Expr} (h : checkRange o operands = refuse cause) :
    o.op = .bond .range ∧ 1 < (rangeMarks operands).length ∧
      cause = .severalRangeMarks (rangeMarks operands) := by
  unfold checkRange at h
  dsimp only at h
  split at h
  · next hrange =>
    cases h
    exact ⟨hrange.1, hrange.2, rfl⟩
  · cases h

/-- Gathering is refused at an operator of the run that no operand stands in front of. -/
theorem gatherBefore_refused {before : List Drawn} (h : gatherBefore o before = refuse cause) :
    cause = .missingFlatOperand o ∧ ∃ inner p x rest, before = inner ++ ⟨.operator p, x⟩ :: rest ∧
      p.op = o.op ∧ ∀ e pull more, rest ≠ ⟨.node e, pull⟩ :: more := by
  fun_induction gatherBefore o before with
  | case1 p x n rest hp ih =>
    rcases bind_refuse_iff.mp h with h | ⟨found, -, h⟩
    · obtain ⟨hcause, inner, q, y, more, rfl, hrest⟩ := ih h
      exact ⟨hcause, ⟨.operator p, x⟩ :: ⟨.node n, .right⟩ :: inner, q, y, more, rfl, hrest⟩
    · cases h
  | case2 => cases h
  | case3 => cases h
  | case4 => cases h
  | case5 p x rest hnode hp =>
    cases h
    exact ⟨rfl, [], p, x, rest, rfl, hp, hnode⟩
  | case6 => cases h
  | case7 => cases h

/-- Where an operator has its turn, no other operator stands in front unless it is postfix. -/
theorem isAfter_of_turn {inner : List Slot} {q : Operator}
    (h : turnOf (inner ++ [.operator q]) = some .operator) : q.op.isAfter = true := by
  rw [turnOf_concat] at h
  obtain ⟨t, -, hnext⟩ := Option.bind_eq_some_iff.mp h
  cases hwants : t.wants with
  | true =>
    obtain ⟨-, hturn⟩ := (Turn.next_operator_of_wants hwants).mp hnext
    cases hturn
  | false =>
    cases t with
    | operand | closing => cases hwants
    | done => cases hnext
    | operator =>
      rcases Turn.next_operator hnext with ⟨-, hturn⟩ | ⟨-, hafter, -⟩
      · cases hturn
      · exact hafter

/-- An operator that never stands in front of an operand has the turn of an operator. -/
theorem turn_of_not_isBefore {front back : List Slot} (hs : Shaped (front ++ .operator o :: back))
    (ho : o.op.isBefore = false) : turnOf front = some .operator := by
  obtain ⟨t, ht, hrest⟩ := complete_append.mp hs
  obtain ⟨u, hnext, -⟩ := complete_cons.mp hrest
  have hwants : t.wants = false := by
    refine Bool.eq_false_iff.mpr fun hw => ?_
    rw [((Turn.next_operator_of_wants hw).mp hnext).1] at ho
    cases ho
  cases t with
  | operand | closing => cases hwants
  | done => cases hnext
  | operator => exact ht

theorem forms_of_isFlat {op : Op} (h : op.isFlat = true) :
    op.isBefore = false ∧ op.isAfter = false := by
  obtain ⟨row, hls⟩ := Op.levels_of_isFlat h
  simp [Op.isBefore, Op.isAfter, hls]

/-- **What is refused for a missing operand has a postfix operator pending in front of its run.** -/
theorem refused_of_gatherBefore (hflat : o.op.isFlat = true)
    (hs : Shaped ((front ++ ⟨.operator o, pull⟩ :: back).map (·.slot))) {l : Expr} {inner : List Drawn}
    (hfront : front = inner ++ [⟨.node l, .right⟩])
    (h : gatherBefore o front.reverse.tail = refuse cause) : Refused front o back cause := by
  obtain ⟨rfl, between, p, y, rest, hbetween, hsame, hnode⟩ := gatherBefore_refused h
  have hinner : inner = rest.reverse ++ ⟨.operator p, y⟩ :: between.reverse := by
    rw [hfront, List.reverse_append, List.reverse_singleton, List.singleton_append,
      List.tail_cons] at hbetween
    rw [← List.reverse_reverse inner, hbetween]
    simp
  have hturn : turnOf (rest.reverse.map (·.slot)) = some .operator := by
    have hshape : Shaped (rest.reverse.map (·.slot) ++ .operator p ::
        (between.reverse.map (·.slot) ++ .node l :: .operator o :: back.map (·.slot))) := by
      rw [hfront, hinner] at hs
      simpa using hs
    apply turn_of_not_isBefore hshape
    rw [hsame]
    exact (forms_of_isFlat hflat).1
  cases rest with
  | nil => cases hturn
  | cons d rest =>
    obtain ⟨s, x⟩ := d
    cases s with
    | node e =>
      have hx := hnode e x rest
      exact absurd rfl hx
    | operator q =>
      rw [List.reverse_cons, List.map_append, List.map_singleton] at hturn
      have hsplit : front = rest.reverse ++ ⟨.operator q, x⟩ :: ⟨.operator p, y⟩ ::
          (between.reverse ++ [⟨.node l, .right⟩]) := by
        rw [hfront, hinner]
        simp
      exact .pending hflat hsplit (isAfter_of_turn hturn) hsame

/-- The node that a level of an operator between two operands would make. -/
theorem made_of_both? {l r : Expr} (hbinary : o.op.isBinary = true) (hflat : o.op.isFlat = false)
    (hboth : Site.both? ⟨front.reverse, o, front.length, back⟩ = some (l, r)) :
    ∃ made, Made front o back made ∧ made.node = binaryNode o l r := by
  refine ⟨⟨binaryNode o l r, front.length - 1, front.length + 2, .binary, 0⟩, ?_, rfl⟩
  exact made_binaryForm (l := ⟨0, .before⟩) hbinary hflat (by simp [binaryForm, hboth, Level.powers])

/-- An operator that stands alone is refused if one of its level stands inside an operand of it. -/
theorem refused_of_aloneForm {l : Level} (hls : o.op.levels = [l]) (halone : l.assoc = .alone)
    (h : aloneForm ⟨front.reverse, o, front.length, back⟩ l = refuse cause) :
    Refused front o back cause := by
  have hmem : l ∈ o.op.levels := hls ▸ List.mem_singleton_self l
  have hbinary : o.op.isBinary = true := Op.isBinary_iff.mpr ⟨l, hmem, by simp [Level.isBinary, halone]⟩
  have hflat : o.op.isFlat = false := by simp [Op.isFlat, hls, halone]
  unfold aloneForm at h
  split at h
  · next left right hboth =>
    obtain ⟨made, hmade, hnode⟩ := made_of_both? hbinary hflat hboth
    -- The left operand is looked at first.
    rcases bind_refuse_iff.mp h with h | ⟨-, -, h⟩
    · obtain ⟨inner, hinner, hsame, rfl⟩ := checkNesting_refused h
      exact .nested ⟨l, hmem, halone⟩ hmade hnode (.inl rfl) hinner hsame
    · rcases bind_refuse_iff.mp h with h | ⟨-, -, h⟩
      · obtain ⟨inner, hinner, hsame, rfl⟩ := checkNesting_refused h
        exact .nested ⟨l, hmem, halone⟩ hmade hnode (.inr rfl) hinner hsame
      · cases h
  · cases h

/-- A run is refused for an operand that is missing in front of it, or for its marks. -/
theorem refused_of_flatForm (hflat : o.op.isFlat = true)
    (hsurveyed : Surveyed (front ++ ⟨.operator o, pull⟩ :: back))
    (hs : Shaped ((front ++ ⟨.operator o, pull⟩ :: back).map (·.slot)))
    (h : flatForm ⟨front.reverse, o, front.length, back⟩ = refuse cause) :
    Refused front o back cause := by
  unfold flatForm at h
  split at h
  · cases h
  · next left right hboth =>
    rcases bind_refuse_iff.mp h with h | ⟨gathered, hg, h⟩
    · obtain ⟨before', hbefore⟩ := left?_eq_some (both?_eq_some hboth).1
      exact refused_of_gatherBefore hflat hs (eq_concat_of_reverse hbefore) h
    · cases gathered with
      | none => cases h
      | some es =>
        -- Nothing of the run stands behind the operator, so all operands are there.
        obtain ⟨hafter, hmade⟩ := made_of_gathered hflat hsurveyed hboth hg
        dsimp only at h
        rw [hafter] at h
        rcases bind_refuse_iff.mp h with h | ⟨gathered, hg', h⟩
        · cases h
        · cases hg'
          rcases bind_refuse_iff.mp h with h | ⟨-, -, h⟩
          · obtain ⟨hrange, hmarks, rfl⟩ := checkRange_refused h
            exact .marks hrange hmade rfl hmarks
          · cases h

/-- **An operator is refused for what it would be made to**, or a postfix operator is pending in
front of its run. -/
theorem refused_of_at? (hsurveyed : Surveyed (front ++ ⟨.operator o, pull⟩ :: back))
    (hs : Shaped ((front ++ ⟨.operator o, pull⟩ :: back).map (·.slot)))
    (h : at? ⟨front.reverse, o, front.length, back⟩ = refuse cause) : Refused front o back cause := by
  have ha := Op.arranged_levels o.op
  generalize hls : o.op.levels = ls at ha
  cases ha with
  | none =>
    rw [at?_of_levels_nil hls] at h
    cases h
  | one l =>
    rw [at?_of_levels_one hls, map_refuse_iff] at h
    unfold formsAt at h
    split at h
    · cases h
    · cases h
    · next halone => exact refused_of_aloneForm hls halone h
    · next hassoc =>
      have hflat : o.op.isFlat = true := Op.isFlat_iff.mpr ⟨l, hls ▸ List.mem_singleton_self l, hassoc⟩
      exact refused_of_flatForm hflat hsurveyed hs h
    · cases h
    · cases h
  | dual row =>
    rw [at?_of_levels_dual hls] at h
    cases h
  | split =>
    rw [at?_of_holdsContested (Op.holdsContested_iff.mpr hls)] at h
    cases h

/-! ## §3 Passes -/

section Passes

variable {slots next : List Slot} {pulls : List Pull} {inner rest : List Drawn} {d : Drawn} {s : Site}
  {rs : List Reduction}

/-- **`IsSite`** — the site of one of the operators that stand behind `inner`. -/
def IsSite (inner rest : List Drawn) (s : Site) : Prop :=
  ∃ middle o pull back, rest = middle ++ ⟨.operator o, pull⟩ :: back ∧
    s = ⟨(inner ++ middle).reverse, o, (inner ++ middle).length, back⟩

theorem IsSite.first : IsSite inner (⟨.operator o, pull⟩ :: back)
    ⟨inner.reverse, o, inner.length, back⟩ :=
  ⟨[], o, pull, back, rfl, by rw [List.append_nil]⟩

theorem IsSite.behind (h : IsSite (inner ++ [d]) rest s) : IsSite inner (d :: rest) s := by
  obtain ⟨middle, o, pull, back, rfl, rfl⟩ := h
  exact ⟨d :: middle, o, pull, back, rfl, by simp⟩

/-- A pass is refused at one of its operators. -/
theorem exists_site_of_refused (inner : List Drawn)
    (h : allFrom inner.reverse inner.length rest = refuse cause) :
    ∃ s, IsSite inner rest s ∧ at? s = refuse cause := by
  induction rest generalizing inner with
  | nil => cases h
  | cons d rest ih =>
    have hrest : allFrom (d :: inner.reverse) (inner.length + 1) rest = refuse cause →
        ∃ s, IsSite inner (d :: rest) s ∧ at? s = refuse cause := by
      intro h
      obtain ⟨s, hs, hat⟩ := ih (inner ++ [d]) (by simpa using h)
      exact ⟨s, hs.behind, hat⟩
    obtain ⟨s, pull⟩ := d
    cases s with
    | node e => exact hrest h
    | operator o =>
      rw [allFrom] at h
      rcases bind_refuse_iff.mp h with hat | ⟨found, -, h⟩
      · exact ⟨_, .first, hat⟩
      · rcases bind_refuse_iff.mp h with h | ⟨others, -, h⟩
        · exact hrest h
        · cases h

/-- The reductions of a pass are those of its operators. -/
theorem exists_site_of_mem (inner : List Drawn)
    (h : allFrom inner.reverse inner.length rest = .ok rs) :
    ∀ r ∈ rs, ∃ s, IsSite inner rest s ∧ at? s = .ok (some r) := by
  induction rest generalizing inner rs with
  | nil =>
    cases h
    simp
  | cons d rest ih =>
    have hrest : ∀ {rs}, allFrom (d :: inner.reverse) (inner.length + 1) rest = .ok rs →
        ∀ r ∈ rs, ∃ s, IsSite inner (d :: rest) s ∧ at? s = .ok (some r) := by
      intro rs h r hr
      obtain ⟨s, hs, hat⟩ := ih (inner ++ [d]) (by simpa using h) r hr
      exact ⟨s, hs.behind, hat⟩
    obtain ⟨s, pull⟩ := d
    cases s with
    | node e => exact hrest h
    | operator o =>
      rw [allFrom] at h
      obtain ⟨found, hat, h⟩ := bind_ok_iff.mp h
      obtain ⟨others, hothers, h⟩ := bind_ok_iff.mp h
      cases h
      intro r hr
      rcases List.mem_append.mp hr with hr | hr
      · rw [Option.mem_toList.mp hr] at hat
        exact ⟨_, .first, hat⟩
      · exact hrest hothers r hr

/-- **`Stands`** — an operator of a list that is decided, with what the slots around it are drawn
to. -/
structure Stands (slots : List Slot) (front : List Drawn) (o : Operator) (pull : Pull)
    (back : List Drawn) : Prop where
  surveyed : Surveyed (front ++ ⟨.operator o, pull⟩ :: back)
  slots_eq : (front ++ ⟨.operator o, pull⟩ :: back).map (·.slot) = slots

theorem Stands.mem (h : Stands slots front o pull back) : .operator o ∈ slots := by
  rw [← h.slots_eq]
  simp

/-- The sites of a list that is decided are where its operators stand. -/
theorem exists_stands_of_isSite (hd : survey slots = .ok (.decided pulls))
    (h : IsSite [] (drawnOf slots pulls) s) : ∃ front o pull back,
      Stands slots front o pull back ∧ s = ⟨front.reverse, o, front.length, back⟩ := by
  obtain ⟨hlen, hsurveyed⟩ := survey_decided hd
  obtain ⟨front, o, pull, back, heq, rfl⟩ := h
  refine ⟨front, o, pull, back, ⟨heq ▸ hsurveyed, ?_⟩, by rw [List.nil_append]⟩
  rw [← heq]
  exact map_slot_drawnOf hlen

/-- **A pass is refused at an operator.** -/
theorem refused_of_pass (hs : Shaped slots) (hd : survey slots = .ok (.decided pulls))
    (h : pass slots pulls = refuse cause) :
    ∃ front o pull back, Stands slots front o pull back ∧ Refused front o back cause := by
  rcases bind_refuse_iff.mp h with h | ⟨rs, -, h⟩
  · obtain ⟨s, hsite, hat⟩ := exists_site_of_refused [] h
    obtain ⟨front, o, pull, back, hstands, rfl⟩ := exists_stands_of_isSite hd hsite
    exact ⟨front, o, pull, back, hstands,
      refused_of_at? hstands.surveyed (hstands.slots_eq.symm ▸ hs) hat⟩
  · cases h

/-- What stands in a list after splicing stood there before, or is the node of a reduction. -/
theorem mem_foldr_splice {x : Slot} (h : x ∈ rs.foldr splice slots) :
    x ∈ slots ∨ ∃ r ∈ rs, x = .node r.node := by
  induction rs with
  | nil => exact .inl h
  | cons r rs ih =>
    have hrest : x ∈ rs.foldr splice slots → x ∈ slots ∨ ∃ t ∈ r :: rs, x = .node t.node := by
      intro hx
      rcases ih hx with hx | ⟨t, ht, rfl⟩
      · exact .inl hx
      · exact .inr ⟨t, List.mem_cons_of_mem _ ht, rfl⟩
    rw [List.foldr_cons, splice] at h
    rcases List.mem_append.mp h with h | h
    · exact hrest (List.mem_of_mem_take h)
    · rcases List.mem_cons.mp h with rfl | h
      · exact .inr ⟨r, List.mem_cons_self, rfl⟩
      · exact hrest (List.mem_of_mem_drop h)

/-- **What a pass puts into a list is made at an operator.** -/
theorem mem_of_pass {x : Slot} (hd : survey slots = .ok (.decided pulls))
    (h : pass slots pulls = .ok next) (hx : x ∈ next) :
    x ∈ slots ∨ ∃ front o pull back r, Stands slots front o pull back ∧
      at? ⟨front.reverse, o, front.length, back⟩ = .ok (some r) ∧ x = .node r.node := by
  obtain ⟨rs, hrs, h⟩ := bind_ok_iff.mp h
  cases h
  rcases mem_foldr_splice hx with hx | ⟨r, hr, rfl⟩
  · exact .inl hx
  · obtain ⟨s, hsite, hat⟩ := exists_site_of_mem [] hrs r hr
    obtain ⟨front, o, pull, back, hstands, rfl⟩ := exists_stands_of_isSite hd hsite
    exact .inr ⟨front, o, pull, back, r, hstands, hat, rfl⟩

end Passes

/-! ## §4 Stretches -/

/-- What stands in front of an operator is surveyed on its own, with the operator. -/
theorem Surveyed.of_prefix (h : Surveyed (front ++ ⟨.operator o, pull⟩ :: back)) :
    Surveyed (front ++ [⟨.operator o, pull⟩]) := by
  intro inner e x rest heq
  rcases List.eq_nil_or_concat' rest with rfl | ⟨rest, d, rfl⟩
  · have hlast := (List.append_inj' heq rfl).2
    cases hlast
  · have hsplit : front ++ [(⟨.operator o, pull⟩ : Drawn)] = (inner ++ ⟨.node e, x⟩ :: rest) ++ [d] := by
      rw [heq]
      simp
    obtain ⟨rfl, hd⟩ := List.append_inj' hsplit rfl
    obtain rfl := List.singleton_inj.mp hd
    have hpull := h inner e x (rest ++ ⟨.operator o, pull⟩ :: back) (by simp)
    rw [← hpull]
    cases rest <;> rfl

/-- A reduction in front of an operator does not depend on what stands behind it. -/
theorem Made.append {r : Reduction} {inner : List Drawn} {q : Operator} {x : Pull}
    (h : Made front o (inner ++ [⟨.operator q, x⟩]) r) (more : List Drawn) :
    Made front o (inner ++ ⟨.operator q, x⟩ :: more) r := by
  cases inner with
  | nil =>
    cases h with
    | binary _ _ _ hback | before _ _ hback | flat _ _ _ hback _ => cases hback
    | after hafter hfront => exact .after hafter hfront
  | cons d inner =>
    cases h with
    | binary hbinary hflat hfront hback =>
      cases hback
      exact .binary hbinary hflat hfront rfl
    | before hbefore hfree hback =>
      cases hback
      exact .before hbefore hfree rfl
    | after hafter hfront => exact .after hafter hfront
    | flat hflat hfront hrun hback hmax =>
      cases hback
      refine .flat hflat hfront hrun rfl fun p hp => hmax p ?_
      rw [← hp]
      cases inner <;> rfl

/-- **`Makes`** — an operator of a list makes a node of the operands drawn to it. -/
def Makes (drawn : List Drawn) : Prop :=
  ∃ front o pull back r, drawn = front ++ ⟨.operator o, pull⟩ :: back ∧ Made front o back r

/-- What is made up to an operator is made whatever stands behind it. -/
theorem Makes.append (h : Makes (front ++ [⟨.operator o, pull⟩])) (back : List Drawn) :
    Makes (front ++ ⟨.operator o, pull⟩ :: back) := by
  obtain ⟨front', p, x, back', r, heq, hmade⟩ := h
  rcases List.eq_nil_or_concat' back' with rfl | ⟨back', d, rfl⟩
  · obtain ⟨rfl, hd⟩ := List.append_inj' heq rfl
    cases hd
    refine ⟨front, o, pull, back, r, rfl, ?_⟩
    cases hmade with
    | binary _ _ _ hback | before _ _ hback | flat _ _ _ hback _ => cases hback
    | after hafter hfront => exact .after hafter hfront
  · have hsplit : front ++ [(⟨.operator o, pull⟩ : Drawn)] =
        (front' ++ ⟨.operator p, x⟩ :: back') ++ [d] := by
      rw [heq]
      simp
    obtain ⟨rfl, hd⟩ := List.append_inj' hsplit rfl
    obtain rfl := List.singleton_inj.mp hd
    exact ⟨front', p, x, back' ++ ⟨.operator o, pull⟩ :: back, r, by simp, hmade.append back⟩

/-- A pending postfix operator ends a shaped list of its own. -/
theorem shaped_of_pending {inner rest : List Drawn} {q p : Operator} {x y : Pull}
    (hs : Shaped ((inner ++ ⟨.operator q, x⟩ :: ⟨.operator p, y⟩ :: rest).map (·.slot)))
    (hp : p.op.isBefore = false) :
    Shaped ((inner ++ [(⟨.operator q, x⟩ : Drawn)]).map (·.slot)) ∧ inner ≠ [] := by
  have hshape : Shaped ((inner ++ [(⟨.operator q, x⟩ : Drawn)]).map (·.slot) ++
      .operator p :: rest.map (·.slot)) := by
    simpa using hs
  have hturn := turn_of_not_isBefore hshape hp
  refine ⟨⟨.operator, hturn, rfl⟩, ?_⟩
  -- a postfix operator does not come first
  rintro rfl
  have hnext : Turn.operand.next (.operator q) = some .operator := by
    simpa [turnOf, turnFrom] using hturn
  have hwants := ((Turn.next_operator_of_wants rfl).mp hnext).2
  cases hwants

/-- **In a shaped list that is decided an operator makes a node of the operands drawn to it**, unless
a node stands alone. -/
theorem makes_of_surveyed (hsurveyed : Surveyed drawn) (hs : Shaped (drawn.map (·.slot)))
    (hlen : 2 ≤ drawn.length) : Makes drawn := by
  -- a run that waits for a postfix operator stands behind it, so what is in front is shorter
  induction hn : drawn.length using Nat.strongRecOn generalizing drawn with
  | ind n ih =>
    subst hn
    obtain ⟨front, o, pull, back, rfl, hne⟩ := exists_reducible hsurveyed hs hlen
    rcases ok_or_refuse_of_faultless (at?_faultless hsurveyed hs) with ⟨found, hfound⟩ | ⟨cause, hcause⟩
    · cases found with
      | none => exact absurd hfound hne
      | some r => exact ⟨front, o, pull, back, r, rfl, made_of_at? hsurveyed hfound⟩
    · cases refused_of_at? hsurveyed hs hcause with
      | nested _ hmade | marks _ hmade => exact ⟨front, o, pull, back, _, rfl, hmade⟩
      | @pending inner rest q p x y hflat hfront hafter hsame =>
        have hsplit : front ++ ⟨.operator o, pull⟩ :: back = inner ++ ⟨.operator q, x⟩ ::
            (⟨.operator p, y⟩ :: (rest ++ ⟨.operator o, pull⟩ :: back)) := by
          rw [hfront]
          simp
        rw [hsplit] at hsurveyed hs ih ⊢
        have hp : p.op.isBefore = false := by
          rw [hsame]
          exact (forms_of_isFlat hflat).1
        obtain ⟨hshaped, hinner⟩ := shaped_of_pending hs hp
        have hpos : 0 < inner.length := List.length_pos_iff.mpr hinner
        refine Makes.append (ih _ ?_ hsurveyed.of_prefix hshaped ?_ rfl) _
        · simp only [List.length_append, List.length_cons, List.length_nil]
          omega
        · rw [List.length_append, List.length_singleton]
          omega

end Reduction

/-! ## §5 Runs -/

namespace Reading

open Reduction

/-- **A run is refused by one of its passes.** -/
theorem exists_pass_of_runFor {n : Nat} {slots : List Slot} {cause : ParseError}
    (h : runFor n slots = refuse cause) :
    ∃ middle pulls, Runs slots middle ∧ survey middle = .ok (.decided pulls) ∧
      pass middle pulls = refuse cause := by
  induction n generalizing slots with
  | zero => cases h
  | succ n ih =>
    rcases bind_refuse_iff.mp h with h | ⟨sv, hsv, h⟩
    · exact absurd h (surveyFrom_ne_refuse _ _ _)
    · cases sv with
      | contested place => cases h
      | decided pulls =>
        rcases bind_refuse_iff.mp h with h | ⟨next, hnext, h⟩
        · exact ⟨slots, pulls, .refl, hsv, h⟩
        · split at h
          · cases h
          · next hlen =>
            obtain ⟨middle, pulls', hruns, hpass⟩ := ih h
            have hshort := Nat.lt_of_le_of_ne (passes_of_pass hsv hnext).length_le hlen
            exact ⟨middle, pulls', .head ⟨pulls, hsv, hnext, hshort⟩ hruns, hpass⟩

/-- Copies are refused when one of them is. -/
theorem exists_run_of_runAll {copies : List (List Slot)} {cause : ParseError}
    (h : runAll copies = refuse cause) : ∃ copy ∈ copies, run copy = refuse cause := by
  induction copies with
  | nil => cases h
  | cons copy copies ih =>
    rcases bind_refuse_iff.mp h with h | ⟨done, -, h⟩
    · exact ⟨copy, List.mem_cons_self, h⟩
    · rcases bind_refuse_iff.mp h with h | ⟨others, -, h⟩
      · obtain ⟨c, hc, hrun⟩ := ih h
        exact ⟨c, List.mem_cons_of_mem _ hc, hrun⟩
      · cases h

end Reading

end DewyFront
