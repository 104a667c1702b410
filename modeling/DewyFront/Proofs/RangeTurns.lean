/-
# DewyFront.Proofs.RangeTurns — range marks take turns with their joints

A range joint joins a range mark to a bound, and nothing else does. So in settled items a mark stands
between two joints and a joint stands beside a mark: whatever comes next is decided by what has been
read of the range. Settling sees to it, from the first marker to the last compound operator.

* §1 roles and turns;
* §2 items;
* §3 joints beside marks;
* §4 settled levels.
-/
import DewyFront.Proofs.Readiness

namespace DewyFront

/-! ## §1 Turns -/

/-- **`RangeRole`** — what an entry of a list is to the ranges in the list. -/
inductive RangeRole where
  | mark | joint | other
deriving DecidableEq, Repr

/-- **`RangeTurn`** — what has been read of a range. -/
inductive RangeTurn where
  /-- No range has begun, or one has ended. -/
  | free
  /-- The joint of a first bound: a mark has to come. -/
  | opened
  /-- The mark: a joint has to come. -/
  | marked
  /-- The joint of a last bound, which has to come; or the range goes on with another mark. -/
  | closing
deriving DecidableEq, Repr

namespace RangeTurn

/-- What has been read behind another entry; nothing if that may not stand there. -/
def next : RangeTurn → RangeRole → Option RangeTurn
  | free, .other | closing, .other => some free
  | free, .joint => some opened
  | opened, .mark | closing, .mark => some marked
  | marked, .joint => some closing
  | _, _ => none

/-- **`follow`** — what has been read behind some entries. -/
def follow (t : RangeTurn) (roles : List RangeRole) : Option RangeTurn := roles.foldlM next t

variable {t u : RangeTurn} {roles front back : List RangeRole}

theorem follow_cons (t : RangeTurn) (role : RangeRole) (roles : List RangeRole) :
    t.follow (role :: roles) = (t.next role).bind (·.follow roles) := rfl

theorem follow_append (t : RangeTurn) (front back : List RangeRole) :
    t.follow (front ++ back) = (t.follow front).bind (·.follow back) :=
  List.foldlM_append

theorem follow_append_eq (hfront : t.follow front = some u) : t.follow (front ++ back) = u.follow back := by
  rw [follow_append, hfront]
  rfl

/-- Something of no range stands in front of a range or behind the joint of its last bound. -/
theorem next_other : t.next .other = some u ↔ (t = free ∨ t = closing) ∧ u = free := by
  cases t <;> simp [next, eq_comm]

/-- A joint opens a range or is to close it. -/
theorem joint_iff {role : RangeRole} (h : t.next role = some u) :
    role = .joint ↔ u = opened ∨ u = closing := by
  cases t <;> cases role <;> simp [next] at h <;> simp [← h]

/-- A mark is joined behind. -/
theorem joint_of_marked {role : RangeRole} (h : marked.next role = some u) : role = .joint := by
  cases role <;> first | rfl | cases h

/-- Where one thing of no range may stand, several may. -/
theorem follow_others (n : Nat) :
    t.follow (List.replicate (n + 1) .other ++ roles) = t.follow (.other :: roles) := by
  induction n generalizing t with
  | zero => rfl
  | succ n ih =>
    rw [List.replicate_succ, List.cons_append, follow_cons, follow_cons]
    cases h : t.next .other with
    | none => rfl
    | some v =>
      obtain ⟨-, rfl⟩ := next_other.mp h
      exact ih

end RangeTurn

/-- **`TakeTurns`** — entries of which every mark stands between two joints, and every joint beside a
mark. -/
def TakeTurns (roles : List RangeRole) : Prop := RangeTurn.free.follow roles = some .free

/-! ## §2 Items -/

/-- What an operator is to the ranges beside it. -/
def Op.rangeRole (op : Op) : RangeRole := if op = .bond .range then .joint else .other

theorem Op.rangeRole_eq_joint {op : Op} : op.rangeRole = .joint ↔ op = .bond .range := by
  unfold rangeRole
  split <;> simp [*]

theorem Op.rangeRole_of_ne {op : Op} (h : op ≠ .bond .range) : op.rangeRole = .other := if_neg h

namespace Tree

/-- Whether an item is a range mark. -/
def isRangeMark (item : Tree) : Bool := item.atom? == some .rangeMark

/-- What an item is to the ranges beside it. -/
def rangeRole (item : Tree) : RangeRole :=
  if item.isRangeMark then .mark else if item.isRangeJoint then .joint else .other

variable {item : Tree} {items items' rest xs ys : List Tree} {left before : Option Tree}

theorem isRangeMark_iff : item.isRangeMark = true ↔ item.atom? = some .rangeMark := beq_iff_eq

theorem isJoint_of_isRangeMark (h : item.isRangeMark = true) : item.isJoint = false :=
  isJoint_of_atom? (isRangeMark_iff.mp h)

theorem isRangeMark_of_marker? {m : Marker} (h : item.marker? = some m) : item.isRangeMark = false := by
  rw [eq_of_marker? h]
  rfl

theorem rangeRole_eq_other (hmark : item.isRangeMark = false) (hjoint : item.isRangeJoint = false) :
    item.rangeRole = .other := by
  simp [rangeRole, hmark, hjoint]

/-- **`Attached`** — every range joint stands beside a range mark; `behind` says whether a mark stands
in front of the list. -/
def Attached (behind : Bool) : List Tree → Prop
  | [] => True
  | item :: rest =>
    (item.isRangeJoint = true → behind = true ∨ rest.head?.any isRangeMark = true) ∧
      Attached item.isRangeMark rest

/-- Where the list does not begin with a joint, it does not matter what stands in front of it. -/
theorem Attached.of_head {b b' : Bool} (h : Attached b items)
    (hhead : items.head?.any isRangeJoint = false) : Attached b' items := by
  cases items with
  | nil => trivial
  | cons item rest =>
    refine ⟨fun hjoint => ?_, h.2⟩
    rw [List.head?_cons, Option.any_some, hjoint] at hhead
    cases hhead

theorem Attached.cons {b : Bool} (hjoint : item.isRangeJoint = false)
    (h : Attached item.isRangeMark rest) : Attached b (item :: rest) :=
  ⟨fun htrue => absurd htrue (by simp [hjoint]), h⟩

/-- What has to come next is there. -/
def Meets (items : List Tree) : RangeTurn → Prop
  | .free => True
  | .opened => items.head?.any isRangeMark = true
  | .marked => items.head?.any isRangeJoint = true
  | .closing => items ≠ []

/-- **Items take turns** if joints stand between items, marks between joints and joints beside
marks. -/
theorem follow_of_seated {t : RangeTurn} (hseated : Seated (t = .free ∨ t = .marked) items)
    (hbounded : Bounded (t = .opened ∨ t = .closing) items) (hattached : Attached (t = .marked) items)
    (hmeets : Meets items t) : t.follow (items.map rangeRole) = some .free := by
  induction items generalizing t with
  | nil => cases t <;> first | rfl | simp [Meets] at hmeets
  | cons item rest ih =>
    rw [List.map_cons, RangeTurn.follow_cons]
    -- Marks, joints and other items move the turn in three ways, and the conditions say that they may.
    by_cases hmark : item.isRangeMark = true
    · have hnone := isJoint_of_isRangeMark hmark
      have hjoint := isRangeJoint_of_isJoint hnone
      obtain ⟨hturn, hnext⟩ := hbounded.1 (isRangeMark_iff.mp hmark)
      have hrole : item.rangeRole = .mark := by simp [rangeRole, hmark]
      have hstep : t.next item.rangeRole = some .marked := by
        rw [hrole]
        cases t <;> simp at hturn <;> rfl
      rw [hstep]
      refine ih (t := .marked) (hseated.tail hnone) ?_ ?_ hnext
      · have hrest := hbounded.2
        rwa [hjoint] at hrest
      · have hrest := hattached.2
        rwa [hmark] at hrest
    · have hmark : item.isRangeMark = false := by simpa using hmark
      have hattached' := hattached.2
      rw [hmark] at hattached'
      by_cases hjoint : item.isRangeJoint = true
      · obtain ⟨hopen, hne, hrest⟩ := hseated.tail_joint (isJoint_of_isRangeJoint hjoint)
        have hrole : item.rangeRole = .joint := by simp [rangeRole, hmark, hjoint]
        have hbounded' := hbounded.2
        rw [hjoint] at hbounded'
        rw [hrole]
        cases t with
        | free =>
          have hnext := (hattached.1 hjoint).resolve_left (by simp)
          exact ih (t := .opened) hrest hbounded' hattached' hnext
        | marked => exact ih (t := .closing) hrest hbounded' hattached' hne
        | opened => simp at hopen
        | closing => simp at hopen
      · have hjoint : item.isRangeJoint = false := by simpa using hjoint
        have hstep : t.next item.rangeRole = some .free := by
          rw [rangeRole_eq_other hmark hjoint]
          cases t with
          | free | closing => rfl
          | opened => simp [Meets, hmark] at hmeets
          | marked => simp [Meets, hjoint] at hmeets
        have hbounded' := hbounded.2
        rw [hjoint] at hbounded'
        rw [hstep]
        refine ih (t := .free) ?_ hbounded' hattached' trivial
        have hseated' := hseated.2
        exact hseated'.mono

/-! ## §3 Joints beside marks -/

theorem isRangeJoint_markerAt {m : Marker} {place : Span} :
    (markerAt m place).isRangeJoint = true ↔ m = .range := beq_iff_eq

theorem mark_of_classify {l r : Tree} (h : classify before l r = .range) :
    l.isRangeMark = true ∨ r.isRangeMark = true := by
  unfold classify at h
  dsimp only at h
  split at h
  · next heither => exact Bool.or_eq_true_iff.mp heither
  · split at h
    · cases h
    · split at h
      · cases h
      · split at h
        · cases h
        · split at h
          · split at h <;> cases h
          · cases h

/-- What is classified is a marker. -/
theorem mem_classifyFrom (h : classifyFrom before left items = .ok items') (hmem : item ∈ items') :
    item ∈ items ∨ ∃ m span, item = markerAt m span := by
  induction items generalizing before left items' with
  | nil =>
    cases h
    cases hmem
  | cons first rest ih =>
    unfold classifyFrom at h
    split at h
    · split at h
      · obtain ⟨more, hmore, h⟩ := bind_ok_iff.mp h
        cases h
        rcases List.mem_cons.mp hmem with rfl | hmem
        · exact .inr ⟨_, _, rfl⟩
        · exact (ih hmore hmem).imp_left (List.mem_cons_of_mem first)
      · cases h
    · obtain ⟨more, hmore, h⟩ := bind_ok_iff.mp h
      cases h
      rcases List.mem_cons.mp hmem with rfl | hmem
      · exact .inl List.mem_cons_self
      · exact (ih hmore hmem).imp_left (List.mem_cons_of_mem first)

/-- **A marker is a range joint only beside a range mark.** -/
theorem attached_classifyFrom (hitems : ∀ item ∈ items, item.isRangeJoint = false)
    (h : classifyFrom before left items = .ok items') :
    Attached (left.any isRangeMark) items' ∧
      (items.head?.any isRangeMark = true → items'.head?.any isRangeMark = true) := by
  induction items generalizing before left items' with
  | nil =>
    cases h
    exact ⟨trivial, id⟩
  | cons item rest ih =>
    obtain ⟨hitem, hrest⟩ := List.forall_mem_cons.mp hitems
    unfold classifyFrom at h
    split at h
    · next hplain =>
      split at h
      · next l r hleft hright =>
        obtain ⟨more, hmore, h⟩ := bind_ok_iff.mp h
        cases h
        obtain ⟨hattached, hhead⟩ := ih hrest hmore
        refine ⟨⟨fun hjoint => ?_, hattached⟩, fun hmark => ?_⟩
        · rcases mark_of_classify (isRangeJoint_markerAt.mp hjoint) with hl | hr
          · exact .inl hl
          · exact .inr (hhead (by rw [hright]; exact hr))
        · rw [List.head?_cons, Option.any_some, isRangeMark_of_marker? hplain] at hmark
          cases hmark
      · cases h
    · obtain ⟨more, hmore, h⟩ := bind_ok_iff.mp h
      cases h
      exact ⟨.cons hitem (ih hrest hmore).1, id⟩

/-- The markers of backticks are beside no range mark. -/
theorem attached_resolveFrom {b b' : Bool} (hb : b = true → b' = true) (hattached : Attached b items)
    (h : resolveFrom left items = .ok items') : Attached b' items' ∧
      (items.head?.any isRangeMark = true → items'.head?.any isRangeMark = true) := by
  induction items generalizing left items' b b' with
  | nil =>
    cases h
    exact ⟨trivial, id⟩
  | cons item rest ih =>
    obtain ⟨more, hmore, hcases⟩ := resolveFrom_cons_ok h
    rcases hcases with ⟨hback, side, rfl⟩ | ⟨hmarker, rfl⟩ | ⟨-, -, rfl⟩
    · have hmark : item.isRangeMark = false := by
        cases item with
        | leaf l s => cases l <;> first | rfl | cases hback
        | _ => cases hback
      refine ⟨.cons rfl (ih (fun h => ?_) hattached.2 hmore).1, fun h => ?_⟩
      · rw [hmark] at h
        cases h
      · rw [List.head?_cons, Option.any_some, hmark] at h
        cases h
    · have hmark := isRangeMark_of_marker? hmarker
      refine ⟨(ih (fun h => ?_) hattached.2 hmore).1, fun h => ?_⟩
      · rw [hmark] at h
        cases h
      · rw [List.head?_cons, Option.any_some, hmark] at h
        cases h
    · obtain ⟨hmore', hhead⟩ := ih id hattached.2 hmore
      exact ⟨⟨fun hjoint => (hattached.1 hjoint).imp hb hhead, hmore'⟩, id⟩

theorem isMarker_range (hitem : item.isRangeJoint = true → item.marker? = some .range) :
    isMarker .range (some item) = item.isRangeJoint := by
  cases hjoint : item.isRangeJoint with
  | true => simp [isMarker, hitem hjoint]
  | false =>
    refine Bool.eq_false_iff.mpr fun hmarker => ?_
    obtain ⟨_, heq, -, htrue⟩ := isRangeJoint_of_isMarker hmarker
    cases heq
    rw [hjoint] at htrue
    cases htrue

/-- The bounds that are put in begin with no joint. -/
theorem isRangeJoint_head?_boundFrom (h : (boundFrom left items).head?.any isRangeJoint = true) :
    items.head?.any isRangeJoint = true := by
  cases items with
  | nil => cases h
  | cons item rest =>
    unfold boundFrom at h
    dsimp only at h
    split at h
    · next hmark =>
      split at h
      · have hnone := isRangeJoint_of_isJoint (isJoint_of_atom? hmark)
        simp [hnone] at h
      · cases h
    · exact h

/-- Behind a joint a range mark is not given another. -/
theorem isRangeMark_head?_boundFrom (hleft : isMarker .range left = true)
    (h : items.head?.any isRangeMark = true) : (boundFrom left items).head?.any isRangeMark = true := by
  cases items with
  | nil => cases h
  | cons item rest =>
    unfold boundFrom
    rw [hleft]
    dsimp only
    split
    · exact h
    · exact h

/-- **The joints that are put in stand beside the mark that they are put in for.** -/
theorem attached_boundFrom
    (hitems : ∀ item ∈ items, item.isRangeJoint = true → item.marker? = some .range)
    (hattached : Attached (left.any isRangeMark) items) :
    Attached (left.any isRangeMark) (boundFrom left items) := by
  induction items generalizing left with
  | nil => trivial
  | cons item rest ih =>
    obtain ⟨hitem, hrest⟩ := List.forall_mem_cons.mp hitems
    have hmore : Attached item.isRangeMark (boundFrom (some item) rest) :=
      @ih (some item) hrest hattached.2
    unfold boundFrom
    dsimp only
    split
    · next hmark =>
      have hmark := isRangeMark_iff.mpr hmark
      have hjoint := isRangeJoint_of_isJoint (isJoint_of_isRangeMark hmark)
      have hback {b : Bool} : Attached b (item ::
          if isMarker .range rest.head? then boundFrom (some item) rest
          else markerAt .range item.span.endPoint :: undefinedAt item.span.endPoint ::
            boundFrom (some item) rest) := by
        refine .cons hjoint ?_
        split
        · exact hmore
        · next hnext =>
          refine ⟨fun _ => .inl hmark, .cons rfl (hmore.of_head ?_)⟩
          refine Bool.eq_false_iff.mpr fun hhead => hnext ?_
          obtain ⟨first, hfirst, hjoins⟩ :=
            (Option.any_eq_true _ _).mp (isRangeJoint_head?_boundFrom hhead)
          rw [hfirst, isMarker_range (hrest first (List.mem_of_head? hfirst)), hjoins]
      split
      · exact hback
      · exact .cons rfl ⟨fun _ => .inr hmark, hback⟩
    · refine ⟨fun hjoint => (hattached.1 hjoint).imp_right fun hhead => ?_, hmore⟩
      exact isRangeMark_head?_boundFrom (by rw [isMarker_range hitem, hjoint]) hhead

/-! ## §4 Levels -/

theorem rangeRole_ofOperator (o : Operator) : (ofOperator o).rangeRole = o.op.rangeRole := by
  by_cases h : o.op = .bond .range
  · simp [rangeRole, ofOperator, isRangeMark, isRangeJoint, Op.rangeRole, h, atom?]
  · simp [rangeRole, ofOperator, isRangeMark, isRangeJoint, Op.rangeRole, h, atom?]

theorem rangeRole_of_isJoint {op : Op} (h : op.isJoint = false) : op.rangeRole = .other := by
  cases op with
  | bond | juxtapose => cases h
  | _ => rfl

/-- An operator is to ranges what its marker was. -/
theorem rangeRole_of_markerOp {m : Marker} {right : Option Tree} {op : Op}
    (h : markerOp m left right = .ok op) (span : Span) :
    op.rangeRole = (markerAt m span).rangeRole := by
  unfold markerOp at h
  split at h <;> cases h <;> rfl

theorem map_rangeRole_operatorsFrom (h : operatorsFrom left items = .ok items') :
    items'.map rangeRole = items.map rangeRole := by
  induction items generalizing left items' with
  | nil =>
    cases h
    rfl
  | cons item rest ih =>
    unfold operatorsFrom at h
    split at h
    · next m hm =>
      obtain ⟨op, hop, h⟩ := bind_ok_iff.mp h
      obtain ⟨more, hmore, h⟩ := bind_ok_iff.mp h
      cases h
      rw [List.map_cons, List.map_cons, ih hmore, eq_of_marker? hm]
      refine congrArg (· :: _) ?_
      exact (rangeRole_ofOperator ⟨op, item.span⟩).trans (rangeRole_of_markerOp hop item.span)
    · obtain ⟨more, hmore, h⟩ := bind_ok_iff.mp h
      cases h
      rw [List.map_cons, List.map_cons, ih hmore]

/-- **Items without markers that are put in the place of others take the same turns.** -/
theorem Reworks.follow {t : RangeTurn} (h : Reworks xs ys) (hxs : ∀ item ∈ xs, item.marker? = none) :
    t.follow (xs.map rangeRole) = t.follow (ys.map rangeRole) := by
  induction h generalizing t with
  | nil => rfl
  | keep item _ ih =>
    rw [List.map_cons, List.map_cons, RangeTurn.follow_cons, RangeTurn.follow_cons]
    simp only [ih (List.forall_mem_cons.mp hxs).2]
  | classify m span | join span => cases hxs _ List.mem_cons_self
  | close span _ ih =>
    rw [List.map_cons, List.map_cons, RangeTurn.follow_cons, RangeTurn.follow_cons]
    simp only [ih (List.forall_mem_cons.mp hxs).2]
    rfl
  | @fuse o os op span xs ys hos hop _ _ ih =>
    have hothers : ((o :: os).map ofOperator).map rangeRole = List.replicate (os.length + 1) .other := by
      refine List.eq_replicate_iff.mpr ⟨by simp, fun role hrole => ?_⟩
      obtain ⟨item, hitem, rfl⟩ := List.mem_map.mp hrole
      obtain ⟨p, hp, rfl⟩ := List.mem_map.mp hitem
      rw [rangeRole_ofOperator, rangeRole_of_isJoint (hos p hp)]
    have hfused : rangeRole (.leaf (.operator op) span) = .other :=
      (rangeRole_ofOperator ⟨op, span⟩).trans (rangeRole_of_isJoint hop)
    rw [List.map_append, hothers, RangeTurn.follow_others, List.map_cons, hfused,
      RangeTurn.follow_cons, RangeTurn.follow_cons]
    simp only [ih (List.forall_mem_append.mp hxs).2]

/-- **`HaveTurns`** — items that take turns, with no marker among them. -/
structure HaveTurns (items : List Tree) : Prop where
  turns : TakeTurns (items.map rangeRole)
  unmarked : ∀ item ∈ items, item.marker? = none

/-- What is put in the place of items that have turns has them as well. -/
theorem Reworks.haveTurns (h : Reworks xs ys) (hxs : HaveTurns xs) : HaveTurns ys where
  turns := (h.follow hxs.unmarked).symm.trans hxs.turns
  unmarked := h.forall_mem (fun _ _ => rfl) (fun _ => rfl) (fun _ _ hm => by cases hm) hxs.unmarked

/-- **The items of a settled level take turns.** -/
theorem haveTurns_of_settleLevel : OfSettled HaveTurns := by
  intro items items' hfresh h
  obtain ⟨classified, resolved, joined, hclassified, hresolved, hjoined, rfl⟩ :=
    settleLevel_ok_iff.mp h
  have hinserted : ∀ item ∈ insertMarkers items, item.isRangeJoint = false := by
    intro item hitem
    rcases mem_insertFrom hitem with ⟨hitem, -⟩ | ⟨span, rfl⟩
    · exact isRangeJoint_of_isJoint (isJoint_of_isFresh (hfresh item hitem))
    · rfl
  have hseated : Seated false (insertMarkers items) := seated_insertMarkers hfresh
  have hmarked := (reworks_classifyFrom hclassified).seated hseated
  have hattached := (attached_resolveFrom id (attached_classifyFrom hinserted hclassified).1 hresolved).1
  -- until markers become operators, only a marker is a range joint
  have hmarkers : ∀ item ∈ resolved, item.isRangeJoint = true → item.marker? = some .range := by
    intro item hitem hjoint
    rcases mem_resolveFrom hresolved hitem with ⟨hitem, -⟩ | ⟨side, span, rfl⟩
    · rcases mem_classifyFrom hclassified hitem with hitem | ⟨m, span, rfl⟩
      · rw [hinserted item hitem] at hjoint
        cases hjoint
      · rw [isRangeJoint_markerAt.mp hjoint]
        rfl
    · cases hjoint
  have hturns : TakeTurns ((boundRanges resolved).map rangeRole) :=
    follow_of_seated (t := .free) (seated_boundFrom (seated_resolveFrom hresolved hmarked)).mono
      (bounded_boundFrom none resolved) (attached_boundFrom hmarkers hattached) trivial
  rw [TakeTurns, ← map_rangeRole_operatorsFrom hjoined] at hturns
  exact compoundOperators_induct Reworks.haveTurns ⟨hturns, (reworks_operatorsFrom hjoined).2⟩

end Tree

end DewyFront
