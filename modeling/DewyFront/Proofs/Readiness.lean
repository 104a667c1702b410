/-
# DewyFront.Proofs.Readiness — settling ends in no fault, and its items are ready for grouping

Items that lexing made are settled or refused at every level: in blocks and in the holes of strings as
well as outside of them. Where they are settled, no layout, no backtick and no marker is left, every
juxtaposition stands between items, every range mark between two of its joints, and what is written is
what was written before.

* §1 lists inside of items;
* §2 ready items;
* §3 one level;
* §4 every level.
-/
import DewyFront.Proofs.Reworking

namespace DewyFront

namespace Tree

/-! ## §1 Levels -/

mutual
/-- **`Inside`** — `q` holds of every list of items inside of an item, at any depth. -/
def Inside (q : List Tree → Prop) : Tree → Prop
  | .leaf _ _ => True
  | .block _ _ inner _ => q inner ∧ InsideAll q inner
  | .istring pieces _ => InsidePieces q pieces
/-- The same of some items. -/
def InsideAll (q : List Tree → Prop) : List Tree → Prop
  | [] => True
  | item :: rest => Inside q item ∧ InsideAll q rest
/-- The same of the pieces of a string. -/
def InsidePieces (q : List Tree → Prop) : List Piece → Prop
  | [] => True
  | .text _ :: rest => InsidePieces q rest
  | .block _ _ inner :: rest | .escape _ _ inner :: rest =>
    (q inner ∧ InsideAll q inner) ∧ InsidePieces q rest
end

/-- **`EveryLevel`** — `q` holds of a list of items, and of every list inside. -/
def EveryLevel (q : List Tree → Prop) (items : List Tree) : Prop := q items ∧ InsideAll q items

variable {item item' : Tree} {items items' : List Tree}

theorem insideAll_iff {q : List Tree → Prop} : InsideAll q items ↔ ∀ item ∈ items, Inside q item := by
  induction items with
  | nil => simp [InsideAll]
  | cons item rest ih => rw [InsideAll, ih, List.forall_mem_cons]

mutual
/-- What holds of all lists holds inside of every item. -/
theorem inside_of_forall {q : List Tree → Prop} (hq : ∀ items, q items) : ∀ item, Inside q item
  | .leaf _ _ => by
    rw [Inside]
    trivial
  | .block _ _ inner _ => by
    rw [Inside]
    exact ⟨hq inner, insideAll_of_forall hq inner⟩
  | .istring pieces _ => by
    rw [Inside]
    exact insidePieces_of_forall hq pieces
/-- The same of some items. -/
theorem insideAll_of_forall {q : List Tree → Prop} (hq : ∀ items, q items) : ∀ items, InsideAll q items
  | [] => by
    rw [InsideAll]
    trivial
  | item :: rest => by
    rw [InsideAll]
    exact ⟨inside_of_forall hq item, insideAll_of_forall hq rest⟩
/-- The same of the pieces of a string. -/
theorem insidePieces_of_forall {q : List Tree → Prop} (hq : ∀ items, q items) :
    ∀ pieces, InsidePieces q pieces
  | [] => by
    rw [InsidePieces]
    trivial
  | .text _ :: rest => by
    rw [InsidePieces]
    exact insidePieces_of_forall hq rest
  | .block _ _ inner :: rest | .escape _ _ inner :: rest => by
    rw [InsidePieces]
    exact ⟨⟨hq inner, insideAll_of_forall hq inner⟩, insidePieces_of_forall hq rest⟩
end

theorem everyLevel_of_forall {q : List Tree → Prop} (hq : ∀ items, q items) (items : List Tree) :
    EveryLevel q items := ⟨hq items, insideAll_of_forall hq items⟩

/-! ## §2 Ready items -/

/-- **`Ready`** — what grouping asks of a list of items. -/
structure Ready (items : List Tree) : Prop where
  /-- No layout, no backtick and no marker is left. -/
  bare : ∀ item ∈ items, item.isTrivia = false ∧ item.isBacktick = false ∧ item.marker? = none
  /-- A juxtaposition has an item on each side. -/
  between : ∀ front item back op, items = front ++ item :: back → item.operator? = some op →
    op.isJoint = true → front ≠ [] ∧ back ≠ []
  /-- A range mark has a range juxtaposition on each side. -/
  bounded : ∀ front item back, items = front ++ item :: back → item.atom? = some .rangeMark →
    front.getLast?.bind operator? = some (.bond .range) ∧
      back.head?.bind operator? = some (.bond .range)

theorem Seated.between {b : Bool} {front back : List Tree} (h : Seated b items)
    (heq : items = front ++ item :: back) (hitem : item.isJoint = true) :
    (b = true ∨ front ≠ []) ∧ back ≠ [] := by
  induction front generalizing b items with
  | nil =>
    subst heq
    obtain ⟨hb, hne, -⟩ := h.tail_joint hitem
    exact ⟨.inl hb, hne⟩
  | cons first front ih =>
    subst heq
    exact ⟨.inr (List.cons_ne_nil _ _), (ih h.2 rfl).2⟩

theorem Bounded.between {b : Bool} {front back : List Tree} (h : Bounded b items)
    (heq : items = front ++ item :: back) (hitem : item.atom? = some .rangeMark) :
    (front = [] ∧ b = true ∨ front.getLast?.any isRangeJoint = true) ∧
      back.head?.any isRangeJoint = true := by
  induction front generalizing b items with
  | nil =>
    subst heq
    exact ⟨.inl ⟨rfl, (h.1 hitem).1⟩, (h.1 hitem).2⟩
  | cons first front ih =>
    subst heq
    obtain ⟨hfront, hback⟩ := ih h.2 rfl
    refine ⟨.inr ?_, hback⟩
    rcases hfront with ⟨rfl, hjoint⟩ | hfront
    · exact hjoint
    · obtain ⟨last, hlast, hjoint⟩ := (Option.any_eq_true _ _).mp hfront
      simp [List.getLast?_cons, hlast, hjoint]

theorem operator?_of_isRangeJoint (h : item.isRangeJoint = true) (hm : item.marker? = none) :
    item.operator? = some (.bond .range) := by
  cases item with
  | leaf l s =>
    cases l with
    | operator op =>
      have hop : op = .bond .range := by simpa [isRangeJoint] using h
      rw [hop]
      rfl
    | marker m => cases hm
    | _ => cases h
  | _ => cases h

/-- What the steps keep is what readiness asks for. -/
theorem ready_of_seated (hbare : ∀ item ∈ items,
      item.isTrivia = false ∧ item.isBacktick = false ∧ item.marker? = none)
    (hseated : Seated false items) (hbounded : Bounded false items) : Ready items where
  bare := hbare
  between front item back op heq hop hjoint := by
    have hitem : item.isJoint = true := by
      rw [eq_of_operator? hop]
      exact hjoint
    obtain ⟨hfront, hback⟩ := hseated.between heq hitem
    exact ⟨hfront.resolve_left (fun h => by cases h), hback⟩
  bounded front item back heq hitem := by
    obtain ⟨hfront, hback⟩ := hbounded.between heq hitem
    have hmarker {neighbour : Tree} (hmem : neighbour ∈ items) : neighbour.marker? = none :=
      (hbare neighbour hmem).2.2
    constructor
    · obtain ⟨last, hlast, hjoint⟩ :=
        (Option.any_eq_true _ _).mp (hfront.resolve_left fun h => by cases h.2)
      rw [hlast]
      refine operator?_of_isRangeJoint hjoint (hmarker ?_)
      rw [heq]
      exact List.mem_append_left _ (List.mem_of_getLast? hlast)
    · obtain ⟨next, hnext, hjoint⟩ := (Option.any_eq_true _ _).mp hback
      rw [hnext]
      refine operator?_of_isRangeJoint hjoint (hmarker ?_)
      rw [heq]
      exact List.mem_append_right _ (List.mem_cons_of_mem _ (List.mem_of_head? hnext))

/-! ## §3 One level -/

/-- The steps of settling a level, as far as they go. -/
theorem settleLevel_ok_iff : settleLevel items = .ok items' ↔ ∃ classified resolved joined,
    classifyMarkers (insertMarkers items) = .ok classified ∧
      resolveBackticks classified = .ok resolved ∧
        markersToOperators (boundRanges resolved) = .ok joined ∧
          compoundOperators (closeElses joined) = items' := by
  constructor
  · intro h
    obtain ⟨classified, hclassified, h⟩ := bind_ok_iff.mp h
    obtain ⟨resolved, hresolved, h⟩ := bind_ok_iff.mp h
    obtain ⟨joined, hjoined, h⟩ := bind_ok_iff.mp h
    cases h
    exact ⟨classified, resolved, joined, hclassified, hresolved, hjoined, rfl⟩
  · rintro ⟨classified, resolved, joined, hclassified, hresolved, hjoined, rfl⟩
    exact bind_ok_iff.mpr ⟨_, hclassified, bind_ok_iff.mpr
      ⟨_, hresolved, bind_ok_iff.mpr ⟨_, hjoined, rfl⟩⟩⟩

theorem isJoint_of_isFresh (h : item.IsFresh) : item.isJoint = false := by
  cases item with
  | leaf l s =>
    cases l with
    | operator op =>
      obtain ⟨s, rfl⟩ := h
      rfl
    | marker m => exact h.elim
    | _ => rfl
  | _ => rfl

/-- The markers of a level stand between items. -/
theorem seated_insertMarkers (h : ∀ item ∈ items, item.IsFresh) : Seated false (insertMarkers items) :=
  seated_insertFrom (fun h => by cases h) fun item hitem => isJoint_of_isFresh (h item hitem)

/-- **No step of a level meets an item that it is not made for.** -/
theorem settleLevel_faultless (h : ∀ item ∈ items, item.IsFresh) : Faultless (settleLevel items) := by
  have hinserted : Seated false (insertMarkers items) := seated_insertMarkers h
  refine .bind (classifyFrom_faultless (b := false) (fun h => by cases h) hinserted)
    fun classified hclassified => ?_
  have hseated := (reworks_classifyFrom hclassified).seated hinserted
  refine .bind (resolveFrom_faultless none classified) fun resolved hresolved => ?_
  -- The markers of backticks are gone with the backticks, and bounds bring none.
  have hback : ∀ item ∈ boundRanges resolved, item.marker? ≠ some .backtick := by
    intro item hitem
    rcases mem_boundFrom hitem with hitem | ⟨place, rfl | rfl⟩
    · rcases mem_resolveFrom hresolved hitem with ⟨-, -, hmarker⟩ | ⟨side, span, rfl⟩
      · exact hmarker
      · exact fun h => by cases h
    · exact fun h => by cases h
    · exact fun h => by cases h
  have hbounded : Seated false (boundRanges resolved) :=
    seated_boundFrom (seated_resolveFrom hresolved hseated)
  exact .bind (operatorsFrom_faultless (b := false) (fun h => by cases h) hbounded hback) fun _ _ => .ok _

/-- Every item of a settled level was there before, or has nothing inside. -/
theorem forall_mem_settleLevel {p : Tree → Prop} (hleaf : ∀ l span, p (.leaf l span))
    (h : settleLevel items = .ok items') (hitems : ∀ item ∈ items, p item) :
    ∀ item ∈ items', p item := by
  obtain ⟨classified, resolved, joined, hclassified, hresolved, hjoined, rfl⟩ :=
    settleLevel_ok_iff.mp h
  have hkeep {xs ys : List Tree} (hstep : Reworks xs ys) (hxs : ∀ item ∈ xs, p item) :
      ∀ item ∈ ys, p item :=
    hstep.forall_mem (fun _ _ => hleaf _ _) (fun _ => hleaf _ _) (fun _ _ _ => hleaf _ _) hxs
  have hinserted : ∀ item ∈ insertMarkers items, p item := by
    intro item hitem
    rcases mem_insertFrom hitem with ⟨hitem, -⟩ | ⟨span, rfl⟩
    · exact hitems item hitem
    · exact hleaf _ _
  have hresolved : ∀ item ∈ resolved, p item := by
    intro item hitem
    rcases mem_resolveFrom hresolved hitem with ⟨hitem, -⟩ | ⟨side, span, rfl⟩
    · exact hkeep (reworks_classifyFrom hclassified) hinserted item hitem
    · exact hleaf _ _
  have hbounded : ∀ item ∈ boundRanges resolved, p item := by
    intro item hitem
    rcases mem_boundFrom hitem with hitem | ⟨place, rfl | rfl⟩
    · exact hresolved item hitem
    · exact hleaf _ _
    · exact hleaf _ _
  exact compoundOperators_induct hkeep (hkeep (reworks_operatorsFrom hjoined).1 hbounded)

/-- No layout, no backtick and no marker is left of a level. -/
theorem bare_settleLevel (h : settleLevel items = .ok items') : ∀ item ∈ items',
    item.isTrivia = false ∧ item.isBacktick = false ∧ item.marker? = none := by
  obtain ⟨classified, resolved, joined, hclassified, hresolved, hjoined, rfl⟩ :=
    settleLevel_ok_iff.mp h
  obtain ⟨hoperators, hnone⟩ := reworks_operatorsFrom hjoined
  -- Layout goes first, then the backticks, then the markers.
  have hinserted : ∀ item ∈ insertMarkers items, item.isTrivia = false := by
    intro item hitem
    rcases mem_insertFrom hitem with ⟨-, htrivia⟩ | ⟨span, rfl⟩
    · exact htrivia
    · rfl
  have hclassified : ∀ item ∈ classified, item.isTrivia = false :=
    (reworks_classifyFrom hclassified).forall_mem (fun _ _ => rfl) (fun _ => rfl)
      (fun _ _ _ => rfl) hinserted
  have hbounded : ∀ item ∈ boundRanges resolved,
      item.isTrivia = false ∧ item.isBacktick = false := by
    intro item hitem
    rcases mem_boundFrom hitem with hitem | ⟨place, rfl | rfl⟩
    · rcases mem_resolveFrom hresolved hitem with ⟨hitem, hback, -⟩ | ⟨side, span, rfl⟩
      · exact ⟨hclassified item hitem, hback⟩
      · exact ⟨rfl, rfl⟩
    · exact ⟨rfl, rfl⟩
    · exact ⟨rfl, rfl⟩
  have hjoined := hoperators.forall_mem (fun _ _ => ⟨rfl, rfl⟩) (fun _ => ⟨rfl, rfl⟩)
    (fun _ _ _ => ⟨rfl, rfl⟩) hbounded
  have hbare : ∀ item ∈ joined,
      item.isTrivia = false ∧ item.isBacktick = false ∧ item.marker? = none :=
    fun item hitem => ⟨(hjoined item hitem).1, (hjoined item hitem).2, hnone item hitem⟩
  -- The operators that are put together are none of these.
  refine compoundOperators_induct (P := fun xs => ∀ item ∈ xs,
    item.isTrivia = false ∧ item.isBacktick = false ∧ item.marker? = none) (fun hstep hxs => ?_) hbare
  exact hstep.forall_mem (fun _ _ => ⟨rfl, rfl, rfl⟩) (fun _ => ⟨rfl, rfl, rfl⟩)
    (fun _ _ hm => by cases hm.2.2) hxs

/-- The joints of a level stand between items. -/
theorem seated_settleLevel (hitems : ∀ item ∈ items, item.IsFresh)
    (h : settleLevel items = .ok items') : Seated false items' := by
  obtain ⟨classified, resolved, joined, hclassified, hresolved, hjoined, rfl⟩ :=
    settleLevel_ok_iff.mp h
  have hinserted : Seated false (insertMarkers items) := seated_insertMarkers hitems
  have hmarked := (reworks_classifyFrom hclassified).seated hinserted
  have hbounded : Seated false (boundRanges resolved) :=
    seated_boundFrom (seated_resolveFrom hresolved hmarked)
  exact compoundOperators_induct Reworks.seated ((reworks_operatorsFrom hjoined).1.seated hbounded)

/-- The range marks of a level stand between range juxtapositions. -/
theorem bounded_settleLevel (h : settleLevel items = .ok items') : Bounded false items' := by
  obtain ⟨classified, resolved, joined, -, -, hjoined, rfl⟩ := settleLevel_ok_iff.mp h
  have hbounded := bounded_boundFrom none resolved
  exact compoundOperators_induct (fun hstep hxs => hstep.bounded hxs id)
    ((reworks_operatorsFrom hjoined).1.bounded hbounded fun h => by cases h)

/-- **A settled level is ready.** -/
theorem ready_of_settleLevel (hitems : ∀ item ∈ items, item.IsFresh)
    (h : settleLevel items = .ok items') : Ready items' :=
  ready_of_seated (bare_settleLevel h) (seated_settleLevel hitems h) (bounded_settleLevel h)

/-- **A settled level is written like the level that it was.** -/
theorem signsAll_settleLevel (h : settleLevel items = .ok items') :
    (signsAll items').filter Sign.isWritten = (signsAll items).filter Sign.isWritten := by
  obtain ⟨classified, resolved, joined, hclassified, hresolved, hjoined, rfl⟩ :=
    settleLevel_ok_iff.mp h
  have hcompound : signsAll (compoundOperators (closeElses joined)) = signsAll joined :=
    compoundOperators_induct (P := fun xs => signsAll xs = signsAll joined)
      (fun hstep hxs => hstep.signsAll_eq.trans hxs) rfl
  have hresolved : signsAll resolved = signsAll items := by
    rw [signsAll_resolveFrom hresolved, (reworks_classifyFrom hclassified).signsAll_eq]
    exact signsAll_insertFrom false items
  rw [hcompound, (reworks_operatorsFrom hjoined).1.signsAll_eq]
  exact (signsAll_boundFrom none resolved).trans (by rw [hresolved])

/-! ## §4 Every level -/

/-- Settling what is inside of an item leaves the item what it is. -/
theorem isFresh_settleInside (hlexed : item.IsLexed) (h : settleInside item = .ok item') :
    item'.IsFresh := by
  cases item with
  | leaf l s =>
    rw [settleInside] at h
    cases h
    cases l <;> exact hlexed
  | block kind base inner s =>
    rw [settleInside] at h
    obtain ⟨inner', -, h⟩ := bind_ok_iff.mp h
    obtain ⟨level, -, h⟩ := bind_ok_iff.mp h
    cases h
    trivial
  | istring pieces s =>
    rw [settleInside] at h
    obtain ⟨pieces', -, h⟩ := bind_ok_iff.mp h
    cases h
    trivial

theorem isFresh_settleInsideAll (hlexed : AllLexed items) (h : settleInsideAll items = .ok items') :
    ∀ item ∈ items', item.IsFresh := by
  induction items generalizing items' with
  | nil =>
    rw [settleInsideAll] at h
    cases h
    exact List.forall_mem_nil _
  | cons item rest ih =>
    rw [settleInsideAll] at h
    obtain ⟨first, hfirst, h⟩ := bind_ok_iff.mp h
    obtain ⟨more, hmore, h⟩ := bind_ok_iff.mp h
    cases h
    exact List.forall_mem_cons.mpr ⟨isFresh_settleInside hlexed.1 hfirst, ih hlexed.2 hmore⟩

/-- **`OfSettled`** — `q` holds of every level that is settled. -/
def OfSettled (q : List Tree → Prop) : Prop :=
  ∀ {items items' : List Tree}, (∀ item ∈ items, item.IsFresh) →
    settleLevel items = .ok items' → q items'

/-- What holds of settled levels holds of a level and inside of it, if it holds inside of its items. -/
theorem everyLevel_of_settleLevel {q : List Tree → Prop} (hq : OfSettled q)
    (hinside : InsideAll q items) (hitems : ∀ item ∈ items, item.IsFresh)
    (h : settleLevel items = .ok items') : EveryLevel q items' := by
  refine ⟨hq hitems h, insideAll_iff.mpr ?_⟩
  exact forall_mem_settleLevel (fun _ _ => by rw [Inside]; trivial) h (insideAll_iff.mp hinside)

mutual
/-- What is inside of an item that was lexed is settled or refused. -/
theorem settleInside_faultless : ∀ {item : Tree}, item.IsLexed → Faultless (settleInside item)
  | .leaf l span, _ => by
    rw [settleInside]
    exact .ok _
  | .block kind base inner span, h => by
    rw [settleInside]
    refine .bind (settleInsideAll_faultless h) fun inner' hinner => ?_
    exact .bind (settleLevel_faultless (isFresh_settleInsideAll h hinner)) fun _ _ => .ok _
  | .istring pieces span, h => by
    rw [settleInside]
    exact .bind (settlePieces_faultless h) fun _ _ => .ok _
/-- What is inside of items that were lexed is settled or refused. -/
theorem settleInsideAll_faultless : ∀ {items : List Tree}, AllLexed items →
    Faultless (settleInsideAll items)
  | [], _ => by
    rw [settleInsideAll]
    exact .ok _
  | item :: rest, h => by
    rw [settleInsideAll]
    exact .bind (settleInside_faultless h.1) fun _ _ =>
      .bind (settleInsideAll_faultless h.2) fun _ _ => .ok _
/-- What is inside of the pieces of a string that was lexed is settled or refused. -/
theorem settlePieces_faultless : ∀ {pieces : List Piece}, PiecesLexed pieces →
    Faultless (settlePieces pieces)
  | [], _ => by
    rw [settlePieces]
    exact .ok _
  | .text t :: rest, h => by
    rw [settlePieces]
    have hrest : PiecesLexed rest := h
    exact .bind (settlePieces_faultless hrest) fun _ _ => .ok _
  | .block kind base inner :: rest, h | .escape kind base inner :: rest, h => by
    rw [settlePieces]
    refine .bind (settleInsideAll_faultless h.1) fun inner' hinner => ?_
    refine .bind (settleLevel_faultless (isFresh_settleInsideAll h.1 hinner)) fun _ _ => ?_
    exact .bind (settlePieces_faultless h.2) fun _ _ => .ok _
end

mutual
/-- What holds of settled levels holds inside of a settled item. -/
theorem inside_settleInside {q : List Tree → Prop} (hq : OfSettled q) : ∀ {item item' : Tree},
    item.IsLexed → settleInside item = .ok item' → Inside q item'
  | .leaf l span, item', _, h => by
    rw [settleInside] at h
    cases h
    rw [Inside]
    trivial
  | .block kind base inner span, item', hlexed, h => by
    rw [settleInside] at h
    obtain ⟨inner', hinner, h⟩ := bind_ok_iff.mp h
    obtain ⟨level, hlevel, h⟩ := bind_ok_iff.mp h
    cases h
    rw [Inside]
    exact everyLevel_of_settleLevel hq (insideAll_settleInsideAll hq hlexed hinner)
      (isFresh_settleInsideAll hlexed hinner) hlevel
  | .istring pieces span, item', hlexed, h => by
    rw [settleInside] at h
    obtain ⟨pieces', hpieces, h⟩ := bind_ok_iff.mp h
    cases h
    rw [Inside]
    exact insidePieces_settlePieces hq hlexed hpieces
/-- The same of settled items. -/
theorem insideAll_settleInsideAll {q : List Tree → Prop} (hq : OfSettled q) :
    ∀ {items items' : List Tree}, AllLexed items → settleInsideAll items = .ok items' →
      InsideAll q items'
  | [], items', _, h => by
    rw [settleInsideAll] at h
    cases h
    rw [InsideAll]
    trivial
  | item :: rest, items', hlexed, h => by
    rw [settleInsideAll] at h
    obtain ⟨first, hfirst, h⟩ := bind_ok_iff.mp h
    obtain ⟨more, hmore, h⟩ := bind_ok_iff.mp h
    cases h
    rw [InsideAll]
    exact ⟨inside_settleInside hq hlexed.1 hfirst, insideAll_settleInsideAll hq hlexed.2 hmore⟩
/-- The same of the settled pieces of a string. -/
theorem insidePieces_settlePieces {q : List Tree → Prop} (hq : OfSettled q) :
    ∀ {pieces pieces' : List Piece}, PiecesLexed pieces → settlePieces pieces = .ok pieces' →
      InsidePieces q pieces'
  | [], pieces', _, h => by
    rw [settlePieces] at h
    cases h
    rw [InsidePieces]
    trivial
  | .text t :: rest, pieces', hlexed, h => by
    rw [settlePieces] at h
    obtain ⟨more, hmore, h⟩ := bind_ok_iff.mp h
    cases h
    rw [InsidePieces]
    have hrest : PiecesLexed rest := hlexed
    exact insidePieces_settlePieces hq hrest hmore
  | .block kind base inner :: rest, pieces', hlexed, h
  | .escape kind base inner :: rest, pieces', hlexed, h => by
    rw [settlePieces] at h
    obtain ⟨inner', hinner, h⟩ := bind_ok_iff.mp h
    obtain ⟨level, hlevel, h⟩ := bind_ok_iff.mp h
    obtain ⟨more, hmore, h⟩ := bind_ok_iff.mp h
    cases h
    rw [InsidePieces]
    exact ⟨everyLevel_of_settleLevel hq (insideAll_settleInsideAll hq hlexed.1 hinner)
      (isFresh_settleInsideAll hlexed.1 hinner) hlevel, insidePieces_settlePieces hq hlexed.2 hmore⟩
end

mutual
/-- What is inside of a settled item is written as before. -/
theorem signs_settleInside : ∀ {item item' : Tree}, settleInside item = .ok item' →
    (signs item').filter Sign.isWritten = (signs item).filter Sign.isWritten
  | .leaf l span, item', h => by
    rw [settleInside] at h
    cases h
    rfl
  | .block kind base inner span, item', h => by
    rw [settleInside] at h
    obtain ⟨inner', hinner, h⟩ := bind_ok_iff.mp h
    obtain ⟨level, hlevel, h⟩ := bind_ok_iff.mp h
    cases h
    have hlevel := (signsAll_settleLevel hlevel).trans (signsAll_settleInsideAll hinner)
    simp only [signs, List.filter_cons, List.filter_append, hlevel]
  | .istring pieces span, item', h => by
    rw [settleInside] at h
    obtain ⟨pieces', hpieces, h⟩ := bind_ok_iff.mp h
    cases h
    simp only [signs, List.filter_cons, List.filter_append, pieceSigns_settlePieces hpieces]
/-- What is inside of settled items is written as before. -/
theorem signsAll_settleInsideAll : ∀ {items items' : List Tree}, settleInsideAll items = .ok items' →
    (signsAll items').filter Sign.isWritten = (signsAll items).filter Sign.isWritten
  | [], items', h => by
    rw [settleInsideAll] at h
    cases h
    rfl
  | item :: rest, items', h => by
    rw [settleInsideAll] at h
    obtain ⟨first, hfirst, h⟩ := bind_ok_iff.mp h
    obtain ⟨more, hmore, h⟩ := bind_ok_iff.mp h
    cases h
    rw [signsAll, signsAll, List.filter_append, List.filter_append, signs_settleInside hfirst,
      signsAll_settleInsideAll hmore]
/-- What is inside of the settled pieces of a string is written as before. -/
theorem pieceSigns_settlePieces : ∀ {pieces pieces' : List Piece},
    settlePieces pieces = .ok pieces' →
    (pieceSigns pieces').filter Sign.isWritten = (pieceSigns pieces).filter Sign.isWritten
  | [], pieces', h => by
    rw [settlePieces] at h
    cases h
    rfl
  | .text t :: rest, pieces', h => by
    rw [settlePieces] at h
    obtain ⟨more, hmore, h⟩ := bind_ok_iff.mp h
    cases h
    simp only [pieceSigns, List.filter_cons, pieceSigns_settlePieces hmore]
  | .block kind base inner :: rest, pieces', h | .escape kind base inner :: rest, pieces', h => by
    rw [settlePieces] at h
    obtain ⟨inner', hinner, h⟩ := bind_ok_iff.mp h
    obtain ⟨level, hlevel, h⟩ := bind_ok_iff.mp h
    obtain ⟨more, hmore, h⟩ := bind_ok_iff.mp h
    cases h
    have hlevel := (signsAll_settleLevel hlevel).trans (signsAll_settleInsideAll hinner)
    simp only [pieceSigns, List.filter_cons, List.filter_append, hlevel,
      pieceSigns_settlePieces hmore]
end

/-- **Items that were lexed are settled or refused**, and nothing that settling assumes is broken. -/
theorem settle_faultless (h : AllLexed items) : Faultless (settle items) :=
  .bind (settleInsideAll_faultless h) fun _ hinner =>
    settleLevel_faultless (isFresh_settleInsideAll h hinner)

/-- **What holds of settled levels holds of settled items at every level.** -/
theorem everyLevel_of_ofSettled {q : List Tree → Prop} (hq : OfSettled q) (hlexed : AllLexed items)
    (h : settle items = .ok items') : EveryLevel q items' := by
  obtain ⟨inner, hinner, h⟩ := bind_ok_iff.mp h
  exact everyLevel_of_settleLevel hq (insideAll_settleInsideAll hq hlexed hinner)
    (isFresh_settleInsideAll hlexed hinner) h

/-- **Settled items are ready for grouping at every level.** -/
theorem everyLevel_of_settle (hlexed : AllLexed items) (h : settle items = .ok items') :
    EveryLevel Ready items' :=
  everyLevel_of_ofSettled ready_of_settleLevel hlexed h

/-- **Settled items are written like the items that they were.** -/
theorem signsAll_settle (h : settle items = .ok items') :
    (signsAll items').filter Sign.isWritten = (signsAll items).filter Sign.isWritten := by
  obtain ⟨inner, hinner, h⟩ := bind_ok_iff.mp h
  exact (signsAll_settleLevel h).trans (signsAll_settleInsideAll hinner)

end Tree

end DewyFront
