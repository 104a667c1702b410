/-
# DewyFront.Proofs.Reworking — what settling does to a level, step by step

Settling goes through the items of a level several times. Most of its steps only put something in the
place of an item or of a run of operators; two also drop and add items. None of them loses a sign, a
juxtaposition keeps an item on each side through all of them, and no step meets an item that it is not
made for.

* §1 joints, and lists with an item on both sides of each;
* §2 items put in the place of others;
* §3 what this keeps;
* §4 inserting and classifying;
* §5 backticks;
* §6 range marks;
* §7 operators for markers;
* §8 compound operators.
-/
import DewyFront.Proofs.Settling
import DewyFront.Proofs.Signs

namespace DewyFront

/-! ## §1 Joints -/

/-- Whether an operator is a juxtaposition. -/
def Op.isJoint : Op → Bool
  | .juxtapose _ | .bond _ => true
  | _ => false

namespace Tree

/-- **`isJoint`** — whether an item stands for items that touch: a marker or a juxtaposition. -/
def isJoint : Tree → Bool
  | leaf (.marker _) _ => true
  | leaf (.operator op) _ => op.isJoint
  | _ => false

/-- Whether an item joins a range mark to its bound. -/
def isRangeJoint : Tree → Bool
  | leaf (.marker m) _ => m == .range
  | leaf (.operator op) _ => op == .bond .range
  | _ => false

/-- **`Seated`** — every joint has an item behind it, and in front of it one that is no joint; `open'`
says whether such an item stands in front of the list. -/
def Seated (open' : Bool) : List Tree → Prop
  | [] => True
  | item :: rest =>
    (item.isJoint = true → open' = true ∧ rest ≠ []) ∧ Seated (!item.isJoint) rest

/-- **`Bounded`** — every range mark is joined on both sides; `joined` says whether a range joint stands
in front of the list. -/
def Bounded (joined : Bool) : List Tree → Prop
  | [] => True
  | item :: rest =>
    (item.atom? = some .rangeMark → joined = true ∧ rest.head?.any isRangeJoint = true) ∧
      Bounded item.isRangeJoint rest

variable {item : Tree} {items rest xs ys : List Tree} {p : Tree → Prop}

theorem Seated.mono {b : Bool} (h : Seated b items) : Seated true items := by
  cases items with
  | nil => trivial
  | cons item rest => exact ⟨fun hj => ⟨rfl, (h.1 hj).2⟩, h.2⟩

/-- An item that is no joint may stand anywhere. -/
theorem Seated.cons {b : Bool} (hitem : item.isJoint = false) (h : Seated true rest) :
    Seated b (item :: rest) := by
  refine ⟨fun hj => ?_, ?_⟩
  · rw [hitem] at hj
    cases hj
  · rw [hitem]
    exact h

/-- A joint stands between items. -/
theorem Seated.cons_joint (hitem : item.isJoint = true) (hne : rest ≠ []) (h : Seated false rest) :
    Seated true (item :: rest) := by
  refine ⟨fun _ => ⟨rfl, hne⟩, ?_⟩
  rw [hitem]
  exact h

theorem Seated.tail {b : Bool} (h : Seated b (item :: rest)) (hitem : item.isJoint = false) :
    Seated true rest := by
  have := h.2
  rw [hitem] at this
  exact this

/-- What stands behind a joint is no joint. -/
theorem Seated.tail_joint {b : Bool} (h : Seated b (item :: rest)) (hitem : item.isJoint = true) :
    b = true ∧ rest ≠ [] ∧ Seated false rest := by
  have hrest := h.2
  rw [hitem] at hrest
  exact ⟨(h.1 hitem).1, (h.1 hitem).2, hrest⟩

/-- A list that may not begin with a joint begins with another item, if it has any. -/
theorem Seated.exists_cons (h : Seated false items) (hne : items ≠ []) :
    ∃ item rest, items = item :: rest ∧ item.isJoint = false := by
  cases items with
  | nil => exact absurd rfl hne
  | cons item rest =>
    refine ⟨item, rest, rfl, ?_⟩
    cases hj : item.isJoint with
    | false => rfl
    | true =>
      obtain ⟨hopen, -⟩ := h.1 hj
      cases hopen

theorem isRangeJoint_of_isJoint (h : item.isJoint = false) : item.isRangeJoint = false := by
  cases item with
  | leaf l s =>
    cases l with
    | operator op => cases op <;> first | rfl | cases h
    | marker m => cases h
    | _ => rfl
  | _ => rfl

theorem isJoint_of_isRangeJoint (h : item.isRangeJoint = true) : item.isJoint = true := by
  cases hj : item.isJoint with
  | true => rfl
  | false =>
    rw [isRangeJoint_of_isJoint hj] at h
    cases h

theorem isJoint_of_atom? {a : Atom} (h : item.atom? = some a) : item.isJoint = false := by
  cases item with
  | leaf l s => cases l <;> first | rfl | cases h
  | _ => cases h

theorem Bounded.cons {b : Bool} (hitem : item.atom? ≠ some .rangeMark)
    (h : Bounded item.isRangeJoint rest) : Bounded b (item :: rest) :=
  ⟨fun hmark => absurd hmark hitem, h⟩

/-! ## §2 Items for items -/

/-- The item of an operator. -/
def ofOperator (o : Operator) : Tree := .leaf (.operator o.op) o.span

@[simp] theorem isJoint_ofOperator (o : Operator) : (ofOperator o).isJoint = o.op.isJoint := rfl

/-- **`Reworks`** — a step that puts one item in the place of each item or of a run of operators. -/
inductive Reworks : List Tree → List Tree → Prop
  | nil : Reworks [] []
  | keep (item : Tree) {xs ys : List Tree} (h : Reworks xs ys) : Reworks (item :: xs) (item :: ys)
  | classify (m : Marker) (span : Span) {xs ys : List Tree} (h : Reworks xs ys) :
      Reworks (.leaf (.marker .plain) span :: xs) (.leaf (.marker m) span :: ys)
  | join {m : Marker} {op : Op} (span : Span) {xs ys : List Tree} (hop : op.isJoint = true)
      (hrange : m = .range → op = .bond .range) (h : Reworks xs ys) :
      Reworks (.leaf (.marker m) span :: xs) (.leaf (.operator op) span :: ys)
  | close (span : Span) {xs ys : List Tree} (h : Reworks xs ys) :
      Reworks (.leaf (.keyword .elseWord) span :: xs) (.leaf .closingElse span :: ys)
  | fuse {o : Operator} {os : List Operator} {op : Op} (span : Span) {xs ys : List Tree}
      (hos : ∀ p ∈ o :: os, p.op.isJoint = false) (hop : op.isJoint = false)
      (hsigns : op.signs = (o :: os).flatMap (·.op.signs)) (h : Reworks xs ys) :
      Reworks ((o :: os).map ofOperator ++ xs) (.leaf (.operator op) span :: ys)

theorem Reworks.refl (items : List Tree) : Reworks items items := by
  induction items with
  | nil => exact .nil
  | cons item rest ih => exact .keep item ih

/-! ## §3 What is kept -/

theorem signs_of_isJoint (h : item.isJoint = true) : item.signs = [] := by
  cases item with
  | leaf l s =>
    cases l with
    | operator op =>
      cases op with
      | juxtapose | bond => rw [signs, leafSigns, Op.signs]
      | _ => cases h
    | marker m => rfl
    | _ => cases h
  | _ => cases h

theorem signsAll_ofOperator (os : List Operator) :
    signsAll (os.map ofOperator) = os.flatMap (·.op.signs) := by
  induction os with
  | nil => rfl
  | cons o os ih =>
    rw [List.map_cons, signsAll, ih, List.flatMap_cons]
    rfl

/-- **No sign is lost** where items are put in the place of others. -/
theorem Reworks.signsAll_eq (h : Reworks xs ys) : signsAll ys = signsAll xs := by
  induction h with
  | nil => rfl
  | keep item _ ih => rw [signsAll, signsAll, ih]
  | classify m span _ ih =>
    rw [signsAll, signsAll, ih]
    rfl
  | @join m op span _ _ hop _ _ ih =>
    have hnone : signs (.leaf (.operator op) span) = [] := signs_of_isJoint hop
    rw [signsAll, signsAll, ih, hnone]
    rfl
  | close span _ ih =>
    rw [signsAll, signsAll, ih]
    rfl
  | fuse span _ _ hsigns _ ih =>
    rw [signsAll, signsAll_append, signsAll_ofOperator, ih, ← hsigns]
    rfl

theorem Reworks.ne_nil (h : Reworks xs ys) (hne : xs ≠ []) : ys ≠ [] := by
  cases h with
  | nil => exact absurd rfl hne
  | _ => simp

/-- Operators that are no joints leave a place behind them where a joint may stand. -/
theorem Seated.of_operators {b : Bool} {o : Operator} {os : List Operator}
    (hos : ∀ p ∈ o :: os, p.op.isJoint = false)
    (h : Seated b ((o :: os).map ofOperator ++ items)) : Seated true items := by
  induction os generalizing b o with
  | nil => exact h.tail (hos o List.mem_cons_self)
  | cons next os ih =>
    exact ih (fun p hp => hos p (List.mem_cons_of_mem _ hp)) (h.tail (hos o List.mem_cons_self))

/-- **A joint keeps an item on each side.** -/
theorem Reworks.seated {b : Bool} (h : Reworks xs ys) (hs : Seated b xs) : Seated b ys := by
  induction h generalizing b with
  | nil => trivial
  | keep item h ih => exact ⟨fun hj => ⟨(hs.1 hj).1, h.ne_nil (hs.1 hj).2⟩, ih hs.2⟩
  | classify m span h ih =>
    obtain ⟨rfl, hne, hrest⟩ := hs.tail_joint rfl
    exact (ih hrest).cons_joint rfl (h.ne_nil hne)
  | join span hop _ h ih =>
    obtain ⟨rfl, hne, hrest⟩ := hs.tail_joint rfl
    exact (ih hrest).cons_joint hop (h.ne_nil hne)
  | close span _ ih => exact .cons rfl (ih (hs.tail rfl))
  | fuse span hos hop _ _ ih => exact .cons hop (ih (hs.of_operators hos))

theorem Bounded.mono {b b' : Bool} (h : Bounded b items) (hb : b = true → b' = true) :
    Bounded b' items := by
  cases items with
  | nil => trivial
  | cons item rest => exact ⟨fun hmark => ⟨hb (h.1 hmark).1, (h.1 hmark).2⟩, h.2⟩

theorem Bounded.of_operators {b : Bool} {o : Operator} {os : List Operator}
    (hos : ∀ p ∈ o :: os, p.op.isJoint = false)
    (h : Bounded b ((o :: os).map ofOperator ++ items)) : Bounded false items := by
  induction os generalizing b o with
  | nil =>
    have hfirst : (ofOperator o).isRangeJoint = false :=
      isRangeJoint_of_isJoint (hos o List.mem_cons_self)
    have hrest := h.2
    rw [hfirst] at hrest
    exact hrest
  | cons next os ih => exact ih (fun p hp => hos p (List.mem_cons_of_mem _ hp)) h.2

theorem Reworks.head?_isRangeJoint (h : Reworks xs ys) (hx : xs.head?.any isRangeJoint = true) :
    ys.head?.any isRangeJoint = true := by
  cases h with
  | nil => exact hx
  | keep item h => exact hx
  | classify m span h => cases hx
  | @join m op span _ _ hop hrange h =>
    have hm : m = .range := by simpa [isRangeJoint] using hx
    simp [isRangeJoint, hrange hm]
  | close span h => cases hx
  | @fuse o os op span _ _ hos hop hsigns h =>
    have hjoint : (ofOperator o).isJoint = true := isJoint_of_isRangeJoint hx
    rw [isJoint_ofOperator, hos o List.mem_cons_self] at hjoint
    cases hjoint

/-- **A range mark keeps a range joint on each side.** -/
theorem Reworks.bounded {b b' : Bool} (h : Reworks xs ys) (hs : Bounded b xs)
    (hb : b = true → b' = true) : Bounded b' ys := by
  induction h generalizing b b' with
  | nil => trivial
  | keep item h ih =>
    refine ⟨fun hmark => ⟨hb (hs.1 hmark).1, ?_⟩, ih hs.2 id⟩
    exact h.head?_isRangeJoint (hs.1 hmark).2
  | classify m span _ ih => exact .cons (fun h => by cases h) (ih hs.2 (fun h => by cases h))
  | join span _ hrange _ ih =>
    refine .cons (fun h => by cases h) (ih hs.2 fun hm => ?_)
    simp [isRangeJoint, hrange (by simpa [isRangeJoint] using hm)]
  | close span _ ih => exact .cons (fun h => by cases h) (ih hs.2 (fun h => by cases h))
  | fuse span hos _ _ _ ih =>
    -- What is put together is no range joint, and neither is what comes out.
    exact .cons (fun h => by cases h) (ih (hs.of_operators hos) (fun h => by cases h))

/-- What holds of the items that were there, and of those that a step can make, holds of all. -/
theorem Reworks.forall_mem (h : Reworks xs ys)
    (hoperator : ∀ op span, p (.leaf (.operator op) span))
    (helse : ∀ span, p (.leaf .closingElse span))
    (hmarker : ∀ m span, p (.leaf (.marker .plain) span) → p (.leaf (.marker m) span))
    (hxs : ∀ item ∈ xs, p item) : ∀ item ∈ ys, p item := by
  induction h with
  | nil => exact hxs
  | keep item _ ih =>
    obtain ⟨hitem, hxs⟩ := List.forall_mem_cons.mp hxs
    exact List.forall_mem_cons.mpr ⟨hitem, ih hxs⟩
  | classify m span _ ih =>
    obtain ⟨hitem, hxs⟩ := List.forall_mem_cons.mp hxs
    exact List.forall_mem_cons.mpr ⟨hmarker m span hitem, ih hxs⟩
  | join span _ _ _ ih =>
    obtain ⟨-, hxs⟩ := List.forall_mem_cons.mp hxs
    exact List.forall_mem_cons.mpr ⟨hoperator _ span, ih hxs⟩
  | close span _ ih =>
    obtain ⟨-, hxs⟩ := List.forall_mem_cons.mp hxs
    exact List.forall_mem_cons.mpr ⟨helse span, ih hxs⟩
  | fuse span _ _ _ _ ih =>
    obtain ⟨-, hxs⟩ := List.forall_mem_append.mp hxs
    exact List.forall_mem_cons.mpr ⟨hoperator _ span, ih hxs⟩

/-! ## §4 Inserting and classifying -/

theorem isJoint_of_marker? {m : Marker} (h : item.marker? = some m) : item.isJoint = true := by
  cases item with
  | leaf l s => cases l <;> first | rfl | cases h
  | _ => cases h

theorem eq_of_marker? {m : Marker} (h : item.marker? = some m) :
    item = .leaf (.marker m) item.span := by
  cases item with
  | leaf l s =>
    cases l <;> cases h
    rfl
  | _ => cases h

theorem signs_of_isTrivia (h : item.isTrivia = true) : item.signs = [] := by
  cases item with
  | leaf l s => cases l <;> first | rfl | cases h
  | _ => cases h

theorem signsAll_insertFrom (joinable : Bool) (items : List Tree) :
    signsAll (insertFrom joinable items) = signsAll items := by
  induction items generalizing joinable with
  | nil => rfl
  | cons item rest ih =>
    rw [insertFrom]
    split
    · next htrivia =>
      rw [ih, signsAll, signs_of_isTrivia htrivia]
      rfl
    · split
      · rw [signsAll, signsAll, ih, signsAll]
        rfl
      · rw [signsAll, ih, signsAll]

/-- A marker is put behind an item, and in front of one. -/
theorem seated_insertFrom {b joinable : Bool} (hb : joinable = true → b = true)
    (h : ∀ item ∈ items, item.isJoint = false) : Seated b (insertFrom joinable items) := by
  induction items generalizing b joinable with
  | nil => trivial
  | cons item rest ih =>
    obtain ⟨hitem, hrest⟩ := List.forall_mem_cons.mp h
    rw [insertFrom]
    split
    · exact ih (fun h => by cases h) hrest
    · split
      · next hjoin =>
        obtain rfl := hb (Bool.and_eq_true_iff.mp hjoin).1
        exact .cons_joint rfl (by simp) (.cons hitem (ih (fun _ => rfl) hrest))
      · exact .cons hitem (ih (fun _ => rfl) hrest)

theorem mem_insertFrom {joinable : Bool} (h : item ∈ insertFrom joinable items) :
    item ∈ items ∧ item.isTrivia = false ∨ ∃ span, item = markerAt .plain span := by
  induction items generalizing joinable with
  | nil => cases h
  | cons first rest ih =>
    have hrest : ∀ {j}, item ∈ insertFrom j rest → item ∈ first :: rest ∧ item.isTrivia = false ∨
        ∃ span, item = markerAt .plain span := fun hi =>
      (ih hi).imp_left fun hi => ⟨List.mem_cons_of_mem _ hi.1, hi.2⟩
    rw [insertFrom] at h
    split at h
    · exact hrest h
    · next htrivia =>
      have htrivia : first.isTrivia = false := by simpa using htrivia
      split at h
      · rcases List.mem_cons.mp h with rfl | h
        · exact .inr ⟨_, rfl⟩
        · rcases List.mem_cons.mp h with rfl | h
          · exact .inl ⟨List.mem_cons_self, htrivia⟩
          · exact hrest h
      · rcases List.mem_cons.mp h with rfl | h
        · exact .inl ⟨List.mem_cons_self, htrivia⟩
        · exact hrest h

theorem reworks_classifyFrom {before left : Option Tree} {items' : List Tree}
    (h : classifyFrom before left items = .ok items') : Reworks items items' := by
  induction items generalizing before left items' with
  | nil =>
    cases h
    exact .nil
  | cons item rest ih =>
    unfold classifyFrom at h
    split at h
    · next hplain =>
      split at h
      · obtain ⟨more, hmore, h⟩ := bind_ok_iff.mp h
        cases h
        rw [eq_of_marker? hplain]
        exact .classify _ _ (ih hmore)
      · cases h
    · obtain ⟨more, hmore, h⟩ := bind_ok_iff.mp h
      cases h
      exact .keep _ (ih hmore)

/-- **Every marker has neighbours to be classified by.** -/
theorem classifyFrom_faultless {before left : Option Tree} {b : Bool}
    (hleft : b = true → left.isSome = true) (h : Seated b items) :
    Faultless (classifyFrom before left items) := by
  induction items generalizing before left b with
  | nil => exact .ok _
  | cons item rest ih =>
    unfold classifyFrom
    split
    · next hplain =>
      -- A marker is a joint, so an item stands on each side of it.
      obtain ⟨rfl, hne, hrest⟩ := h.tail_joint (isJoint_of_marker? hplain)
      obtain ⟨l, rfl⟩ := Option.isSome_iff_exists.mp (hleft rfl)
      obtain ⟨r, tail, rfl⟩ := List.exists_cons_of_ne_nil hne
      exact .bind (ih (b := false) (fun h => by cases h) hrest) fun _ _ => .ok _
    · exact .bind (ih (fun _ => rfl) h.2) fun _ _ => .ok _

/-! ## §5 Backticks -/

theorem resolveFrom_faultless (left : Option Tree) (items : List Tree) :
    Faultless (resolveFrom left items) := by
  induction items generalizing left with
  | nil => exact .ok _
  | cons item rest ih =>
    unfold resolveFrom
    split
    · exact .refuse _
    · split
      · split
        · exact .bind (ih _) fun _ _ => .ok _
        · exact .bind (ih _) fun _ _ => .ok _
        · exact .refuse _
      · split
        · exact ih _
        · exact .bind (ih _) fun _ _ => .ok _

theorem signs_of_isBacktick (h : item.isBacktick = true) : item.signs = [.backtick] := by
  cases item with
  | leaf l s => cases l <;> first | rfl | cases h
  | _ => cases h

theorem isJoint_of_isBacktick (h : item.isBacktick = true) : item.isJoint = false := by
  cases item with
  | leaf l s => cases l <;> first | rfl | cases h
  | _ => cases h

theorem signsAll_resolveFrom {left : Option Tree} {items' : List Tree}
    (h : resolveFrom left items = .ok items') : signsAll items' = signsAll items := by
  induction items generalizing left items' with
  | nil =>
    cases h
    rfl
  | cons item rest ih =>
    obtain ⟨more, hmore, hcases⟩ := resolveFrom_cons_ok h
    rcases hcases with ⟨hback, side, rfl⟩ | ⟨hmarker, rfl⟩ | ⟨-, -, rfl⟩
    · rw [signsAll, signsAll, ih hmore, signs_of_isBacktick hback, signs, leafSigns, Op.signs]
    · rw [signsAll, ih hmore, signs_of_isJoint (isJoint_of_marker? hmarker)]
      rfl
    · rw [signsAll, signsAll, ih hmore]

/-- The markers that are dropped leave none without an item: what they join is a backtick. -/
theorem seated_resolveFrom {left : Option Tree} {b : Bool} {items' : List Tree}
    (h : resolveFrom left items = .ok items') (hs : Seated b items) : Seated b items' := by
  induction items generalizing left b items' with
  | nil =>
    cases h
    trivial
  | cons item rest ih =>
    obtain ⟨more, hmore, hcases⟩ := resolveFrom_cons_ok h
    rcases hcases with ⟨hback, side, rfl⟩ | ⟨hmarker, rfl⟩ | ⟨-, hmarker, rfl⟩
    · exact .cons rfl (ih hmore (hs.tail (isJoint_of_isBacktick hback)))
    · obtain ⟨rfl, -, hrest⟩ := hs.tail_joint (isJoint_of_marker? hmarker)
      exact (ih hmore hrest).mono
    · refine ⟨fun hj => ⟨(hs.1 hj).1, ?_⟩, ih hmore hs.2⟩
      -- the item behind a joint is no joint, so it is still there
      obtain ⟨-, hne, hrest⟩ := hs.tail_joint hj
      obtain ⟨next, tail, rfl, hnext⟩ := hrest.exists_cons hne
      obtain ⟨more', -, hcases⟩ := resolveFrom_cons_ok hmore
      rcases hcases with ⟨-, side, rfl⟩ | ⟨hdropped, -⟩ | ⟨-, -, rfl⟩
      · simp
      · rw [isJoint_of_marker? hdropped] at hnext
        cases hnext
      · simp

theorem mem_resolveFrom {left : Option Tree} {items' : List Tree}
    (h : resolveFrom left items = .ok items') (hmem : item ∈ items') :
    (item ∈ items ∧ item.isBacktick = false ∧ item.marker? ≠ some .backtick) ∨
      ∃ side span, item = .leaf (.operator (.backtick side)) span := by
  induction items generalizing left items' with
  | nil =>
    cases h
    cases hmem
  | cons first rest ih =>
    obtain ⟨more, hmore, hcases⟩ := resolveFrom_cons_ok h
    have hrest (hi : item ∈ more) := (ih hmore hi).imp_left fun hi =>
      And.intro (List.mem_cons_of_mem first hi.1) hi.2
    rcases hcases with ⟨-, side, rfl⟩ | ⟨-, rfl⟩ | ⟨hback, hmarker, rfl⟩
    · rcases List.mem_cons.mp hmem with rfl | hmem
      · exact .inr ⟨side, _, rfl⟩
      · exact hrest hmem
    · exact hrest hmem
    · rcases List.mem_cons.mp hmem with rfl | hmem
      · exact .inl ⟨List.mem_cons_self, hback, hmarker⟩
      · exact hrest hmem

/-! ## §6 Range marks -/

theorem isWritten_undefinedAt (offset : Nat) :
    (signs (undefinedAt (.point offset))).filter Sign.isWritten = [] := by
  simp [undefinedAt, signs, leafSigns, Sign.isWritten, Atom.undefined, Span.point, Span.isEmpty]

/-- The bounds that are added take no bytes. -/
theorem signsAll_boundFrom (left : Option Tree) (items : List Tree) :
    (signsAll (boundFrom left items)).filter Sign.isWritten =
      (signsAll items).filter Sign.isWritten := by
  have hmarker (place : Span) : signs (markerAt .range place) = [] := rfl
  induction items generalizing left with
  | nil => rfl
  | cons item rest ih =>
    have hitem (back : List Tree) :
        (signsAll back).filter Sign.isWritten = (signsAll rest).filter Sign.isWritten →
        (signsAll (item :: back)).filter Sign.isWritten =
          (signsAll (item :: rest)).filter Sign.isWritten := by
      intro h
      rw [signsAll, signsAll, List.filter_append, List.filter_append, h]
    unfold boundFrom
    dsimp only
    split
    · rw [signsAll_append, List.filter_append]
      have hfront : (signsAll (if isMarker .range left then []
          else [undefinedAt (.point item.span.start),
            markerAt .range (.point item.span.start)])).filter Sign.isWritten = [] := by
        split
        · rfl
        · rw [signsAll, signsAll, hmarker, signsAll, List.append_nil, List.append_nil]
          exact isWritten_undefinedAt _
      rw [hfront, List.nil_append]
      apply hitem
      split
      · exact ih _
      · rw [signsAll, signsAll, hmarker, List.nil_append, List.filter_append, Span.endPoint,
          isWritten_undefinedAt]
        exact ih _
    · exact hitem _ (ih _)

theorem seated_boundFrom {b : Bool} {left : Option Tree} (h : Seated b items) :
    Seated b (boundFrom left items) := by
  induction items generalizing b left with
  | nil => trivial
  | cons item rest ih =>
    unfold boundFrom
    dsimp only
    split
    · next hmark =>
      have hitem := isJoint_of_atom? hmark
      have hrest : Seated true (boundFrom (some item) rest) := ih (h.tail hitem)
      have hback : Seated true (if isMarker .range rest.head? then boundFrom (some item) rest
          else markerAt .range item.span.endPoint :: undefinedAt item.span.endPoint ::
            boundFrom (some item) rest) := by
        split
        · exact hrest
        · exact .cons_joint rfl (by simp) (.cons rfl hrest)
      split
      · exact .cons hitem hback
      · exact .cons rfl (.cons_joint rfl (by simp) (.cons hitem hback))
    · refine ⟨fun hj => ⟨(h.1 hj).1, ?_⟩, ih h.2⟩
      -- what stands behind the joint still does
      obtain ⟨next, tail, rfl⟩ := List.exists_cons_of_ne_nil (h.1 hj).2
      unfold boundFrom
      dsimp only
      split <;> simp

theorem isRangeJoint_of_isMarker {neighbour : Option Tree} (h : isMarker .range neighbour = true) :
    ∃ item, neighbour = some item ∧ item.marker? = some .range ∧ item.isRangeJoint = true := by
  cases neighbour with
  | none => cases h
  | some item =>
    have hmarker : item.marker? = some .range := by simpa [isMarker] using h
    refine ⟨item, rfl, hmarker, ?_⟩
    rw [eq_of_marker? hmarker]
    rfl

theorem isMarker_of_atom? {a : Atom} (h : item.atom? = some a) :
    isMarker .range (some item) = false := by
  cases item with
  | leaf l s => cases l <;> first | rfl | cases h
  | _ => cases h

/-- **Every range mark is given what it lacks.** -/
theorem bounded_boundFrom (left : Option Tree) (items : List Tree) :
    Bounded (isMarker .range left) (boundFrom left items) := by
  induction items generalizing left with
  | nil => trivial
  | cons item rest ih =>
    have hrest := ih (some item)
    unfold boundFrom
    dsimp only
    split
    · next hmark =>
      rw [isMarker_of_atom? hmark] at hrest
      have hback {b : Bool} (hb : b = true) : Bounded b
          (item :: if isMarker .range rest.head? then boundFrom (some item) rest
            else markerAt .range item.span.endPoint :: undefinedAt item.span.endPoint ::
              boundFrom (some item) rest) := by
        rw [← isRangeJoint_of_isJoint (isJoint_of_atom? hmark)] at hrest
        split
        · next hnext =>
          refine ⟨fun _ => ⟨hb, ?_⟩, hrest⟩
          obtain ⟨next, hhead, hmarker, hjoint⟩ := isRangeJoint_of_isMarker hnext
          obtain ⟨tail, rfl⟩ := List.head?_eq_some_iff.mp hhead
          have hatom : next.atom? ≠ some .rangeMark := by
            rw [eq_of_marker? hmarker]
            exact fun h => by cases h
          simp [boundFrom, hatom, hjoint]
        · refine ⟨fun _ => ⟨hb, rfl⟩, .cons (fun h => by cases h) (.cons (fun h => by cases h) ?_)⟩
          rw [isRangeJoint_of_isJoint (isJoint_of_atom? hmark)] at hrest
          exact hrest
      split
      · next hleft => exact hback hleft
      · exact .cons (fun h => by cases h) (.cons (fun h => by cases h) (hback rfl))
    · next hmark =>
      refine .cons hmark (hrest.mono fun hm => ?_)
      obtain ⟨_, heq, -, hjoint⟩ := isRangeJoint_of_isMarker hm
      cases heq
      exact hjoint

theorem mem_boundFrom {left : Option Tree} (h : item ∈ boundFrom left items) :
    item ∈ items ∨ ∃ place, item = undefinedAt place ∨ item = markerAt .range place := by
  induction items generalizing left with
  | nil => cases h
  | cons first rest ih =>
    have hrest (hi : item ∈ boundFrom (some first) rest) := (ih hi).imp_left
      (List.mem_cons_of_mem first)
    unfold boundFrom at h
    dsimp only at h
    split at h
    · rcases List.mem_append.mp h with h | h
      · split at h
        · cases h
        · simp only [List.mem_cons, List.not_mem_nil, or_false] at h
          exact .inr ⟨_, h⟩
      · rcases List.mem_cons.mp h with rfl | h
        · exact .inl List.mem_cons_self
        · split at h
          · exact hrest h
          · rcases List.mem_cons.mp h with rfl | h
            · exact .inr ⟨_, .inr rfl⟩
            · rcases List.mem_cons.mp h with rfl | h
              · exact .inr ⟨_, .inl rfl⟩
              · exact hrest h
    · rcases List.mem_cons.mp h with rfl | h
      · exact .inl List.mem_cons_self
      · exact hrest h

/-! ## §7 Operators for markers -/

/-- Every marker becomes a juxtaposition. -/
theorem isJoint_of_markerOp {m : Marker} {left right : Option Tree} {op : Op}
    (h : markerOp m left right = .ok op) :
    op.isJoint = true ∧ (m = .range → op = .bond .range) := by
  unfold markerOp at h
  split at h <;> cases h
  · exact ⟨rfl, fun h => by cases h⟩
  · exact ⟨rfl, fun _ => rfl⟩
  · exact ⟨rfl, fun h => by cases h⟩
  · exact ⟨rfl, fun h => by cases h⟩

theorem reworks_operatorsFrom {left : Option Tree} {items' : List Tree}
    (h : operatorsFrom left items = .ok items') :
    Reworks items items' ∧ ∀ item ∈ items', item.marker? = none := by
  induction items generalizing left items' with
  | nil =>
    cases h
    exact ⟨.nil, by simp⟩
  | cons item rest ih =>
    unfold operatorsFrom at h
    split at h
    · next m hm =>
      obtain ⟨op, hop, h⟩ := bind_ok_iff.mp h
      obtain ⟨more, hmore, h⟩ := bind_ok_iff.mp h
      cases h
      obtain ⟨hreworks, hnone⟩ := ih hmore
      obtain ⟨hjoint, hrange⟩ := isJoint_of_markerOp hop
      rw [eq_of_marker? hm]
      exact ⟨.join _ hjoint hrange hreworks, List.forall_mem_cons.mpr ⟨rfl, hnone⟩⟩
    · next hm =>
      obtain ⟨more, hmore, h⟩ := bind_ok_iff.mp h
      cases h
      obtain ⟨hreworks, hnone⟩ := ih hmore
      exact ⟨.keep _ hreworks, List.forall_mem_cons.mpr ⟨hm, hnone⟩⟩

/-- **Every marker stands between items and is settled.** -/
theorem operatorsFrom_faultless {left : Option Tree} {b : Bool}
    (hleft : b = true → left.isSome = true) (h : Seated b items)
    (hback : ∀ item ∈ items, item.marker? ≠ some .backtick) :
    Faultless (operatorsFrom left items) := by
  induction items generalizing left b with
  | nil => exact .ok _
  | cons item rest ih =>
    obtain ⟨hitem, hback⟩ := List.forall_mem_cons.mp hback
    have hmore : Faultless (operatorsFrom (some item) rest) := ih (fun _ => rfl) h.2 hback
    unfold operatorsFrom
    split
    · next m hm =>
      obtain ⟨rfl, hne, -⟩ := h.tail_joint (isJoint_of_marker? hm)
      obtain ⟨l, rfl⟩ := Option.isSome_iff_exists.mp (hleft rfl)
      obtain ⟨r, tail, rfl⟩ := List.exists_cons_of_ne_nil hne
      have hop : Faultless (markerOp m (some l) (some r)) := by
        cases m with
        | backtick => exact absurd hm hitem
        | _ => exact .ok _
      exact .bind hop fun _ _ => .bind hmore fun _ _ => .ok _
    · exact .bind hmore fun _ _ => .ok _

/-! ## §8 Compound operators -/

theorem eq_of_keyword? {k : Keyword} (h : item.keyword? = some k) :
    item = .leaf (.keyword k) item.span := by
  cases item with
  | leaf l s =>
    cases l <;> cases h
    rfl
  | _ => cases h

theorem eq_of_operator? {op : Op} (h : item.operator? = some op) :
    item = ofOperator ⟨op, item.span⟩ := by
  cases item with
  | leaf l s =>
    cases l <;> cases h
    rfl
  | _ => cases h

theorem reworks_closeElses (items : List Tree) : Reworks items (closeElses items) := by
  induction items with
  | nil => exact .nil
  | cons item rest ih =>
    unfold closeElses
    dsimp only
    split
    · next hclose =>
      rw [eq_of_keyword? hclose.1]
      exact .close _ ih
    · exact .keep _ ih

/-- **`Welds`** — what is put together are operators that are no joints, and what comes out is one that
has their signs. -/
def Welds (join : Tree → Tree → Option Op) : Prop :=
  ∀ a b op, join a b = some op → ∃ p q, a.operator? = some p ∧ b.operator? = some q ∧
    p.isJoint = false ∧ q.isJoint = false ∧ op.isJoint = false ∧ op.signs = p.signs ++ q.signs

theorem Welds.reworks_fusePairs {join : Tree → Tree → Option Op} (hj : Welds join)
    (items : List Tree) : Reworks items (fusePairs join items) := by
  fun_induction fusePairs join items with
  | case1 a b rest op hop ih =>
    obtain ⟨p, q, ha, hb, hp, hq, hop, hsigns⟩ := hj _ _ _ hop
    rw [eq_of_operator? ha, eq_of_operator? hb]
    refine @Reworks.fuse ⟨p, a.span⟩ [⟨q, b.span⟩] _ _ _ _ ?_ hop ?_ ih
    · simp [hp, hq]
    · simp [hsigns]
  | case2 a b rest hop ih => exact .keep _ ih
  | case3 items hshort => exact .refl _

theorem welds_joinInverted : Welds joinInverted := by
  intro a b op h
  unfold joinInverted at h
  split at h
  · next s hnot hs =>
    split at h <;> cases h
    exact ⟨_, _, symbol?_eq_some hnot, symbol?_eq_some hs, rfl, rfl, rfl, rfl⟩
  · cases h

theorem welds_joinBroadcast : Welds joinBroadcast := by
  intro a b op h
  unfold joinBroadcast at h
  split at h
  · next hdot =>
    have ha := symbol?_eq_some hdot.1
    split at h
    · next s hb =>
      split at h <;> cases h
      exact ⟨_, _, ha, hb, rfl, rfl, rfl, rfl⟩
    · next head tail hb =>
      cases h
      exact ⟨_, _, ha, hb, rfl, rfl, rfl, rfl⟩
    · cases h
  · cases h

theorem isJoint_of_isCombinable {op : Op} (h : isCombinable op = true) : op.isJoint = false := by
  cases op with
  | juxtapose | bond => cases h
  | _ => rfl

theorem welds_joinAssignment : Welds joinAssignment := by
  intro a b op h
  unfold joinAssignment at h
  split at h
  · next hassign =>
    obtain ⟨p, hp, rfl⟩ := Option.map_eq_some_iff.mp h
    obtain ⟨ha, hcombinable⟩ := Option.filter_eq_some_iff.mp hp
    exact ⟨_, _, ha, symbol?_eq_some hassign.1, isJoint_of_isCombinable hcombinable, rfl, rfl, rfl⟩
  · cases h

theorem isJoint_of_isBefore {op : Op} (h : op.isBefore = true) : op.isJoint = false := by
  cases op with
  | juxtapose m =>
    simp only [Op.isBefore, Op.levels, List.any_map, List.any_eq_true] at h
    obtain ⟨r, -, h⟩ := h
    cases h
  | bond b => cases b <;> cases h
  | _ => rfl

/-- The operators in front of an operand are items in front of the others. -/
theorem exists_of_leadingOps (items : List Tree) : ∃ (os : List Operator) (back : List Tree),
    items = os.map ofOperator ++ back ∧ os.map Operator.op = leadingOps items ∧
      ∀ o ∈ os, o.op.isJoint = false := by
  induction items with
  | nil => exact ⟨[], [], rfl, rfl, by simp⟩
  | cons item rest ih =>
    unfold leadingOps
    split
    · next op hop =>
      obtain ⟨os, back, hitems, hops, hos⟩ := ih
      obtain ⟨hitem, hbefore⟩ := Option.filter_eq_some_iff.mp hop
      refine ⟨⟨op, item.span⟩ :: os, back, ?_, by rw [List.map_cons, hops],
        List.forall_mem_cons.mpr ⟨isJoint_of_isBefore hbefore, hos⟩⟩
      rw [List.map_cons, List.cons_append, ← hitems, ← eq_of_operator? hitem]
    · exact ⟨[], item :: rest, rfl, rfl, by simp⟩

theorem symbol?_of_chainHead? {previous : Option Tree} {s : Symbol}
    (h : chainHead? previous item = some s) : item.symbol? = some s := by
  unfold chainHead? at h
  split at h
  · exact (Option.filter_eq_some_iff.mp h).1
  · cases h

/-- The items that are skipped have gone into the chain in front of them. -/
theorem reworks_chainFrom (previous : Option Tree) (skip : Nat) (items : List Tree) :
    Reworks (items.drop skip) (chainFrom previous skip items) := by
  induction items generalizing previous skip with
  | nil =>
    rw [List.drop_nil]
    exact .nil
  | cons item rest ih =>
    unfold chainFrom
    cases skip with
    | succ n => exact ih _ _
    | zero =>
      rw [List.drop_zero]
      dsimp only
      split
      · next head first others hhead hops =>
        obtain ⟨os, back, rfl, hos, hjoint⟩ := exists_of_leadingOps rest
        have hlength : (first :: others).length = (os.map ofOperator).length := by
          rw [← hops, ← hos, List.length_map, List.length_map]
        have hback (previous : Option Tree) : Reworks back
            (chainFrom previous (first :: others).length (os.map ofOperator ++ back)) := by
          have hskip := ih previous (first :: others).length
          rwa [hlength, List.drop_left, ← hlength] at hskip
        obtain ⟨span, rfl⟩ : ∃ span, item = ofOperator ⟨.symbol head, span⟩ :=
          ⟨_, eq_of_operator? (symbol?_eq_some (symbol?_of_chainHead? hhead))⟩
        refine @Reworks.fuse ⟨.symbol head, span⟩ os _ _ _ _
          (List.forall_mem_cons.mpr ⟨rfl, hjoint⟩) rfl ?_ (hback _)
        rw [Op.signs, ← hops, ← hos]
        simp [List.flatMap_map, Op.signs]
      · exact .keep _ (ih _ 0)

/-- **Elses are closed, and compound operators put in the place of their parts**: what every rework
keeps is kept. -/
theorem compoundOperators_induct {P : List Tree → Prop}
    (hstep : ∀ {xs ys : List Tree}, Reworks xs ys → P xs → P ys) (h : P items) :
    P (compoundOperators (closeElses items)) := by
  have hclosed := hstep (reworks_closeElses items) h
  have hinverted := hstep (welds_joinInverted.reworks_fusePairs _) hclosed
  have hchained := hstep (reworks_chainFrom none 0 _) hinverted
  have hbroadcast := hstep (welds_joinBroadcast.reworks_fusePairs _) hchained
  exact hstep (welds_joinAssignment.reworks_fusePairs _) hbroadcast

end Tree

end DewyFront
