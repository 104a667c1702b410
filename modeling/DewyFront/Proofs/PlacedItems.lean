/-
# DewyFront.Proofs.PlacedItems — settling keeps items in order

Every step of settling leaves the items of a level in order. Markers and bounds are put at the end of an
item that is there, an item may give way to another at the same place, and a compound operator covers its
parts. What is refused is refused for an item. So settled items are in order at every level, between the
ends of what they are inside of, and all of them stand on places that the items stood on.

* §1 items in order at every level;
* §2 juxtapositions;
* §3 compound operators;
* §4 levels;
* §5 items made of lexemes.
-/
import DewyFront.Proofs.Admission
import DewyFront.Proofs.Covering
import DewyFront.Proofs.Places
import DewyFront.Tree.Settled
import Mathlib.Data.List.Induction

namespace DewyFront

variable {p : Nat → Prop} {lo hi : Nat}

namespace Tree

/-! ## §1 Items -/

mutual
/-- **`Placed`** — an item on some places, and what is inside of it in order between its ends. -/
def Placed (p : Nat → Prop) : Tree → Prop
  | .leaf _ span => span.On p
  | .block _ _ inner span =>
    span.On p ∧ Span.Ascends p span.start span.stop (inner.map Tree.span) ∧ PlacedAll p inner
  | .istring pieces span => span.On p ∧ PlacedPieces p span pieces
/-- The same of some items. -/
def PlacedAll (p : Nat → Prop) : List Tree → Prop
  | [] => True
  | item :: rest => Placed p item ∧ PlacedAll p rest
/-- The same of what is inside of the pieces of a string that stands at `span`. -/
def PlacedPieces (p : Nat → Prop) (span : Span) : List Piece → Prop
  | [] => True
  | .text _ :: rest => PlacedPieces p span rest
  | .block _ _ inner :: rest | .escape _ _ inner :: rest =>
    (Span.Ascends p span.start span.stop (inner.map Tree.span) ∧ PlacedAll p inner) ∧
      PlacedPieces p span rest
end

/-- **`Level`** — items in order, with all that is inside. -/
abbrev Level (p : Nat → Prop) (lo hi : Nat) (items : List Tree) : Prop :=
  InOrder p Tree.span (Placed p) lo hi items

variable {item : Tree} {items rest : List Tree}

theorem placedAll_iff : PlacedAll p items ↔ ∀ item ∈ items, item.Placed p := by
  induction items with
  | nil => simp [PlacedAll]
  | cons item rest ih => rw [PlacedAll, ih, List.forall_mem_cons]

theorem level_iff : Level p lo hi items ↔
    Span.Ascends p lo hi (items.map Tree.span) ∧ PlacedAll p items := by
  rw [placedAll_iff]
  exact ⟨fun h => ⟨h.ascends, h.all⟩, fun h => ⟨h.1, h.2⟩⟩

theorem Placed.on (h : item.Placed p) : item.span.On p := by
  cases item with
  | leaf l span => rwa [Placed] at h
  | block kind base inner span => rw [Placed] at h; exact h.1
  | istring pieces span => rw [Placed] at h; exact h.1

theorem placed_leaf {l : Leaf} {span : Span} (h : span.On p) : (leaf l span).Placed p := by
  rwa [Placed]

/-- A level begins with an item and goes on behind it. -/
theorem level_cons : Level p lo hi (item :: rest) ↔
    lo ≤ item.span.start ∧ item.Placed p ∧ Level p item.span.stop hi rest :=
  InOrder.cons_iff.trans ⟨fun h => ⟨h.1, h.2.2⟩, fun h => ⟨h.1, h.2.1.on, h.2⟩⟩

/-- An item at the same place may stand instead. -/
theorem Level.cons_of_span_eq {item' : Tree} {rest' : List Tree}
    (h : Level p lo hi (item :: rest)) (hspan : item'.span = item.span) (hitem : item'.Placed p)
    (hrest : Level p item.span.stop hi rest') : Level p lo hi (item' :: rest') := by
  rw [level_cons, hspan]
  exact ⟨(level_cons.mp h).1, hitem, hrest⟩

/-- An item may be left out. -/
theorem Level.of_cons (h : Level p lo hi (item :: rest)) : Level p lo hi rest := by
  obtain ⟨hle, hitem, hrest⟩ := level_cons.mp h
  exact hrest.mono (hle.trans hitem.on.le) le_rfl

/-! ## §2 Juxtapositions -/

theorem level_insertFrom (joinable : Bool) (h : Level p lo hi items) :
    Level p lo hi (insertFrom joinable items) := by
  induction items generalizing joinable lo with
  | nil => exact h
  | cons item rest ih =>
    obtain ⟨hle, hitem, hrest⟩ := level_cons.mp h
    unfold insertFrom
    split
    · exact ih false h.of_cons
    · split
      · exact level_cons.mpr ⟨hle, placed_leaf (Span.on_point hitem.on.start),
          level_cons.mpr ⟨le_rfl, hitem, ih true hrest⟩⟩
      · exact level_cons.mpr ⟨hle, hitem, ih _ hrest⟩

theorem level_classifyFrom (before left : Option Tree) (h : Level p lo hi items) :
    EndsOn p (Level p lo hi) (classifyFrom before left items) := by
  induction items generalizing before left lo with
  | nil => exact h
  | cons item rest ih =>
    obtain ⟨-, hitem, hrest⟩ := level_cons.mp h
    unfold classifyFrom
    split
    · split
      · exact (ih _ _ hrest).bind fun _ hmore => h.cons_of_span_eq rfl (placed_leaf hitem.on) hmore
      · trivial
    · exact (ih _ _ hrest).bind fun _ hmore => h.cons_of_span_eq rfl hitem hmore

/-- Ellipses and backticks are refused where they stand. -/
theorem level_resolveFrom (left : Option Tree) (h : Level p lo hi items) :
    EndsOn p (Level p lo hi) (resolveFrom left items) := by
  induction items generalizing left lo with
  | nil => exact h
  | cons item rest ih =>
    obtain ⟨-, hitem, hrest⟩ := level_cons.mp h
    unfold resolveFrom
    split
    · exact ParseError.on_of_spans_eq rfl hitem.on
    · split
      · split
        · exact (ih _ hrest).bind fun _ hmore => h.cons_of_span_eq rfl (placed_leaf hitem.on) hmore
        · exact (ih _ hrest).bind fun _ hmore => h.cons_of_span_eq rfl (placed_leaf hitem.on) hmore
        · exact ParseError.on_of_spans_eq rfl hitem.on
      · split
        · exact ih _ h.of_cons
        · exact (ih _ hrest).bind fun _ hmore => h.cons_of_span_eq rfl hitem hmore

/-- Bounds are put where a range mark begins and where it ends. -/
theorem level_boundFrom (left : Option Tree) (h : Level p lo hi items) :
    Level p lo hi (boundFrom left items) := by
  induction items generalizing left lo with
  | nil => exact h
  | cons item rest ih =>
    obtain ⟨hle, hitem, hrest⟩ := level_cons.mp h
    have hmore := ih (some item) hrest
    unfold boundFrom
    dsimp only
    split
    · have hstart := Span.on_point hitem.on.start
      have hstop := hitem.on.endPoint
      -- The list from the range mark on begins where the mark does, so a bound fits in front of it.
      have hbehind : Level p item.span.start hi (item ::
          if isMarker .range rest.head? then boundFrom (some item) rest
          else markerAt .range item.span.endPoint :: undefinedAt item.span.endPoint ::
            boundFrom (some item) rest) := by
        refine level_cons.mpr ⟨le_rfl, hitem, ?_⟩
        split
        · exact hmore
        · exact level_cons.mpr ⟨le_rfl, placed_leaf hstop,
            level_cons.mpr ⟨le_rfl, placed_leaf hstop, hmore⟩⟩
      split
      · exact hbehind.mono hle le_rfl
      · exact level_cons.mpr ⟨hle, placed_leaf hstart,
          level_cons.mpr ⟨le_rfl, placed_leaf hstart, hbehind⟩⟩
    · exact level_cons.mpr ⟨hle, hitem, hmore⟩

theorem level_operatorsFrom (left : Option Tree) (h : Level p lo hi items) :
    EndsOn p (Level p lo hi) (operatorsFrom left items) := by
  induction items generalizing left lo with
  | nil => exact h
  | cons item rest ih =>
    obtain ⟨-, hitem, hrest⟩ := level_cons.mp h
    unfold operatorsFrom
    split
    · next m _ =>
      have hop : EndsOn p (fun _ => True) (markerOp m left rest.head?) := by
        unfold markerOp
        split <;> trivial
      exact hop.bind fun _ _ => (ih _ hrest).bind fun _ hmore =>
        h.cons_of_span_eq rfl (placed_leaf hitem.on) hmore
    · exact (ih _ hrest).bind fun _ hmore => h.cons_of_span_eq rfl hitem hmore

/-! ## §3 Compound operators -/

/-- Items in order, the first of which is to be one with a later one: the compound covers both. -/
theorem Level.fuse {n : Nat} {last : Tree} {rest' : List Tree} (op : Op)
    (h : Level p lo hi (item :: rest)) (hlast : rest[n]? = some last)
    (hrest : Level p last.span.stop hi (rest.drop (n + 1)) → Level p last.span.stop hi rest') :
    Level p lo hi (fuse op item last :: rest') := by
  obtain ⟨hle, hitem, hlevel⟩ := level_cons.mp h
  obtain ⟨hstop, hon, -, hmore⟩ := hlevel.of_getElem? hlast
  have hspan : item.span.merge last.span = ⟨item.span.start, last.span.stop⟩ :=
    Span.merge_eq (hitem.on.le.trans hstop) (hstop.trans hon.le)
  rw [Tree.fuse, level_cons, Tree.span, hspan]
  refine ⟨hle, placed_leaf ?_, hrest hmore⟩
  exact ⟨hitem.on.start, hon.stop, hitem.on.le.trans (hstop.trans hon.le)⟩

theorem level_fusePairs (join : Tree → Tree → Option Op) (h : Level p lo hi items) :
    Level p lo hi (fusePairs join items) := by
  induction items using List.twoStepInduction generalizing lo with
  | nil => exact h
  | singleton a => exact h
  | cons_cons a b rest ih ihb =>
    unfold fusePairs
    split
    · exact h.fuse (n := 0) _ rfl ih
    · obtain ⟨hle, ha, hrest⟩ := level_cons.mp h
      exact level_cons.mpr ⟨hle, ha, ihb b hrest⟩

theorem length_leadingOps_le (items : List Tree) : (leadingOps items).length ≤ items.length := by
  induction items with
  | nil => rfl
  | cons item rest ih =>
    unfold leadingOps
    split
    · exact Nat.succ_le_succ ih
    · exact Nat.zero_le _

/-- A chain covers its operators; those that are skipped have gone into it. -/
theorem level_chainFrom (previous : Option Tree) (skip : Nat) (h : Level p lo hi (items.drop skip)) :
    Level p lo hi (chainFrom previous skip items) := by
  induction items generalizing previous skip lo with
  | nil => rwa [List.drop_nil] at h
  | cons item rest ih =>
    unfold chainFrom
    cases skip with
    | succ n => exact ih previous n h
    | zero =>
      rw [List.drop_zero] at h
      dsimp only
      split
      · next head first others _ hops =>
        have hlength := length_leadingOps_le rest
        rw [hops, List.length_cons] at hlength
        have hlast : rest[others.length]? = some rest[others.length] := List.getElem?_eq_getElem hlength
        rw [hlast, Option.getD_some]
        exact h.fuse _ hlast fun hrest => ih _ _ hrest
      · obtain ⟨hle, hitem, hrest⟩ := level_cons.mp h
        exact level_cons.mpr ⟨hle, hitem, ih _ 0 hrest⟩

/-! ## §4 Levels -/

theorem level_closeElses (h : Level p lo hi items) : Level p lo hi (closeElses items) := by
  induction items generalizing lo with
  | nil => exact h
  | cons item rest ih =>
    obtain ⟨-, hitem, hrest⟩ := level_cons.mp h
    unfold closeElses
    dsimp only
    split
    · exact h.cons_of_span_eq rfl (placed_leaf hitem.on) (ih hrest)
    · exact h.cons_of_span_eq rfl hitem (ih hrest)

theorem level_compoundOperators (h : Level p lo hi items) :
    Level p lo hi (compoundOperators items) :=
  level_fusePairs _ (level_fusePairs _ (level_chainFrom none 0 (level_fusePairs _ h)))

/-- **Settling a level keeps its items in order**, or is refused for one of them. -/
theorem level_settleLevel (h : Level p lo hi items) : EndsOn p (Level p lo hi) (settleLevel items) := by
  refine (level_classifyFrom none none (level_insertFrom false h)).bind fun classified hclassified => ?_
  refine (level_resolveFrom none hclassified).bind fun resolved hresolved => ?_
  refine (level_operatorsFrom none (level_boundFrom none hresolved)).bind fun operators hoperators => ?_
  exact level_compoundOperators (level_closeElses hoperators)

mutual
/-- What is inside of an item is settled where it stands. -/
theorem placed_settleInside : ∀ {item : Tree}, item.Placed p →
    EndsOn p (fun settled => settled.Placed p ∧ settled.span = item.span) (settleInside item)
  | .leaf l span, h => by
    rw [settleInside]
    exact ⟨h, rfl⟩
  | .block kind base inner span, h => by
    rw [Placed] at h
    rw [settleInside]
    refine (placed_settleInsideAll h.2.2).bind fun settled ⟨hsettled, hspans⟩ => ?_
    have hlevel : Level p span.start span.stop settled :=
      level_iff.mpr ⟨by rw [hspans]; exact h.2.1, hsettled⟩
    refine (level_settleLevel hlevel).bind fun level hlevel => ?_
    refine ⟨?_, rfl⟩
    rw [Placed]
    exact ⟨h.1, level_iff.mp hlevel⟩
  | .istring pieces span, h => by
    rw [Placed] at h
    rw [settleInside]
    refine (placed_settlePieces h.2).bind fun settled hsettled => ?_
    refine ⟨?_, rfl⟩
    rw [Placed]
    exact ⟨h.1, hsettled⟩
theorem placed_settleInsideAll : ∀ {items : List Tree}, PlacedAll p items →
    EndsOn p (fun settled => PlacedAll p settled ∧ settled.map Tree.span = items.map Tree.span)
      (settleInsideAll items)
  | [], h => by
    rw [settleInsideAll]
    exact ⟨h, rfl⟩
  | item :: rest, h => by
    rw [PlacedAll] at h
    rw [settleInsideAll]
    refine (placed_settleInside h.1).bind fun settled ⟨hsettled, hspan⟩ => ?_
    refine (placed_settleInsideAll h.2).bind fun more ⟨hmore, hspans⟩ => ?_
    refine ⟨?_, by rw [List.map_cons, List.map_cons, hspan, hspans]⟩
    rw [PlacedAll]
    exact ⟨hsettled, hmore⟩
theorem placed_settlePieces {span : Span} : ∀ {pieces : List Piece}, PlacedPieces p span pieces →
    EndsOn p (PlacedPieces p span) (settlePieces pieces)
  | [], h => by
    rw [settlePieces]
    exact h
  | .text t :: rest, h => by
    rw [PlacedPieces] at h
    rw [settlePieces]
    refine (placed_settlePieces h).bind fun more hmore => ?_
    show PlacedPieces p span (.text t :: more)
    rw [PlacedPieces]
    exact hmore
  | .block kind base inner :: rest, h | .escape kind base inner :: rest, h => by
    rw [PlacedPieces] at h
    rw [settlePieces]
    refine (placed_settleInsideAll h.1.2).bind fun settled ⟨hsettled, hspans⟩ => ?_
    have hlevel : Level p span.start span.stop settled :=
      level_iff.mpr ⟨by rw [hspans]; exact h.1.1, hsettled⟩
    refine (level_settleLevel hlevel).bind fun level hlevel => ?_
    refine (placed_settlePieces h.2).bind fun more hmore => ?_
    show PlacedPieces p span (_ :: more)
    rw [PlacedPieces]
    exact ⟨level_iff.mp hlevel, hmore⟩
end

/-- **Settled items are in order at every level.** -/
theorem level_settle (h : Level p lo hi items) : EndsOn p (Level p lo hi) (settle items) := by
  obtain ⟨hascends, hall⟩ := level_iff.mp h
  refine (placed_settleInsideAll hall).bind fun settled ⟨hsettled, hspans⟩ => ?_
  exact level_settleLevel (level_iff.mpr ⟨by rw [hspans]; exact hascends, hsettled⟩)

end Tree

/-! ## §5 Lexemes -/

namespace Span

variable {spans : List Span}

/-- Where spans side by side come to an end is a place if each of them ends at one. -/
theorem Tiles.stop_on (h : Tiles lo hi spans) (hlo : p lo) (hspans : ∀ s ∈ spans, p s.stop) : p hi := by
  induction spans generalizing lo with
  | nil => exact h ▸ hlo
  | cons s spans ih =>
    exact ih h.2.2 (hspans s (List.mem_cons_self ..)) fun t ht => hspans t (List.mem_cons_of_mem s ht)

/-- Each of several spans side by side ends where the next one begins, or where all of them end. -/
theorem Tiles.on (h : Tiles lo hi spans) (hhi : p hi) (hspans : ∀ s ∈ spans, p s.start) :
    ∀ s ∈ spans, s.On p := by
  induction spans generalizing lo with
  | nil => exact fun s hs => nomatch hs
  | cons s spans ih =>
    obtain ⟨rfl, hlt, hrest⟩ := h
    obtain ⟨hs, hspans⟩ := List.forall_mem_cons.mp hspans
    refine List.forall_mem_cons.mpr ⟨⟨hs, ?_, hlt.le⟩, ih hrest hspans⟩
    cases spans with
    | nil => exact (show s.stop = hi from hrest) ▸ hhi
    | cons t spans => exact hrest.1 ▸ hspans t (List.mem_cons_self ..)

end Span

namespace Tree

/-- Lexemes that stand on the places, inside of a span. -/
abbrev OnIn (p : Nat → Prop) (span : Span) (ls : List Lexeme) : Prop :=
  ∀ l ∈ ls, l.span.On p ∧ span.Covers l.span

mutual
/-- **An item that is made of lexemes is in order inside**, if the lexemes stand on the places. -/
theorem placed_of_liesOn : ∀ {tree : Tree} {ls : List Lexeme}, tree.LiesOn ls → tree.span.On p →
    OnIn p tree.span ls → tree.Placed p
  | _, _, .leaf _, hon, _ => placed_leaf hon
  | _, _, @LiesOn.block opener closer _ _ _ _ _ htiles hinner, hon, hls => by
    obtain ⟨hopener, hrest⟩ := List.forall_mem_cons.mp hls
    obtain ⟨hinside, hcloser⟩ := List.forall_mem_append.mp hrest
    have hlevel := level_of_treesLieOn hinner hopener.1.stop htiles fun l hl => (hinside l hl).1
    have hclosing := (hcloser closer (List.mem_singleton_self _))
    rw [Placed]
    exact ⟨hon, level_iff.mp (hlevel.mono (hopener.2.start.trans hopener.1.le)
      (hclosing.1.le.trans hclosing.2.stop))⟩
  | _, _, .istring _ hpieces, hon, hls => by
    obtain ⟨-, hrest⟩ := List.forall_mem_cons.mp hls
    rw [Placed]
    exact ⟨hon, placed_of_piecesLieOn hpieces (List.forall_mem_append.mp hrest).1⟩
/-- **Items that are made of lexemes are in order.** -/
theorem level_of_treesLieOn {lo hi : Nat} : ∀ {trees : List Tree} {ls : List Lexeme},
    TreesLieOn trees ls → p lo → Span.Tiles lo hi (trees.map Tree.span) → (∀ l ∈ ls, l.span.On p) →
      Level p lo hi trees
  | _, _, .nil, _, htiles, _ => .nil (le_of_eq htiles)
  | _, _, @TreesLieOn.cons tree _ front _ hspan htree hrest, hlo, htiles, hls => by
    obtain ⟨hstart, hlt, htiles⟩ := htiles
    obtain ⟨hfront, hback⟩ := List.forall_mem_append.mp hls
    rw [← hstart] at hlo
    have hstops : ∀ s ∈ front.map (·.span), p s.stop :=
      List.forall_mem_map.mpr fun l hl => (hfront l hl).stop
    -- An item has no other ends than those of its lexemes, which lie side by side.
    have hstop : p tree.span.stop := hspan.stop_on hlo hstops
    refine level_cons.mpr ⟨hstart.ge, ?_, level_of_treesLieOn hrest hstop htiles hback⟩
    refine placed_of_liesOn htree ⟨hlo, hstop, by omega⟩ fun l hl => ⟨hfront l hl, ?_⟩
    exact ((hspan.ascends hlo hstops).of_mem (List.mem_map_of_mem hl)).2
/-- The same of the holes of a string. -/
theorem placed_of_piecesLieOn {span : Span} : ∀ {pieces : List Piece} {ls : List Lexeme},
    PiecesLieOn pieces ls → OnIn p span ls → PlacedPieces p span pieces
  | _, _, .nil, _ => by
    rw [PlacedPieces]
    trivial
  | _, _, .plain _ hrest, hls =>
    placed_of_piecesLieOn hrest fun l hl => hls l (List.mem_cons_of_mem _ hl)
  | _, _, .text hrest, hls => by
    rw [PlacedPieces]
    exact placed_of_piecesLieOn hrest hls
  | _, _, @PiecesLieOn.hole opener closer _ _ kind base trees pieces _ htiles hinner hrest, hls => by
    obtain ⟨hopener, hls⟩ := List.forall_mem_cons.mp hls
    obtain ⟨hinside, hls⟩ := List.forall_mem_append.mp hls
    obtain ⟨hcloser, hbehind⟩ := List.forall_mem_cons.mp hls
    have hlevel := level_of_treesLieOn hinner hopener.1.stop htiles fun l hl => (hinside l hl).1
    have hhole := level_iff.mp (hlevel.mono (hopener.2.start.trans hopener.1.le)
      (hcloser.1.le.trans hcloser.2.stop))
    have hmore := placed_of_piecesLieOn hrest hbehind
    split <;> rw [PlacedPieces] <;> exact ⟨hhole, hmore⟩
end

end Tree

/-- **`IsBoundary`** — an offset of a text at which no character is cut. -/
def IsBoundary (source : Text) (offset : Nat) : Prop :=
  ∃ front back, source = front ++ back ∧ width front = offset

/-- **Tokens begin and end between characters.** -/
theorem Scan.on_of_tokenize {config : LexerConfig} {source : Text} {out : Tokenized}
    (h : tokenize config source = .ok out) :
    ∀ l ∈ out.tokens.lexemes source, l.span.On (IsBoundary source) := by
  obtain ⟨htiles, hlongest⟩ := tiles_of_tokenize h
  have hstart : ∀ s ∈ out.tokens.toList.map (·.span), IsBoundary source s.start := by
    refine List.forall_mem_map.mpr fun t ht => ?_
    obtain ⟨earlier, later, htokens⟩ := List.append_of_mem ht
    obtain ⟨rest, hrest⟩ := hlongest earlier t later htokens
    obtain ⟨front, hfront, hwidth⟩ := hrest.stands
    exact ⟨front, rest, hfront, hwidth⟩
  have hon := htiles.on ⟨source, [], by simp, rfl⟩ hstart
  intro l hl
  have hmem : l.token ∈ out.tokens.toList := by
    rw [← TokenList.map_token_lexemes _ source]
    exact List.mem_map_of_mem hl
  exact hon l.span (List.mem_map_of_mem (f := (·.span)) hmem)

/-- **The items of a source are in order at every level**, and begin and end between characters. -/
theorem Lexed.level {lexer : LexerConfig} {s : Source} {l : Lexed} (h : s.lex lexer = .ok l) :
    Tree.Level (IsBoundary s.text) 0 s.size l.trees := by
  obtain ⟨-, out, trees, hout, htrees, rfl⟩ := Source.lex_ok_iff.mp h
  rcases TokenList.trees_cover lexer s.text out hout with ⟨found, hfound, htiles, hlie⟩ | ⟨_, hfound, -⟩
  · rw [htrees] at hfound
    cases hfound
    exact Tree.level_of_treesLieOn hlie ⟨[], s.text, rfl, rfl⟩ htiles (Scan.on_of_tokenize hout)
  · rw [htrees] at hfound
    cases hfound

end DewyFront
