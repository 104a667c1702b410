/-
# DewyFront.Proofs.Settling — juxtapositions stand in front of operands

Lexing knows spelled operators only. Settling puts a juxtaposition in front of an item that what
stands before it touches, and leaves it there: none of the later steps takes the item away, and none
of the compound operators that they make holds a contested juxtaposition.

* §1 what stands behind a juxtaposition;
* §2 settled items;
* §3 lexing;
* §4 markers;
* §5 backticks and ranges;
* §6 operators for markers;
* §7 compound operators;
* §8 settling.
-/
import DewyFront.Proofs.Levels
import DewyFront.Proofs.Pulls
import DewyFront.Tree.OfTokens
import DewyFront.Tree.Settled

namespace DewyFront

namespace Tree

/-! ## §1 Juxtapositions -/

/-- **`IsOperand`** — an item that is an operand by itself. -/
def IsOperand : Tree → Prop
  | leaf (.atom .semicolon) _ => False
  | leaf (.atom _) _ | block .. | istring .. => True
  | leaf _ _ => False

/-- **`joins`** — whether an item is a plain juxtaposition, as a marker or as an operator that is still
contested. -/
def joins : Tree → Bool
  | leaf (.marker m) _ => m == .plain
  | leaf (.operator op) _ => op.isContested
  | _ => false

variable {p : Tree → Prop} {item : Tree} {items rest : List Tree}

theorem isBacktick_of_isOperand (h : item.IsOperand) : item.isBacktick = false := by
  cases item with
  | leaf l s => cases l <;> first | rfl | cases h
  | block | istring => rfl

theorem keyword?_of_isOperand (h : item.IsOperand) : item.keyword? = none := by
  cases item with
  | leaf l s => cases l <;> first | rfl | cases h
  | block | istring => rfl

theorem operator?_of_isOperand (h : item.IsOperand) : item.operator? = none := by
  cases item with
  | leaf l s => cases l <;> first | rfl | cases h
  | block | istring => rfl

theorem marker?_of_isOperand (h : item.IsOperand) : item.marker? = none := by
  cases item with
  | leaf l s => cases l <;> first | rfl | cases h
  | block | istring => rfl

theorem isOperand_of_isJuxtaposable (h : item.isJuxtaposable = true)
    (hb : item.isBacktick = false) : item.IsOperand := by
  cases item with
  | block | istring => trivial
  | leaf l s =>
    cases l with
    | atom a => cases a <;> trivial
    | backtick => cases hb
    | _ => cases h

theorem symbol?_eq_some {s : Symbol} (h : item.symbol? = some s) :
    item.operator? = some (.symbol s) := by
  cases item with
  | leaf l sp =>
    cases l with
    | operator op =>
      cases op with
      | symbol t =>
        cases h
        rfl
      | _ => cases h
    | _ => cases h
  | _ => cases h

theorem joins_of_marker? (h : item.marker? = some .plain) : item.joins = true := by
  cases item with
  | leaf l s =>
    cases l <;> cases h
    rfl
  | _ => cases h

/-! ## §2 Settled items -/

/-- **`IsBare`** — an item that is an operator applies no contested juxtaposition element by element. -/
def IsBare : Tree → Prop
  | leaf (.operator op) _ => op.IsBare
  | _ => True

/-- Items begin with one that satisfies `p`. -/
def Begins (p : Tree → Prop) (items : List Tree) : Prop := ∃ next more, items = next :: more ∧ p next

/-- **`Settles`** — operators are bare, and behind every plain juxtaposition stands an item that satisfies
`p`. -/
def Settles (p : Tree → Prop) : List Tree → Prop
  | [] => True
  | item :: rest => item.IsBare ∧ (item.joins = true → Begins p rest) ∧ Settles p rest

mutual
/-- **`IsLexed`** — the only operators are symbols, and there are no markers. -/
def IsLexed : Tree → Prop
  | .leaf (.operator op) _ => ∃ s, op = .symbol s
  | .leaf (.marker _) _ => False
  | .leaf _ _ => True
  | .block _ _ inner _ => AllLexed inner
  | .istring pieces _ => PiecesLexed pieces
/-- Every item is as lexing makes it. -/
def AllLexed : List Tree → Prop
  | [] => True
  | item :: rest => IsLexed item ∧ AllLexed rest
/-- Inside of every piece items are as lexing makes them. -/
def PiecesLexed : List Piece → Prop
  | [] => True
  | .text _ :: rest => PiecesLexed rest
  | .block _ _ inner :: rest | .escape _ _ inner :: rest => AllLexed inner ∧ PiecesLexed rest
end

/-- **`IsFresh`** — an item that is no marker, and no operator but a symbol. -/
def IsFresh : Tree → Prop
  | leaf (.operator op) _ => ∃ s, op = .symbol s
  | leaf (.marker _) _ => False
  | _ => True

theorem IsFresh.isBare (h : item.IsFresh) : item.IsBare := by
  cases item with
  | leaf l s =>
    cases l with
    | operator op =>
      obtain ⟨s, rfl⟩ := h
      exact Op.isBare_of_holdsContested_eq_false rfl
    | _ => trivial
  | _ => trivial

theorem IsFresh.joins_eq_false (h : item.IsFresh) : item.joins = false := by
  cases item with
  | leaf l s =>
    cases l with
    | operator op =>
      obtain ⟨s, rfl⟩ := h
      rfl
    | marker m => exact h.elim
    | _ => rfl
  | _ => rfl

theorem settles_nil : Settles p [] := trivial

theorem Settles.cons (hitem : item.IsBare) (hnext : item.joins = true → Begins p rest)
    (h : Settles p rest) : Settles p (item :: rest) := ⟨hitem, hnext, h⟩

theorem Settles.cons_of_joins (hitem : item.IsBare) (hj : item.joins = false)
    (h : Settles p rest) : Settles p (item :: rest) :=
  h.cons hitem fun hjoins => by rw [hj] at hjoins; cases hjoins

/-! ## §3 Lexing -/

theorem isLexed_ofWord (l : Lexeme) : IsLexed (ofWord l) := by
  unfold ofWord
  split
  · next symbol _ => exact ⟨symbol, rfl⟩
  · trivial
  · trivial

theorem isLexed_ofMarks {l : Lexeme} (h : ofMarks l = .ok item) : IsLexed item := by
  unfold ofMarks at h
  split at h
  · next found hfound =>
    cases h
    unfold markLeaf? at hfound
    repeat' split at hfound
    all_goals try (cases hfound; trivial)
    obtain ⟨s, -, rfl⟩ := Option.map_eq_some_iff.mp hfound
    exact ⟨s, rfl⟩
  · cases h

theorem isLexed_number (base : Radix) (previous : Option Lexeme) (l : Lexeme)
    (rest : List Lexeme) : IsLexed (number base previous l rest).1 := by
  simp only [number]
  trivial

theorem piecesLexed_textPiece (t : Text) : PiecesLexed (textPiece t) := by
  unfold textPiece
  split <;> trivial

theorem PiecesLexed.append {front back : List Piece} (hf : PiecesLexed front)
    (hb : PiecesLexed back) : PiecesLexed (front ++ back) := by
  induction front with
  | nil => exact hb
  | cons piece front ih =>
    cases piece with
    | text t => exact ih hf
    | block | escape => exact ⟨hf.1, ih hf.2⟩

theorem piecesLexed_joinTexts {pieces : List Piece} (h : PiecesLexed pieces) :
    PiecesLexed (joinTexts pieces).2 := by
  induction pieces with
  | nil => trivial
  | cons piece pieces ih =>
    cases piece with
    | text t => exact ih h
    | block kind base inner =>
      exact ⟨h.1, (piecesLexed_textPiece _).append (ih h.2)⟩
    | escape kind base inner =>
      exact ⟨h.1, (piecesLexed_textPiece _).append (ih h.2)⟩

theorem isLexed_ofPieces {pieces : List Piece} (span : Span) (h : PiecesLexed pieces) :
    IsLexed (ofPieces pieces span) := by
  unfold ofPieces
  split
  · trivial
  · next lead holes _ heq =>
    have := piecesLexed_joinTexts h
    rw [heq] at this
    exact (piecesLexed_textPiece lead).append this

/-- **`Itemises`** — what an item was made of: the lexemes of an atom, or at most `bound` lexemes inside
of a block or a string. -/
inductive Itemises (bound : Nat) : Tree → Prop
  | lexed {item : Tree} (h : item.IsLexed) : Itemises bound item
  | block {kind : Delimiters} {own : Option Radix} {base : Radix} {previous : Option Lexeme}
      {ls : List Lexeme} {inner : List Tree} {span : Span} (hlen : ls.length ≤ bound)
      (h : ofLexemes base previous ls = .ok inner) : Itemises bound (.block kind own inner span)
  | string {ls : List Lexeme} {pieces : List Piece} {span : Span} (hlen : ls.length ≤ bound)
      (h : piecesOf ls = .ok pieces) : Itemises bound (ofPieces pieces span)

theorem ofLexemes_cons_ok {base : Radix} {previous : Option Lexeme} {l : Lexeme}
    {ls : List Lexeme} (h : ofLexemes base previous (l :: ls) = .ok items) :
    ∃ item more previous' ls', items = item :: more ∧ Itemises ls.length item ∧
      ls'.length ≤ ls.length ∧ ofLexemes base previous' ls' = .ok more := by
  -- One case for each kind of lexeme, in the order of the definition.
  unfold ofLexemes at h
  split at h
  case h_1 | h_2 | h_3 | h_7 =>
    obtain ⟨more, hmore, h⟩ := bind_ok_iff.mp h
    cases h
    exact ⟨_, _, _, _, rfl, .lexed trivial, Nat.le_refl _, hmore⟩
  case h_4 =>
    obtain ⟨more, hmore, h⟩ := bind_ok_iff.mp h
    cases h
    exact ⟨_, _, _, _, rfl, .lexed (isLexed_ofWord l), Nat.le_refl _, hmore⟩
  case h_5 | h_6 =>
    obtain ⟨item, hitem, h⟩ := bind_ok_iff.mp h
    obtain ⟨more, hmore, h⟩ := bind_ok_iff.mp h
    cases h
    exact ⟨_, _, _, _, rfl, .lexed (isLexed_ofMarks hitem), Nat.le_refl _, hmore⟩
  case h_8 =>
    obtain ⟨more, hmore, h⟩ := bind_ok_iff.mp h
    cases h
    exact ⟨_, _, _, _, rfl, .lexed (isLexed_number _ _ _ _), length_number_le _ _ _ _, hmore⟩
  case h_9 | h_10 | h_11 | h_12 | h_13 =>
    split at h
    · cases h
    · next e he =>
      obtain ⟨hinner, hafter⟩ := Lexeme.enclosed?_lengths he
      obtain ⟨kind, -, h⟩ := bind_ok_iff.mp h
      obtain ⟨inner, hok, h⟩ := bind_ok_iff.mp h
      obtain ⟨more, hmore, h⟩ := bind_ok_iff.mp h
      cases h
      exact ⟨_, _, _, _, rfl, .block hinner hok, hafter, hmore⟩
  case h_14 | h_15 | h_16 | h_17 | h_18 | h_19 =>
    obtain ⟨hinner, hafter⟩ := stringBody_lengths l ls
    obtain ⟨pieces, hpieces, h⟩ := bind_ok_iff.mp h
    obtain ⟨more, hmore, h⟩ := bind_ok_iff.mp h
    cases h
    exact ⟨_, _, _, _, rfl, .string hinner hpieces, hafter, hmore⟩
  case h_20 =>
    split at h
    · cases h
    · next e he =>
      obtain ⟨-, hafter⟩ := Lexeme.enclosed?_lengths he
      obtain ⟨more, hmore, h⟩ := bind_ok_iff.mp h
      cases h
      exact ⟨_, _, _, _, rfl, .lexed trivial, hafter, hmore⟩
  case h_21 => cases h

/-- **`Pieces`** — what a piece was made of: a lexeme, or at most `bound` lexemes inside of a hole. -/
inductive Pieces (bound : Nat) : Piece → Prop
  | text (t : Text) : Pieces bound (.text t)
  | block {kind : Delimiters} {own : Option Radix} {base : Radix} {previous : Option Lexeme}
      {ls : List Lexeme} {inner : List Tree} (hlen : ls.length ≤ bound)
      (h : ofLexemes base previous ls = .ok inner) : Pieces bound (.block kind own inner)
  | escape {kind : Delimiters} {own : Option Radix} {base : Radix} {previous : Option Lexeme}
      {ls : List Lexeme} {inner : List Tree} (hlen : ls.length ≤ bound)
      (h : ofLexemes base previous ls = .ok inner) : Pieces bound (.escape kind own inner)

theorem piecesOf_cons_ok {l : Lexeme} {ls : List Lexeme} {pieces : List Piece}
    (h : piecesOf (l :: ls) = .ok pieces) :
    ∃ piece more ls', pieces = piece :: more ∧ Pieces ls.length piece ∧
      ls'.length ≤ ls.length ∧ piecesOf ls' = .ok more := by
  unfold piecesOf at h
  split at h
  case h_1 | h_2 =>
    obtain ⟨more, hmore, h⟩ := bind_ok_iff.mp h
    cases h
    exact ⟨_, more, ls, rfl, .text _, Nat.le_refl _, hmore⟩
  case h_3 =>
    obtain ⟨t, -, h⟩ := bind_ok_iff.mp h
    obtain ⟨more, hmore, h⟩ := bind_ok_iff.mp h
    cases h
    exact ⟨_, more, ls, rfl, .text _, Nat.le_refl _, hmore⟩
  case h_4 | h_5 =>
    split at h
    · cases h
    · next e he =>
      obtain ⟨hinner, hafter⟩ := Lexeme.enclosed?_lengths he
      obtain ⟨kind, -, h⟩ := bind_ok_iff.mp h
      obtain ⟨inner, hok, h⟩ := bind_ok_iff.mp h
      obtain ⟨more, hmore, h⟩ := bind_ok_iff.mp h
      cases h
      refine ⟨_, more, e.after, rfl, ?_, hafter, hmore⟩
      by_cases hk : l.kind = .holeEscape
      · rw [if_pos hk]
        exact .escape hinner hok
      · rw [if_neg hk]
        exact .block hinner hok
  case h_6 => cases h

/-- **Lexing makes spelled operators only**, in items and in the holes of strings. -/
theorem lexed_of_length (n : Nat) :
    (∀ {ls : List Lexeme} {base : Radix} {previous : Option Lexeme} {items : List Tree},
      ls.length ≤ n → ofLexemes base previous ls = .ok items → AllLexed items) ∧
    ∀ {ls : List Lexeme} {pieces : List Piece},
      ls.length ≤ n → piecesOf ls = .ok pieces → PiecesLexed pieces := by
  -- Items hold pieces and pieces hold items, so both are proved at once.
  induction n with
  | zero =>
    constructor
    · intro ls base previous items hlen h
      rw [List.length_eq_zero_iff.mp (Nat.le_zero.mp hlen), ofLexemes] at h
      cases h
      trivial
    · intro ls pieces hlen h
      rw [List.length_eq_zero_iff.mp (Nat.le_zero.mp hlen), piecesOf] at h
      cases h
      trivial
  | succ n ih =>
    obtain ⟨ihitems, ihpieces⟩ := ih
    constructor
    · intro ls base previous items hlen h
      cases ls with
      | nil =>
        rw [ofLexemes] at h
        cases h
        trivial
      | cons l ls =>
        have hlen : ls.length ≤ n := Nat.le_of_succ_le_succ hlen
        obtain ⟨item, more, previous', ls', rfl, hitem, hless, hmore⟩ := ofLexemes_cons_ok h
        refine ⟨?_, ihitems (Nat.le_trans hless hlen) hmore⟩
        cases hitem with
        | lexed hlexed => exact hlexed
        | block hle hinner => exact ihitems (Nat.le_trans hle hlen) hinner
        | string hle hpieces => exact isLexed_ofPieces _ (ihpieces (Nat.le_trans hle hlen) hpieces)
    · intro ls pieces hlen h
      cases ls with
      | nil =>
        rw [piecesOf] at h
        cases h
        trivial
      | cons l ls =>
        have hlen : ls.length ≤ n := Nat.le_of_succ_le_succ hlen
        obtain ⟨piece, more, ls', rfl, hpiece, hless, hmore⟩ := piecesOf_cons_ok h
        have hrest := ihpieces (Nat.le_trans hless hlen) hmore
        cases hpiece with
        | text t => exact hrest
        | block hle hinner | escape hle hinner =>
          exact ⟨ihitems (Nat.le_trans hle hlen) hinner, hrest⟩

theorem allLexed_of_ofLexemes {ls : List Lexeme} {base : Radix} {previous : Option Lexeme}
    (h : ofLexemes base previous ls = .ok items) : AllLexed items :=
  (lexed_of_length ls.length).1 (Nat.le_refl _) h

/-! ## §4 Markers -/

theorem settles_insertFrom (joinable : Bool) (h : ∀ item ∈ items, item.IsFresh) :
    Settles (fun next => next.isJuxtaposable = true) (insertFrom joinable items) := by
  induction items generalizing joinable with
  | nil => exact settles_nil
  | cons item rest ih =>
    obtain ⟨hitem, hitems⟩ := List.forall_mem_cons.mp h
    have hrest := fun j => ih j hitems
    rw [insertFrom]
    split
    · exact hrest _
    · split
      · next hjux =>
        refine .cons trivial (fun _ => ⟨item, _, rfl, ?_⟩)
          ((hrest _).cons_of_joins hitem.isBare hitem.joins_eq_false)
        exact (Bool.and_eq_true_iff.mp hjux).2
      · exact (hrest _).cons_of_joins hitem.isBare hitem.joins_eq_false

theorem marker?_of_mem_insertFrom {joinable : Bool} (h : ∀ item ∈ items, item.IsFresh)
    (hmem : item ∈ insertFrom joinable items) (hj : item.joins = true) :
    item.marker? = some .plain := by
  induction items generalizing joinable with
  | nil => cases hmem
  | cons first rest ih =>
    have hfirst := (h first List.mem_cons_self).joins_eq_false
    have hrest : ∀ {j}, item ∈ insertFrom j rest → item.marker? = some .plain := fun hi =>
      ih (fun i hi => h i (List.mem_cons_of_mem _ hi)) hi
    have hne : item ≠ first := by
      rintro rfl
      rw [hfirst] at hj
      cases hj
    rw [insertFrom] at hmem
    split at hmem
    · exact hrest hmem
    · split at hmem
      · simp only [List.mem_cons, hne, false_or] at hmem
        rcases hmem with rfl | hmem
        · rfl
        · exact hrest hmem
      · simp only [List.mem_cons, hne, false_or] at hmem
        exact hrest hmem

/-- A marker in front of a backtick does not stay plain. -/
theorem isBacktick_of_classify {before : Option Tree} {left right : Tree}
    (h : classify before left right = .plain) : right.isBacktick = false := by
  cases hb : right.isBacktick with
  | false => rfl
  | true =>
    simp only [classify, hb, Bool.or_true, if_true] at h
    split at h
    · cases h
    · split at h <;> cases h

/-- What is no plain marker is kept as it is. -/
theorem classifyFrom_cons {before left : Option Tree} {items' : List Tree}
    (hm : item.marker? ≠ some .plain) (h : classifyFrom before left (item :: rest) = .ok items') :
    ∃ more, items' = item :: more ∧ classifyFrom left (some item) rest = .ok more := by
  unfold classifyFrom at h
  rw [if_neg hm] at h
  obtain ⟨more, hmore, h⟩ := bind_ok_iff.mp h
  cases h
  exact ⟨more, rfl, hmore⟩

theorem marker?_of_isJuxtaposable (h : item.isJuxtaposable = true) : item.marker? = none := by
  cases item with
  | block | istring => rfl
  | leaf l s => cases l <;> first | rfl | cases h

theorem settles_classifyFrom {before left : Option Tree} {items' : List Tree}
    (h : Settles (fun next => next.isJuxtaposable = true) items)
    (hplain : ∀ item ∈ items, item.joins = true → item.marker? = some .plain)
    (hok : classifyFrom before left items = .ok items') : Settles IsOperand items' := by
  induction items generalizing before left items' with
  | nil =>
    cases hok
    exact settles_nil
  | cons item rest ih =>
    obtain ⟨hitem, hnext, hsettled⟩ := h
    have hrest : ∀ {b l more}, classifyFrom b l rest = .ok more → Settles IsOperand more :=
      ih hsettled fun i hi => hplain i (List.mem_cons_of_mem _ hi)
    by_cases hm : item.marker? = some .plain
    · unfold classifyFrom at hok
      rw [if_pos hm] at hok
      split at hok
      · next l r hr =>
        obtain ⟨more, hmore, hok⟩ := bind_ok_iff.mp hok
        cases hok
        refine (hrest hmore).cons trivial fun hj => ?_
        have hfound : classify before l r = .plain := by simpa [markerAt, joins] using hj
        -- what is touched is not a marker, so it is still there
        obtain ⟨next, tail, rfl, hjux⟩ := hnext (joins_of_marker? hm)
        cases hr
        obtain ⟨more', rfl, -⟩ := classifyFrom_cons (by simp [marker?_of_isJuxtaposable hjux]) hmore
        exact ⟨r, more', rfl, isOperand_of_isJuxtaposable hjux (isBacktick_of_classify hfound)⟩
      · cases hok
    · obtain ⟨more, rfl, hmore⟩ := classifyFrom_cons hm hok
      refine (hrest hmore).cons_of_joins hitem ?_
      cases hj : item.joins with
      | false => rfl
      | true => exact absurd (hplain item List.mem_cons_self hj) hm

/-- **Markers stand in front of what they join**, and those that stay plain in front of operands. -/
theorem settles_of_classifyMarkers {items' : List Tree} (h : ∀ item ∈ items, item.IsFresh)
    (hok : classifyMarkers (insertMarkers items) = .ok items') : Settles IsOperand items' :=
  settles_classifyFrom (settles_insertFrom false h) (fun _ => marker?_of_mem_insertFrom h) hok

/-! ## §5 Backticks and ranges -/

/-- **What becomes of an item**: a backtick gets its side, and the marker beside it is dropped. -/
theorem resolveFrom_cons_ok {left : Option Tree} {items' : List Tree}
    (h : resolveFrom left (item :: rest) = .ok items') :
    ∃ more, resolveFrom (some item) rest = .ok more ∧
      ((item.isBacktick = true ∧
          ∃ side, items' = .leaf (.operator (.backtick side)) item.span :: more) ∨
        (item.marker? = some .backtick ∧ items' = more) ∨
        (item.isBacktick = false ∧ item.marker? ≠ some .backtick ∧ items' = item :: more)) := by
  unfold resolveFrom at h
  split at h
  · cases h
  · split at h
    · next hback =>
      split at h
      · obtain ⟨more, hmore, h⟩ := bind_ok_iff.mp h
        cases h
        exact ⟨more, hmore, .inl ⟨hback, _, rfl⟩⟩
      · obtain ⟨more, hmore, h⟩ := bind_ok_iff.mp h
        cases h
        exact ⟨more, hmore, .inl ⟨hback, _, rfl⟩⟩
      · cases h
    · next hback =>
      split at h
      · next hmarker => exact ⟨items', h, .inr (.inl ⟨hmarker, rfl⟩)⟩
      · next hmarker =>
        obtain ⟨more, hmore, h⟩ := bind_ok_iff.mp h
        cases h
        exact ⟨more, hmore, .inr (.inr ⟨by simpa using hback, hmarker, rfl⟩)⟩

/-- An operand is kept as it is. -/
theorem begins_resolveFrom {left : Option Tree} {items' : List Tree} (h : Begins IsOperand items)
    (hok : resolveFrom left items = .ok items') : Begins IsOperand items' := by
  obtain ⟨item, rest, rfl, hitem⟩ := h
  obtain ⟨more, -, ⟨hb, -⟩ | ⟨hm, -⟩ | ⟨-, -, rfl⟩⟩ := resolveFrom_cons_ok hok
  · rw [isBacktick_of_isOperand hitem] at hb
    cases hb
  · rw [marker?_of_isOperand hitem] at hm
    cases hm
  · exact ⟨item, more, rfl, hitem⟩

theorem settles_resolveFrom {left : Option Tree} {items' : List Tree}
    (h : Settles IsOperand items) (hok : resolveFrom left items = .ok items') :
    Settles IsOperand items' := by
  induction items generalizing left items' with
  | nil =>
    cases hok
    exact settles_nil
  | cons item rest ih =>
    obtain ⟨hitem, hnext, hsettled⟩ := h
    obtain ⟨more, hmore, ⟨-, side, rfl⟩ | ⟨-, rfl⟩ | ⟨-, -, rfl⟩⟩ := resolveFrom_cons_ok hok
    · exact (ih hsettled hmore).cons_of_joins (Op.isBare_of_holdsContested_eq_false rfl) rfl
    · exact ih hsettled hmore
    · exact (ih hsettled hmore).cons hitem fun hj => begins_resolveFrom (hnext hj) hmore

/-- An operand has a bound or itself in front. -/
theorem begins_boundFrom {left : Option Tree} (h : Begins IsOperand items) :
    Begins IsOperand (boundFrom left items) := by
  obtain ⟨item, rest, rfl, hitem⟩ := h
  unfold boundFrom
  dsimp only
  split
  · split
    · exact ⟨item, _, rfl, hitem⟩
    · exact ⟨_, _, rfl, trivial⟩
  · exact ⟨item, _, rfl, hitem⟩

theorem joins_of_atom? {a : Atom} (h : item.atom? = some a) : item.joins = false := by
  cases item with
  | leaf l s => cases l <;> first | rfl | cases h
  | _ => rfl

theorem settles_boundFrom {left : Option Tree} (h : Settles IsOperand items) :
    Settles IsOperand (boundFrom left items) := by
  induction items generalizing left with
  | nil => exact settles_nil
  | cons item rest ih =>
    obtain ⟨hitem, hnext, hsettled⟩ := h
    have hrest : Settles IsOperand (boundFrom (some item) rest) := ih hsettled
    unfold boundFrom
    dsimp only
    split
    · next hmark =>
      have hbound : Settles IsOperand
          (item :: (if isMarker .range rest.head? then boundFrom (some item) rest
            else markerAt .range item.span.endPoint :: undefinedAt item.span.endPoint ::
              boundFrom (some item) rest)) := by
        refine .cons_of_joins hitem (joins_of_atom? hmark) ?_
        split
        · exact hrest
        · exact .cons_of_joins trivial rfl (.cons_of_joins trivial rfl hrest)
      split
      · exact hbound
      · exact .cons_of_joins trivial rfl (.cons_of_joins trivial rfl hbound)
    · exact hrest.cons hitem fun hj => begins_boundFrom (hnext hj)

/-! ## §6 Operators for markers -/

theorem operatorsFrom_cons {left : Option Tree} {items' : List Tree} (hm : item.marker? = none)
    (h : operatorsFrom left (item :: rest) = .ok items') :
    ∃ more, items' = item :: more ∧ operatorsFrom (some item) rest = .ok more := by
  unfold operatorsFrom at h
  rw [hm] at h
  obtain ⟨more, hmore, h⟩ := bind_ok_iff.mp h
  cases h
  exact ⟨more, rfl, hmore⟩

theorem begins_operatorsFrom {left : Option Tree} {items' : List Tree} (h : Begins IsOperand items)
    (hok : operatorsFrom left items = .ok items') : Begins IsOperand items' := by
  obtain ⟨item, rest, rfl, hitem⟩ := h
  obtain ⟨more, rfl, -⟩ := operatorsFrom_cons (marker?_of_isOperand hitem) hok
  exact ⟨item, more, rfl, hitem⟩

/-- Only a plain marker becomes a contested operator, and every operator for a marker is bare. -/
theorem markerOp_ok {m : Marker} {left right : Option Tree} {op : Op}
    (h : markerOp m left right = .ok op) :
    op.IsBare ∧ (op.isContested = true → m = .plain) := by
  unfold markerOp at h
  split at h <;> cases h
  · exact ⟨Op.isBare_juxtapose _, fun _ => rfl⟩
  all_goals
    refine ⟨Op.isBare_of_holdsContested_eq_false rfl, fun hc => ?_⟩
    cases hc

theorem settles_operatorsFrom {left : Option Tree} {items' : List Tree}
    (h : Settles IsOperand items) (hok : operatorsFrom left items = .ok items') :
    Settles IsOperand items' := by
  induction items generalizing left items' with
  | nil =>
    cases hok
    exact settles_nil
  | cons item rest ih =>
    obtain ⟨hitem, hnext, hsettled⟩ := h
    cases hm : item.marker? with
    | none =>
      obtain ⟨more, rfl, hmore⟩ := operatorsFrom_cons hm hok
      exact (ih hsettled hmore).cons hitem fun hj => begins_operatorsFrom (hnext hj) hmore
    | some m =>
      unfold operatorsFrom at hok
      rw [hm] at hok
      obtain ⟨op, hop, hok⟩ := bind_ok_iff.mp hok
      obtain ⟨more, hmore, hok⟩ := bind_ok_iff.mp hok
      cases hok
      obtain ⟨hbare, hplain⟩ := markerOp_ok hop
      refine (ih hsettled hmore).cons hbare fun hj => ?_
      obtain rfl := hplain hj
      exact begins_operatorsFrom (hnext (joins_of_marker? hm)) hmore

/-! ## §7 Compound operators -/

theorem begins_closeElses (h : Begins IsOperand items) : Begins IsOperand (closeElses items) := by
  obtain ⟨item, rest, rfl, hitem⟩ := h
  exact ⟨item, closeElses rest, by simp [closeElses, keyword?_of_isOperand hitem], hitem⟩

theorem settles_closeElses (h : Settles IsOperand items) : Settles IsOperand (closeElses items) := by
  induction items with
  | nil => exact settles_nil
  | cons item rest ih =>
    obtain ⟨hitem, hnext, hsettled⟩ := h
    have hrest := ih hsettled
    unfold closeElses
    dsimp only
    split
    · exact .cons_of_joins trivial rfl hrest
    · exact hrest.cons hitem fun hj => begins_closeElses (hnext hj)

/-- **`Fuses`** — what is put together are operators, and what comes out is none that could be
contested. -/
def Fuses (join : Tree → Tree → Option Op) : Prop :=
  ∀ a b op, join a b = some op → (∃ p, a.operator? = some p) ∧ op.holdsContested = false

theorem Fuses.begins_fusePairs {join : Tree → Tree → Option Op} (hj : Fuses join)
    (h : Begins IsOperand items) : Begins IsOperand (fusePairs join items) := by
  obtain ⟨item, rest, rfl, hitem⟩ := h
  cases rest with
  | nil => exact ⟨item, [], rfl, hitem⟩
  | cons b rest =>
    rw [fusePairs]
    split
    · next op h =>
      obtain ⟨⟨p, hp⟩, -⟩ := hj _ _ _ h
      rw [operator?_of_isOperand hitem] at hp
      cases hp
    · exact ⟨item, _, rfl, hitem⟩

theorem Fuses.settles_fusePairs {join : Tree → Tree → Option Op} (hj : Fuses join)
    (h : Settles IsOperand items) : Settles IsOperand (fusePairs join items) := by
  fun_induction fusePairs join items with
  | case1 a b rest op hop ih =>
    obtain ⟨ha, hnexta, hb, hnextb, hsettled⟩ := h
    obtain ⟨-, hop⟩ := hj _ _ _ hop
    exact (ih hsettled).cons_of_joins (Op.isBare_of_holdsContested_eq_false hop)
      (Op.isContested_of_holdsContested_eq_false hop)
  | case2 a b rest hop ih =>
    obtain ⟨ha, hnext, hsettled⟩ := h
    exact (ih hsettled).cons ha fun hjoins => hj.begins_fusePairs (hnext hjoins)
  | case3 items hshort => exact h

theorem fuses_joinInverted : Fuses joinInverted := by
  intro a b op h
  unfold joinInverted at h
  split at h
  · next s hnot hs =>
    split at h <;> cases h
    exact ⟨⟨_, symbol?_eq_some hnot⟩, rfl⟩
  · cases h

theorem fuses_joinBroadcast : Fuses joinBroadcast := by
  intro a b op h
  unfold joinBroadcast at h
  split at h
  · next hdot =>
    refine ⟨⟨_, symbol?_eq_some hdot.1⟩, ?_⟩
    split at h
    · split at h <;> cases h
      rfl
    · cases h
      rfl
    · cases h
  · cases h

theorem fuses_joinAssignment : Fuses joinAssignment := by
  intro a b op h
  unfold joinAssignment at h
  split at h
  · obtain ⟨p, hp, rfl⟩ := Option.map_eq_some_iff.mp h
    exact ⟨⟨p, (Option.filter_eq_some_iff.mp hp).1⟩, rfl⟩
  · cases h

theorem chainHead?_of_isOperand {previous : Option Tree} (hitem : item.IsOperand) :
    chainHead? previous item = none := by
  unfold chainHead?
  split
  · cases hs : item.symbol? with
    | none => rfl
    | some s =>
      have := symbol?_eq_some hs
      rw [operator?_of_isOperand hitem] at this
      cases this
  · rfl

theorem begins_chainFrom {previous : Option Tree} (h : Begins IsOperand items) :
    Begins IsOperand (chainFrom previous 0 items) := by
  obtain ⟨item, rest, rfl, hitem⟩ := h
  rw [chainFrom, chainHead?_of_isOperand hitem]
  exact ⟨item, _, rfl, hitem⟩

theorem settles_chainFrom {previous : Option Tree} {skip : Nat} (h : Settles IsOperand items) :
    Settles IsOperand (chainFrom previous skip items) := by
  induction items generalizing previous skip with
  | nil => exact settles_nil
  | cons item rest ih =>
    obtain ⟨hitem, hnext, hsettled⟩ := h
    have hrest : ∀ {previous skip}, Settles IsOperand (chainFrom previous skip rest) :=
      ih hsettled
    unfold chainFrom
    split
    · exact hrest
    · split
      · exact .cons_of_joins (Op.isBare_of_holdsContested_eq_false rfl) rfl hrest
      · exact hrest.cons hitem fun hj => begins_chainFrom (hnext hj)

/-! ## §8 Settling -/

/-- **Settling puts every juxtaposition in front of an operand.** -/
theorem settles_settleLevel {items' : List Tree} (h : ∀ item ∈ items, item.IsFresh)
    (hok : settleLevel items = .ok items') : Settles IsOperand items' := by
  obtain ⟨marked, hmarked, hok⟩ := bind_ok_iff.mp hok
  obtain ⟨resolved, hresolved, hok⟩ := bind_ok_iff.mp hok
  obtain ⟨joined, hjoined, hok⟩ := bind_ok_iff.mp hok
  cases hok
  have hmarkers := settles_resolveFrom (settles_of_classifyMarkers h hmarked) hresolved
  have hoperators := settles_operatorsFrom (settles_boundFrom hmarkers) hjoined
  have hinverted := fuses_joinInverted.settles_fusePairs (settles_closeElses hoperators)
  exact fuses_joinAssignment.settles_fusePairs
    (fuses_joinBroadcast.settles_fusePairs (settles_chainFrom hinverted))

end Tree

end DewyFront
