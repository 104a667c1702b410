/-
# DewyFront.Proofs.Positions — offsets and positions are inverse

The position of an offset counts the newlines in front of it and the characters behind the last of them;
the offset of a position adds the lines in front of its row to a part of the row. Both are taken from the
same cut of the text: lines that are ended by a newline each, a part of the next line, and the rest. They
differ in one place only. A row is looked up without its ending, so what stands behind the carriage
return of an ending has a position that no offset is found for.

* §1 the order of positions;
* §2 offsets between characters;
* §3 lines;
* §4 rows without their endings;
* §5 offsets and positions.
-/
import DewyFront.Proofs.Labels
import DewyFront.Source
import Mathlib.Order.Bounds.Basic

namespace DewyFront
namespace Source

/-! ## §1 The order -/

namespace Position

/-- **`Before`** — a position stands in a row further up, or further to the left in the same row. -/
def Before (p q : Position) : Prop := p.row < q.row ∨ p.row = q.row ∧ p.column < q.column

variable {p q r : Position}

theorem Before.trans (hpq : p.Before q) (hqr : q.Before r) : p.Before r := by
  unfold Before at *
  omega

theorem before_after (p : Position) (c : Char) : p.Before (p.after c) := by
  unfold Before after
  split
  · exact .inl (Nat.lt_succ_self _)
  · exact .inr ⟨rfl, Nat.lt_succ_self _⟩

/-- Reading moves a position on. -/
theorem before_foldl {t : Text} (p : Position) (ht : t ≠ []) : p.Before (t.foldl after p) := by
  induction t generalizing p with
  | nil => exact absurd rfl ht
  | cons c t ih =>
    cases t with
    | nil => exact p.before_after c
    | cons d t => exact (p.before_after c).trans (ih (p.after c) (List.cons_ne_nil d t))

/-! ## §2 Offsets -/

/-- As many whole characters are read as fit. -/
theorem advance_append {front back : Text} {k : Nat} (p : Position)
    (hk : ∀ c, back.head? = some c → k < c.utf8Size) :
    p.advance (width front + k) (front ++ back) = front.foldl after p := by
  induction front generalizing p with
  | nil =>
    cases back with
    | nil => rfl
    | cons c back =>
      have hlt : k < c.utf8Size := hk c rfl
      rw [List.nil_append, advance, if_neg]
      · rfl
      · rw [width_nil]
        omega
  | cons c front ih =>
    have hbudget : width (c :: front) + k - c.utf8Size = width front + k := by
      rw [width_cons]
      omega
    rw [List.cons_append, advance, if_pos (by rw [width_cons]; omega), hbudget, ih]
    rfl

end Position

/-- The position behind a text that begins at the start of a source. -/
def positionBehind (front : Text) : Position := front.foldl Position.after ⟨1, 1⟩

/-- **Every offset belongs to a cut between two characters**, which it lies behind by less than a
character. Behind the end it is the cut at the end. -/
theorem exists_cut (t : Text) (offset : Nat) : ∃ front back k, t = front ++ back ∧
    offset = width front + k ∧ ∀ c, back.head? = some c → k < c.utf8Size := by
  induction t generalizing offset with
  | nil => exact ⟨[], [], offset, rfl, (Nat.zero_add _).symm, fun c hc => by cases hc⟩
  | cons c t ih =>
    by_cases hlt : offset < c.utf8Size
    · refine ⟨[], c :: t, offset, rfl, (Nat.zero_add _).symm, fun d hd => ?_⟩
      cases hd
      exact hlt
    · obtain ⟨front, back, k, rfl, hoffset, hk⟩ := ih (offset - c.utf8Size)
      refine ⟨c :: front, back, k, rfl, ?_, hk⟩
      rw [width_cons]
      omega

/-- A cut is told by its offset. -/
theorem cut_unique {front front' back back' : Text} (h : front ++ back = front' ++ back')
    (hwidth : width front = width front') : front = front' ∧ back = back' := by
  have hback : some back = some back' := by
    rw [← dropBytes_width front back, ← dropBytes_width front' back', h, hwidth]
  obtain rfl := Option.some.inj hback
  exact ⟨List.append_cancel_right h, rfl⟩

section

variable {front back : Text} {k : Nat}

theorem position_eq {s : Source} (htext : s.text = front ++ back)
    (hk : ∀ c, back.head? = some c → k < c.utf8Size) :
    s.position (width front + k) = positionBehind front := by
  rw [position, htext, Position.advance_append _ hk]
  rfl

theorem position_width {s : Source} (htext : s.text = front ++ back) :
    s.position (width front) = positionBehind front :=
  position_eq (k := 0) htext fun c _ => c.utf8Size_pos

/-- The cut of an offset is the greatest between two characters that does not lie behind it. -/
theorem isGreatest_cut (hk : ∀ c, back.head? = some c → k < c.utf8Size) :
    IsGreatest {b | IsBoundary (front ++ back) b ∧ b ≤ width front + k} (width front) := by
  refine ⟨⟨⟨front, back, rfl, rfl⟩, Nat.le_add_right _ _⟩, ?_⟩
  rintro b ⟨⟨front', back', heq, rfl⟩, hle⟩
  rcases List.append_eq_append_iff.mp heq with ⟨more, rfl, rfl⟩ | ⟨more, rfl, -⟩
  · cases more with
    | nil => rw [List.append_nil]
    | cons c more =>
      have hlt : k < c.utf8Size := hk c rfl
      rw [width_append, width_cons] at hle
      omega
  · rw [width_append]
    exact Nat.le_add_right _ _

end

/-! ## §3 Lines -/

/-- **`IsEnded`** — a line with the newline that ends it. -/
def IsEnded (line : Text) : Prop := ∃ body, '\n' ∉ body ∧ line = body ++ ['\n']

variable {body part t : Text} {lines : List Text}

theorem linesOf_of_not_mem (h : '\n' ∉ body) : linesOf body = [body] := by
  induction body with
  | nil => rfl
  | cons c body ih =>
    obtain ⟨hc, hbody⟩ := List.ne_and_not_mem_of_not_mem_cons h
    rw [linesOf, ih hbody]
    exact fun heq => hc heq.symm

theorem linesOf_append_newline (h : '\n' ∉ body) (t : Text) :
    linesOf (body ++ '\n' :: t) = (body ++ ['\n']) :: linesOf t := by
  induction body with
  | nil => rfl
  | cons c body ih =>
    obtain ⟨hc, hbody⟩ := List.ne_and_not_mem_of_not_mem_cons h
    rw [List.cons_append, linesOf, ih hbody]
    · rfl
    · exact fun heq => hc heq.symm

/-- Lines that are ended stay what they are, whatever follows. -/
theorem linesOf_flatten_append (h : ∀ line ∈ lines, IsEnded line) (t : Text) :
    linesOf (lines.flatten ++ t) = lines ++ linesOf t := by
  induction lines with
  | nil => rfl
  | cons line lines ih =>
    obtain ⟨⟨body, hbody, rfl⟩, hrest⟩ := List.forall_mem_cons.mp h
    rw [List.flatten_cons, List.append_assoc, List.append_assoc, List.singleton_append,
      linesOf_append_newline hbody, ih hrest, List.cons_append]

/-- **A text is made of lines that are ended and a part of a line.** -/
theorem exists_lines (t : Text) : ∃ (lines : List Text) (part : Text),
    (∀ line ∈ lines, IsEnded line) ∧ '\n' ∉ part ∧ t = lines.flatten ++ part := by
  induction t using List.reverseRecOn with
  | nil => exact ⟨[], [], List.forall_mem_nil _, List.not_mem_nil, rfl⟩
  | append_singleton t c ih =>
    obtain ⟨lines, part, hlines, hpart, rfl⟩ := ih
    by_cases hc : c = '\n'
    · subst hc
      refine ⟨lines ++ [part ++ ['\n']], [], ?_, List.not_mem_nil, by simp⟩
      exact List.forall_mem_append.mpr
        ⟨hlines, List.forall_mem_singleton.mpr ⟨part, hpart, rfl⟩⟩
    · refine ⟨lines, part ++ [c], hlines, ?_, by simp⟩
      rw [List.mem_append, List.mem_singleton, not_or]
      exact ⟨hpart, fun heq => hc heq.symm⟩

theorem foldl_after_of_not_mem (h : '\n' ∉ part) (p : Position) :
    part.foldl Position.after p = ⟨p.row, p.column + part.length⟩ := by
  induction part generalizing p with
  | nil => rfl
  | cons c part ih =>
    obtain ⟨hc, hpart⟩ := List.ne_and_not_mem_of_not_mem_cons h
    rw [List.foldl_cons, Position.after, if_neg fun heq => hc heq.symm, ih hpart, List.length_cons,
      Nat.add_right_comm, Nat.add_assoc]

/-- Every line that is ended moves on to the start of the next row. -/
theorem foldl_after_flatten (h : ∀ line ∈ lines, IsEnded line) (row : Nat) :
    lines.flatten.foldl Position.after ⟨row, 1⟩ = ⟨row + lines.length, 1⟩ := by
  induction lines generalizing row with
  | nil => rfl
  | cons line lines ih =>
    obtain ⟨⟨body, hbody, rfl⟩, hrest⟩ := List.forall_mem_cons.mp h
    have hline : (body ++ ['\n']).foldl Position.after ⟨row, 1⟩ = ⟨row + 1, 1⟩ := by
      rw [List.foldl_append, foldl_after_of_not_mem hbody]
      rfl
    rw [List.flatten_cons, List.foldl_append, hline, ih hrest, List.length_cons, Nat.add_right_comm,
      Nat.add_assoc]

/-- **The position behind some lines and a part of one** is told by their numbers. -/
theorem positionBehind_eq (hlines : ∀ line ∈ lines, IsEnded line) (hpart : '\n' ∉ part) :
    positionBehind (lines.flatten ++ part) = ⟨lines.length + 1, part.length + 1⟩ := by
  rw [positionBehind, List.foldl_append, foldl_after_flatten hlines, foldl_after_of_not_mem hpart,
    Nat.add_comm 1, Nat.add_comm 1]

/-- **A line is found where a text is cut** behind the lines in front of it, which are ended. It holds
no newline but the one that ends it. -/
theorem exists_of_getElem?_linesOf {line : Text} {row : Nat} (h : (linesOf t)[row]? = some line) :
    ∃ lines rest, (∀ l ∈ lines, IsEnded l) ∧ lines = (linesOf t).take row ∧ lines.length = row ∧
      t = lines.flatten ++ (line ++ rest) ∧ ('\n' ∉ line ∨ IsEnded line) := by
  obtain ⟨lines, part, hlines, hpart, rfl⟩ := exists_lines t
  rw [linesOf_flatten_append hlines, linesOf_of_not_mem hpart] at h ⊢
  obtain ⟨hrow, rfl⟩ := List.getElem?_eq_some_iff.mp h
  rw [List.length_append, List.length_singleton] at hrow
  rcases Nat.lt_succ_iff_lt_or_eq.mp hrow with hrow | rfl
  · have hcut : lines.flatten =
        (lines.take row).flatten ++ (lines[row] ++ (lines.drop (row + 1)).flatten) := by
      rw [← List.flatten_cons, ← List.drop_eq_getElem_cons hrow, ← List.flatten_append,
        List.take_append_drop]
    refine ⟨lines.take row, (lines.drop (row + 1)).flatten ++ part,
      fun l hl => hlines l (List.mem_of_mem_take hl), ?_, List.length_take_of_le hrow.le, ?_, .inr ?_⟩
    · rw [List.take_append_of_le_length hrow.le]
    · rw [List.getElem_append_left hrow, hcut, List.append_assoc, List.append_assoc]
    · rw [List.getElem_append_left hrow]
      exact hlines _ (List.getElem_mem hrow)
  · refine ⟨lines, [], hlines, List.take_left.symm, rfl, ?_, .inl ?_⟩
    · rw [List.append_nil, List.getElem_concat_length]
      rfl
    · rwa [List.getElem_concat_length]
      rfl

/-! ## §4 Rows -/

/-- A text without a carriage return at its end. -/
def trimReturn (t : Text) : Text := if t.getLast? = some '\r' then t.dropLast else t

theorem isPrefix_trimReturn (t : Text) : trimReturn t <+: t := by
  unfold trimReturn
  split
  · exact List.dropLast_prefix t
  · exact List.prefix_refl t

theorem trimReturn_append (hne : t ≠ []) (part : Text) :
    trimReturn (part ++ t) = part ++ trimReturn t := by
  rw [trimReturn, trimReturn, List.getLast?_append_of_ne_nil part hne]
  split
  · exact List.dropLast_append_of_ne_nil hne
  · rfl

theorem trimEnding_of_not_mem (h : '\n' ∉ body) : trimEnding body = trimReturn body := by
  have hlast : body.getLast? ≠ some '\n' := fun hlast => h (List.mem_of_getLast? hlast)
  unfold trimEnding
  rw [if_neg hlast]
  rfl

theorem trimEnding_append_newline (body : Text) : trimEnding (body ++ ['\n']) = trimReturn body := by
  unfold trimEnding
  rw [if_pos List.getLast?_concat, List.dropLast_concat]
  rfl

/-- A line without its ending is a beginning of it without a newline. -/
theorem trimEnding_prefix {line : Text} (h : '\n' ∉ line ∨ IsEnded line) :
    trimEnding line <+: line ∧ '\n' ∉ trimEnding line := by
  have hkeep {body : Text} (hbody : '\n' ∉ body) : '\n' ∉ trimReturn body :=
    fun hmem => hbody ((isPrefix_trimReturn body).subset hmem)
  rcases h with hline | ⟨body, hbody, rfl⟩
  · rw [trimEnding_of_not_mem hline]
    exact ⟨isPrefix_trimReturn line, hkeep hline⟩
  · rw [trimEnding_append_newline]
    exact ⟨(isPrefix_trimReturn body).trans (List.prefix_append body _), hkeep hbody⟩

/-- **The row of a cut**, without its ending: what stands in front of the cut, with what follows up to
the next newline, and without a carriage return in front of that. -/
theorem exists_row (hpart : '\n' ∉ part) (back : Text) :
    ∃ body more line, back = body ++ more ∧ '\n' ∉ body ∧ (more = [] ∨ more.head? = some '\n') ∧
      (linesOf (part ++ back)).head? = some line ∧ trimEnding line = trimReturn (part ++ body) := by
  have hboth {body : Text} (hbody : '\n' ∉ body) : '\n' ∉ part ++ body := fun hmem =>
    (List.mem_append.mp hmem).elim hpart hbody
  by_cases hmem : '\n' ∈ back
  · obtain ⟨body, more, rfl, hbody⟩ := List.eq_append_cons_of_mem hmem
    refine ⟨body, '\n' :: more, part ++ body ++ ['\n'], rfl, hbody, .inr rfl, ?_,
      trimEnding_append_newline _⟩
    rw [← List.append_assoc, linesOf_append_newline (hboth hbody)]
    rfl
  · refine ⟨back, [], part ++ back, (List.append_nil back).symm, hmem, .inl rfl, ?_,
      trimEnding_of_not_mem (hboth hmem)⟩
    rw [linesOf_of_not_mem (hboth hmem)]
    rfl

/-! ## §5 Offsets and positions -/

/-- **`IsEndingCut`** — a cut stands behind a carriage return that belongs to an ending: before a newline
or at the end. -/
def IsEndingCut (front back : Text) : Prop :=
  front.getLast? = some '\r' ∧ (back = [] ∨ back.head? = some '\n')

instance : DecidableRel IsEndingCut := fun _ _ => inferInstanceAs (Decidable (_ ∧ _))

theorem getLast?_flatten_append (hlines : ∀ line ∈ lines, IsEnded line) :
    (lines.flatten ++ part).getLast? = some '\r' ↔ part.getLast? = some '\r' := by
  cases part using List.reverseRecOn with
  | append_singleton part c => rw [← List.append_assoc, List.getLast?_concat, List.getLast?_concat]
  | nil =>
    rw [List.append_nil]
    cases lines using List.reverseRecOn with
    | nil => rfl
    | append_singleton lines line =>
      obtain ⟨body, -, rfl⟩ := hlines line (List.mem_append_right _ List.mem_cons_self)
      rw [List.flatten_concat, ← List.append_assoc, List.getLast?_concat]
      decide

theorem isEnding_append_iff {more : Text} (hbody : '\n' ∉ body)
    (hmore : more = [] ∨ more.head? = some '\n') :
    body ++ more = [] ∨ (body ++ more).head? = some '\n' ↔ body = [] := by
  cases body with
  | nil => exact iff_of_true hmore rfl
  | cons c body =>
    refine iff_of_false ?_ (List.cons_ne_nil c body)
    rintro (hnil | hhead)
    · cases hnil
    · cases hhead
      exact hbody List.mem_cons_self

/-- A part of a line begins its row, unless it ends in the carriage return of the ending. -/
theorem prefix_trimReturn (h : ¬(part.getLast? = some '\r' ∧ body = [])) :
    part <+: trimReturn (part ++ body) := by
  by_cases hbody : body = []
  · have htrim : trimReturn (part ++ body) = part := by
      rw [hbody, List.append_nil, trimReturn, if_neg fun hlast => h ⟨hlast, hbody⟩]
    exact htrim.symm ▸ List.prefix_rfl
  · rw [trimReturn_append hbody]
    exact List.prefix_append _ _

theorem length_trimReturn_lt (h : part.getLast? = some '\r') : (trimReturn part).length < part.length := by
  have hne : part ≠ [] := fun hnil => by rw [hnil] at h; cases h
  have hpos : 0 < part.length := List.length_pos_iff.mpr hne
  rw [trimReturn, if_pos h, List.length_dropLast]
  exact Nat.sub_lt hpos Nat.one_pos

theorem offset?_eq {s : Source} {line : Text} {row : Nat} (h : s.lines[row]? = some line) (column : Nat) :
    s.offset? ⟨row + 1, column + 1⟩ =
      if column ≤ (trimEnding line).length then
        some (width (s.lines.take row).flatten + width ((trimEnding line).take column))
      else none := by
  simp only [offset?, lineText?, h, Option.map_some, columnOffset?, Nat.add_sub_cancel, Option.bind_eq_bind,
    Option.bind_some]
  split <;> rfl

/-- **The offset of the position of a cut** is that of the cut, unless it stands in an ending. -/
theorem offset?_positionBehind {s : Source} {front back : Text} (htext : s.text = front ++ back) :
    s.offset? (positionBehind front) = if IsEndingCut front back then none else some (width front) := by
  obtain ⟨lines, part, hlines, hpart, rfl⟩ := exists_lines front
  obtain ⟨body, more, line, rfl, hbody, hmore, hline, htrim⟩ := exists_row hpart back
  have hsplit : s.lines = lines ++ linesOf (part ++ (body ++ more)) := by
    rw [Source.lines, htext, List.append_assoc, linesOf_flatten_append hlines]
  have hrow : s.lines[lines.length]? = some line := by
    rw [hsplit, List.getElem?_append_right (Nat.le_refl _), Nat.sub_self, ← List.head?_eq_getElem?, hline]
  have hending : IsEndingCut (lines.flatten ++ part) (body ++ more) ↔
      part.getLast? = some '\r' ∧ body = [] :=
    and_congr (getLast?_flatten_append hlines) (isEnding_append_iff hbody hmore)
  rw [positionBehind_eq hlines hpart, offset?_eq hrow, htrim, hsplit, List.take_left]
  by_cases hcut : part.getLast? = some '\r' ∧ body = []
  · obtain ⟨hlast, rfl⟩ := hcut
    rw [if_pos (hending.mpr ⟨hlast, rfl⟩), if_neg]
    rw [List.append_nil, Nat.not_le]
    exact length_trimReturn_lt hlast
  · have hkept : part <+: trimReturn (part ++ body) := prefix_trimReturn hcut
    rw [if_neg (mt hending.mp hcut), if_pos hkept.length_le, ← List.prefix_iff_eq_take.mp hkept, width_append]

/-- **An offset that is found is that of a cut**, and the position looked for is the one behind it. -/
theorem exists_cut_of_offset? {s : Source} {p : Position} {offset : Nat} (h : s.offset? p = some offset) :
    ∃ front back, s.text = front ++ back ∧ width front = offset ∧ positionBehind front = p := by
  obtain ⟨_ | row, _ | column⟩ := p
  case zero.zero => cases h
  case zero.succ => cases h
  case succ.zero =>
    obtain ⟨line, -, hline⟩ := Option.bind_eq_some_iff.mp h
    cases hline
  case succ.succ =>
    obtain ⟨line, hline⟩ : ∃ line, s.lines[row]? = some line := by
      obtain ⟨_, hmap, -⟩ := Option.bind_eq_some_iff.mp h
      obtain ⟨line, hline, -⟩ := Option.map_eq_some_iff.mp hmap
      exact ⟨line, hline⟩
    obtain ⟨lines, rest, hlines, hfront, rfl, htext, hended⟩ := exists_of_getElem?_linesOf hline
    obtain ⟨⟨ending, hending⟩, hfree⟩ := trimEnding_prefix hended
    rw [offset?_eq hline] at h
    split at h
    case isFalse => cases h
    case isTrue hcolumn =>
      have hpart : '\n' ∉ (trimEnding line).take column := fun hmem => hfree (List.mem_of_mem_take hmem)
      refine ⟨lines.flatten ++ (trimEnding line).take column,
        (trimEnding line).drop column ++ (ending ++ rest), ?_, ?_, ?_⟩
      · calc s.text
          _ = lines.flatten ++ (trimEnding line ++ ending ++ rest) := by rw [hending, htext]
          _ = _ := by
            rw [List.append_assoc lines.flatten, ← List.append_assoc (List.take _ _),
              List.take_append_drop, List.append_assoc]
      · rw [width_append, hfront]
        exact Option.some.inj h
      · rw [positionBehind_eq hlines hpart, List.length_take_of_le hcolumn]

/-- **`IsBehindReturn`** — the place behind a carriage return that stands before a newline or at the end. -/
def IsBehindReturn (t : Text) (offset : Nat) : Prop :=
  ∃ front back, t = front ++ back ∧ width front = offset ∧ IsEndingCut front back

theorem isBehindReturn_iff {front back : Text} (htext : t = front ++ back) :
    IsBehindReturn t (width front) ↔ IsEndingCut front back := by
  refine ⟨?_, fun h => ⟨front, back, htext, rfl, h⟩⟩
  rintro ⟨front', back', htext', hwidth, h⟩
  obtain ⟨rfl, rfl⟩ := cut_unique (htext.symm.trans htext') hwidth.symm
  exact h

/-- **Positions ascend** from one place to the next. -/
theorem positionBehind_before {front front' back back' : Text} (h : front ++ back = front' ++ back')
    (hlt : width front < width front') : (positionBehind front).Before (positionBehind front') := by
  rcases List.append_eq_append_iff.mp h with ⟨more, rfl, -⟩ | ⟨more, rfl, -⟩
  · have hne : more ≠ [] := fun hnil => by simp [hnil] at hlt
    rw [positionBehind, positionBehind, List.foldl_append]
    exact Position.before_foldl _ hne
  · rw [width_append] at hlt
    omega

/-- **Offsets and positions are inverse.** An offset that is found lies between two characters and has the
position it was found for. The offset of the position of any offset in the source is the last place that
does not lie behind it, unless that place stands behind the carriage return of an ending: then none is
found. Positions ascend from place to place, and behind the end there is only that of the end. -/
theorem offset?_position_inverse (s : Source) :
    (∀ p offset, s.offset? p = some offset → IsBoundary s.text offset ∧ s.position offset = p) ∧
      (∀ offset ≤ s.size, ∃ b, IsGreatest {b | IsBoundary s.text b ∧ b ≤ offset} b ∧
        (IsBehindReturn s.text b → s.offset? (s.position offset) = none) ∧
        (¬IsBehindReturn s.text b → s.offset? (s.position offset) = some b)) ∧
      (∀ b b', IsBoundary s.text b → IsBoundary s.text b' → b < b' →
        (s.position b).Before (s.position b')) ∧
      ∀ offset, s.size ≤ offset → s.position offset = s.position s.size := by
  refine ⟨fun p offset h => ?found, fun offset _ => ?back, ?ascend, fun offset hle => ?behind⟩
  case found =>
    obtain ⟨front, back, htext, rfl, rfl⟩ := exists_cut_of_offset? h
    exact ⟨⟨front, back, htext, rfl⟩, position_width htext⟩
  case back =>
    obtain ⟨front, back, k, htext, rfl, hk⟩ := exists_cut s.text offset
    refine ⟨width front, htext ▸ isGreatest_cut hk, ?_⟩
    rw [isBehindReturn_iff htext, position_eq htext hk, offset?_positionBehind htext]
    exact ⟨fun h => if_pos h, fun h => if_neg h⟩
  case ascend =>
    rintro _ _ ⟨front, back, htext, rfl⟩ ⟨front', back', htext', rfl⟩ hlt
    rw [position_width htext, position_width htext']
    exact positionBehind_before (htext.symm.trans htext') hlt
  case behind =>
    have hend : s.text = s.text ++ [] := (List.append_nil _).symm
    obtain ⟨k, rfl⟩ := Nat.exists_eq_add_of_le hle
    rw [size, position_eq hend (fun _ hc => nomatch hc), position_width hend]

/-- In `a`, a carriage return, a newline and `é` no position leads into the ending, and the one inside of
`é` leads to its beginning. -/
theorem offset?_position_inverse_of_ending :
    let s : Source := ⟨['a', '\r', '\n', 'é'], none⟩
    s.position 2 = ⟨1, 3⟩ ∧ s.offset? ⟨1, 3⟩ = none ∧ s.offset? (s.position 4) = some 3 ∧
      s.position 3 = ⟨2, 1⟩ ∧ (s.position 3).Before (s.position 5) := by
  intro s
  obtain ⟨hfound, hback, hascend, -⟩ := offset?_position_inverse s
  have hthree : IsBoundary s.text 3 := ⟨['a', '\r', '\n'], ['é'], rfl, rfl⟩
  have hfive : IsBoundary s.text 5 := ⟨s.text, [], rfl, rfl⟩
  refine ⟨by decide, ?ending, ?inside, (hfound ⟨2, 1⟩ 3 (by decide)).2, hascend 3 5 hthree hfive (by decide)⟩
  case ending =>
    obtain ⟨b, hb, hnone, -⟩ := hback 2 (by decide)
    have htwo : IsBoundary s.text 2 := ⟨['a', '\r'], ['\n', 'é'], rfl, rfl⟩
    obtain rfl : b = 2 := le_antisymm hb.1.2 (hb.2 ⟨htwo, le_rfl⟩)
    exact hnone ⟨['a', '\r'], ['\n', 'é'], by decide⟩
  case inside =>
    obtain ⟨b, hb, -, hsome⟩ := hback 4 (by decide)
    have hfour : ¬IsBoundary s.text 4 := by decide
    obtain rfl : b = 3 := by
      have hle : b ≤ 4 := hb.1.2
      have hge : 3 ≤ b := hb.2 ⟨hthree, by decide⟩
      have hne : b ≠ 4 := fun heq => hfour (heq ▸ hb.1.1)
      omega
    have htext : s.text = ['a', '\r', '\n'] ++ ['é'] := rfl
    refine hsome (mt (isBehindReturn_iff htext).mp ?_)
    decide

end Source
end DewyFront
