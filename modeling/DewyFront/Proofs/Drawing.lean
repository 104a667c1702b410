/-
# DewyFront.Proofs.Drawing — a drawing determines what is drawn

An outline is drawn in preorder, one label on a line, with four connector marks in front of the label
for each level above it. No label holds a newline, and none begins with a connector mark: so the lines
can be told apart, and in each line the marks from the label. What is left is a list of labels with their
depths, from which the outlines can be read back: whatever stands deeper than a label, up to the next
that does not, stands below it.

* §1 entries;
* §2 lines;
* §3 entries determine outlines;
* §4 drawings;
* §5 the labels of expressions;
* §6 sources.
-/
import DewyFront.Command
import DewyFront.Proofs.Legible
import Mathlib.Data.Bool.AllAny
import Mathlib.Data.List.Forall2

namespace DewyFront

namespace Outline

/-! ## §1 Entries -/

/-- **`Entry`** — a label and how deep it stands. -/
structure Entry where
  depth : Nat
  label : String
deriving DecidableEq, Repr

mutual
/-- **`entries`** — the labels of an outline at a depth, in preorder. -/
def entries (depth : Nat) : Outline → List Entry
  | mk label below => ⟨depth, label⟩ :: entriesAll (depth + 1) below
/-- The labels of some outlines. -/
def entriesAll (depth : Nat) : List Outline → List Entry
  | [] => []
  | o :: rest => entries depth o ++ entriesAll depth rest
end

/-! ## §2 Lines -/

/-- The characters of connectors and rules. -/
def connectorMarks : Text := [' ', '│', '├', '└', '─']

/-- **`AreMarks`** — connector marks for so many levels. -/
def AreMarks (depth : Nat) (t : Text) : Prop := t.length = 4 * depth ∧ ∀ c ∈ t, c ∈ connectorMarks

/-- **`Entry.IsLine`** — an entry is shown on a line: its label behind the marks for its depth. -/
def Entry.IsLine (entry : Entry) (line : Text) : Prop :=
  ∃ marks, AreMarks entry.depth marks ∧ line = marks ++ entry.label.toList

theorem areMarks_connector (closing : Bool) : AreMarks 1 (connector closing).toList := by
  cases closing <;> exact ⟨rfl, List.all_iff_forall_prop.mp (by decide)⟩

theorem areMarks_rule (closing : Bool) : AreMarks 1 (rule closing).toList := by
  cases closing <;> exact ⟨rfl, List.all_iff_forall_prop.mp (by decide)⟩

theorem AreMarks.append {rules more : String} {depth : Nat} (hrules : AreMarks depth rules.toList)
    (hmore : AreMarks 1 more.toList) : AreMarks (depth + 1) (rules ++ more).toList := by
  rw [String.toList_append]
  refine ⟨?_, List.forall_mem_append.mpr ⟨hrules.2, hmore.2⟩⟩
  rw [List.length_append, hrules.1, hmore.1]
  omega

mutual
/-- **The lines below a label show the entries below it**, in order. -/
theorem isLine_branch {rules : String} {depth : Nat} (h : AreMarks depth rules.toList) (closing : Bool) :
    ∀ o : Outline, List.Forall₂ Entry.IsLine (entries (depth + 1) o)
      ((branch rules closing o).map String.toList)
  | mk label below => by
    rw [entries, branch, List.map_cons]
    refine .cons ⟨_, h.append (areMarks_connector closing), String.toList_append⟩ ?_
    exact isLine_branches (h.append (areMarks_rule closing)) below
theorem isLine_branches {rules : String} {depth : Nat} (h : AreMarks depth rules.toList) :
    ∀ os : List Outline, List.Forall₂ Entry.IsLine (entriesAll (depth + 1) os)
      ((branches rules os).map String.toList)
  | [] => by
    rw [entriesAll, branches]
    exact .nil
  | o :: rest => by
    rw [entriesAll, branches, List.map_append]
    exact List.rel_append (isLine_branch h rest.isEmpty o) (isLine_branches h rest)
end

/-- **The lines of an outline show its entries.** -/
theorem isLine_lines (o : Outline) :
    List.Forall₂ Entry.IsLine (entries 0 o) (o.lines.map String.toList) := by
  have hnone : AreMarks 0 "".toList := ⟨rfl, List.forall_mem_nil _⟩
  cases o with
  | mk label below =>
    rw [entries, lines, List.map_cons]
    exact .cons ⟨[], hnone, rfl⟩ (isLine_branches hnone below)

/-! ## §3 Reading back -/

/-- **`EndsBefore`** — what stands behind the entries of some outlines at a depth: if anything does, it
begins less deep. -/
def EndsBefore (depth : Nat) (rest : List Entry) : Prop := ∀ entry ∈ rest.head?, entry.depth < depth

section

variable {depth : Nat} {o : Outline} {os : List Outline} {rest : List Entry}

theorem not_endsBefore_entries (depth : Nat) (o : Outline) (rest : List Entry) :
    ¬EndsBefore depth (entries depth o ++ rest) := by
  intro h
  cases o with
  | mk label below =>
    rw [entries] at h
    exact Nat.lt_irrefl depth (h ⟨depth, label⟩ rfl)

theorem endsBefore_entriesAll (os : List Outline) (h : EndsBefore depth rest) :
    EndsBefore (depth + 1) (entriesAll depth os ++ rest) := by
  cases os with
  | nil =>
    rw [entriesAll]
    exact fun entry hentry => Nat.lt_succ_of_lt (h entry hentry)
  | cons o os =>
    cases o with
    | mk label below =>
      rw [entriesAll, entries]
      rintro entry ⟨⟩
      exact Nat.lt_succ_self depth

end

mutual
/-- **The entries of an outline determine it**, whatever stands behind them. -/
theorem entries_inj : ∀ {o o' : Outline} {rest rest' : List Entry} {depth : Nat},
    EndsBefore (depth + 1) rest → EndsBefore (depth + 1) rest' →
      entries depth o ++ rest = entries depth o' ++ rest' → o = o' ∧ rest = rest'
  | mk label below, mk label' below', rest, rest', depth, h, h', heq => by
    rw [entries, entries, List.cons_append, List.cons_append] at heq
    obtain ⟨hentry, hbelow⟩ := List.cons.inj heq
    obtain ⟨rfl, rfl⟩ := entriesAll_inj h h' hbelow
    rw [(Entry.mk.inj hentry).2]
    exact ⟨rfl, rfl⟩
/-- So do those of some outlines. -/
theorem entriesAll_inj : ∀ {os os' : List Outline} {rest rest' : List Entry} {depth : Nat},
    EndsBefore depth rest → EndsBefore depth rest' →
      entriesAll depth os ++ rest = entriesAll depth os' ++ rest' → os = os' ∧ rest = rest'
  | [], [], rest, rest', depth, h, h', heq => by
    rw [entriesAll] at heq
    exact ⟨rfl, heq⟩
  | [], o' :: os', rest, rest', depth, h, h', heq => by
    rw [entriesAll, entriesAll, List.nil_append, List.append_assoc] at heq
    exact absurd (heq ▸ h) (not_endsBefore_entries depth o' _)
  | o :: os, [], rest, rest', depth, h, h', heq => by
    rw [entriesAll, entriesAll, List.nil_append, List.append_assoc] at heq
    exact absurd (heq.symm ▸ h') (not_endsBefore_entries depth o _)
  | o :: os, o' :: os', rest, rest', depth, h, h', heq => by
    rw [entriesAll, entriesAll, List.append_assoc, List.append_assoc] at heq
    obtain ⟨rfl, hrest⟩ := entries_inj (endsBefore_entriesAll os h) (endsBefore_entriesAll os' h') heq
    obtain ⟨rfl, rfl⟩ := entriesAll_inj h h' hrest
    exact ⟨rfl, rfl⟩
end

/-! ## §4 Drawings -/

/-- A text begins with another character than a connector mark. -/
def BeginsPlainly (label : String) : Prop := ∃ c ∈ label.toList.head?, c ∉ connectorMarks

theorem BeginsPlainly.append {s : String} (h : BeginsPlainly s) (t : String) : BeginsPlainly (s ++ t) := by
  obtain ⟨c, hc, hmark⟩ := h
  obtain ⟨u, hu⟩ := List.head?_eq_some_iff.mp hc
  refine ⟨c, ?_, hmark⟩
  rw [String.toList_append, hu]
  rfl

/-- **`IsCaption`** — a label that can be told from the marks in front of it and from other lines. -/
structure IsCaption (label : String) : Prop where
  clean : IsClean label.toList
  head : BeginsPlainly label

theorem IsCaption.append {s t : String} (hs : IsCaption s) (ht : IsClean t.toList) : IsCaption (s ++ t) :=
  ⟨hs.clean.append_string ht, hs.head.append t⟩

/-- All labels of an outline are captions. -/
def Captioned (o : Outline) : Prop := ∀ depth, ∀ entry ∈ entries depth o, IsCaption entry.label

theorem mem_entriesAll {entry : Entry} {depth : Nat} {os : List Outline} :
    entry ∈ entriesAll depth os ↔ ∃ o ∈ os, entry ∈ entries depth o := by
  induction os with
  | nil => simp [entriesAll]
  | cons o os ih => simp [entriesAll, ih]

theorem captioned_mk {label : String} {below : List Outline} (h : IsCaption label)
    (hbelow : ∀ o ∈ below, o.Captioned) : (mk label below).Captioned := by
  intro depth
  rw [entries]
  refine List.forall_mem_cons.mpr ⟨h, fun entry hentry => ?_⟩
  obtain ⟨o, ho, hentry⟩ := mem_entriesAll.mp hentry
  exact hbelow o ho _ entry hentry

/-- The marks of a line end where its label begins. -/
theorem AreMarks.takeWhile_eq {depth : Nat} {marks : Text} {label : String} (h : AreMarks depth marks)
    (hlabel : IsCaption label) :
    (marks ++ label.toList).takeWhile (connectorMarks.contains ·) = marks := by
  obtain ⟨c, hc, hmark⟩ := hlabel.head
  obtain ⟨t, ht⟩ := List.head?_eq_some_iff.mp hc
  have hmarks : ∀ d ∈ marks, connectorMarks.contains d = true := fun d hd =>
    List.contains_iff_mem.mpr (h.2 d hd)
  have hhead : ¬connectorMarks.contains c = true := fun hcontains =>
    hmark (List.contains_iff_mem.mp hcontains)
  rw [List.takeWhile_append_of_pos hmarks, ht, List.takeWhile_cons_of_neg hhead, List.append_nil]

/-- A line shows one entry at most. -/
theorem Entry.IsLine.inj {entry entry' : Entry} {line : Text} (h : entry.IsLine line)
    (h' : entry'.IsLine line) (hlabel : IsCaption entry.label) (hlabel' : IsCaption entry'.label) :
    entry = entry' := by
  obtain ⟨depth, label⟩ := entry
  obtain ⟨depth', label'⟩ := entry'
  obtain ⟨marks, hmarks, rfl⟩ := h
  obtain ⟨marks', hmarks', heq⟩ := h'
  obtain rfl : marks = marks' := by
    rw [← hmarks.takeWhile_eq hlabel, heq, hmarks'.takeWhile_eq hlabel']
  have hdepth : 4 * depth = 4 * depth' := hmarks.1.symm.trans hmarks'.1
  rw [Entry.mk.injEq]
  exact ⟨by omega, String.toList_injective (List.append_cancel_left heq)⟩

/-- No line breaks off. -/
theorem Entry.IsLine.not_mem {entry : Entry} {line : Text} (h : entry.IsLine line)
    (hlabel : IsCaption entry.label) : '\n' ∉ line := by
  obtain ⟨marks, hmarks, rfl⟩ := h
  intro hmem
  rcases List.mem_append.mp hmem with hmem | hmem
  · exact absurd (hmarks.2 _ hmem) (by decide)
  · exact absurd (hlabel.clean _ hmem) (by decide)

/-- **`IsDrawing`** — a text shows outlines: its lines show their entries, one each and in order. -/
def IsDrawing (os : List Outline) (text : String) : Prop :=
  List.Forall₂ Entry.IsLine (entriesAll 0 os) (text.toList.splitOn '\n')

theorem isLine_flatMap (os : List Outline) :
    List.Forall₂ Entry.IsLine (entriesAll 0 os) ((os.flatMap lines).map String.toList) := by
  induction os with
  | nil =>
    rw [entriesAll]
    exact .nil
  | cons o os ih =>
    rw [entriesAll, List.flatMap_cons, List.map_append]
    exact List.rel_append (isLine_lines o) ih

theorem intercalate_append {α : Type} {sep : List α} {front back : List (List α)} (hfront : front ≠ [])
    (hback : back ≠ []) :
    sep.intercalate (front ++ back) = sep.intercalate front ++ sep ++ sep.intercalate back := by
  induction front with
  | nil => exact absurd rfl hfront
  | cons first front ih =>
    cases front with
    | nil =>
      rw [List.singleton_append, List.intercalate_cons_of_ne_nil hback, List.intercalate_singleton]
    | cons next front =>
      rw [List.cons_append, List.cons_append, List.intercalate_cons_cons, ← List.cons_append,
        ih (List.cons_ne_nil _ _), List.intercalate_cons_cons]
      simp only [List.append_assoc]

theorem lines_ne_nil (o : Outline) : o.lines.map String.toList ≠ [] := by
  cases o with
  | mk label below =>
    rw [lines]
    exact List.cons_ne_nil _ _

/-- Drawings one below the other have the lines of all of them. -/
theorem toList_intercalate_draw {os : List Outline} (hne : os ≠ []) :
    ("\n".intercalate (os.map draw)).toList =
      ['\n'].intercalate ((os.flatMap lines).map String.toList) := by
  have hdraw : ∀ o : Outline, o.draw.toList = ['\n'].intercalate (o.lines.map String.toList) :=
    fun o => String.toList_intercalate
  induction os with
  | nil => exact absurd rfl hne
  | cons o os ih =>
    cases os with
    | nil => rw [List.map_singleton, String.intercalate_singleton, hdraw, List.flatMap_singleton]
    | cons o' os =>
      have hrest : ((o' :: os).flatMap lines).map String.toList ≠ [] := by
        rw [List.flatMap_cons, List.map_append]
        exact List.append_ne_nil_of_left_ne_nil (lines_ne_nil o') _
      have hlines : ((o :: o' :: os).flatMap lines).map String.toList =
          o.lines.map String.toList ++ ((o' :: os).flatMap lines).map String.toList := by
        rw [List.flatMap_cons, List.map_append]
      rw [List.map_cons, List.map_cons, String.intercalate_cons_cons, ← List.map_cons,
        String.toList_append, String.toList_append, ih (List.cons_ne_nil _ _), hdraw, hlines,
        intercalate_append (lines_ne_nil o) hrest]
      rfl

/-- **Outlines are drawn line by line**, if their labels are captions. -/
theorem isDrawing_draw {os : List Outline} (hne : os ≠ []) (hcaptioned : ∀ o ∈ os, o.Captioned) :
    IsDrawing os ("\n".intercalate (os.map draw)) := by
  have hlines := isLine_flatMap os
  have hbreak : ∀ line ∈ (os.flatMap lines).map String.toList, '\n' ∉ line := by
    intro line hline
    obtain ⟨entry, hentry, hshows⟩ := Reading.exists_of_mem_right hlines hline
    obtain ⟨o, ho, hentry⟩ := mem_entriesAll.mp hentry
    exact hshows.not_mem (hcaptioned o ho _ entry hentry)
  have hlinesne : (os.flatMap lines).map String.toList ≠ [] := by
    obtain ⟨o, os, rfl⟩ := List.exists_cons_of_ne_nil hne
    rw [List.flatMap_cons, List.map_append]
    exact List.append_ne_nil_of_left_ne_nil (lines_ne_nil o) _
  rw [IsDrawing, toList_intercalate_draw hne, List.splitOn_intercalate _ hbreak hlinesne]
  exact hlines

/-- A text does not show two lists of entries. -/
theorem eq_of_forall₂_isLine {es es' : List Entry} {ts : List Text} (h : List.Forall₂ Entry.IsLine es ts)
    (h' : List.Forall₂ Entry.IsLine es' ts) (hes : ∀ entry ∈ es, IsCaption entry.label)
    (hes' : ∀ entry ∈ es', IsCaption entry.label) : es = es' := by
  induction h generalizing es' with
  | nil =>
    cases h'
    rfl
  | cons hline _ ih =>
    cases h' with
    | cons hline' h' =>
      obtain ⟨hlabel, hes⟩ := List.forall_mem_cons.mp hes
      obtain ⟨hlabel', hes'⟩ := List.forall_mem_cons.mp hes'
      rw [hline.inj hline' hlabel hlabel', ih h' hes hes']

variable {os os' : List Outline} {text : String}

theorem isCaption_of_captioned (h : ∀ o ∈ os, o.Captioned) (depth : Nat) :
    ∀ entry ∈ entriesAll depth os, IsCaption entry.label := by
  intro entry hentry
  obtain ⟨o, ho, hentry⟩ := mem_entriesAll.mp hentry
  exact h o ho depth entry hentry

/-- **A text shows one list of outlines at most.** -/
theorem IsDrawing.inj (h : IsDrawing os text) (h' : IsDrawing os' text) (hos : ∀ o ∈ os, o.Captioned)
    (hos' : ∀ o ∈ os', o.Captioned) : os = os' := by
  have hentries : entriesAll 0 os = entriesAll 0 os' :=
    eq_of_forall₂_isLine h h' (isCaption_of_captioned hos 0) (isCaption_of_captioned hos' 0)
  have hends : EndsBefore 0 [] := fun _ hentry => by cases hentry
  exact (entriesAll_inj hends hends (congrArg (· ++ []) hentries)).1

/-- An empty text shows nothing. -/
theorem not_isDrawing_empty (hne : os ≠ []) (hos : ∀ o ∈ os, o.Captioned) : ¬IsDrawing os "" := by
  intro h
  obtain ⟨⟨label, below⟩, os, rfl⟩ := List.exists_cons_of_ne_nil hne
  have hlabel : IsCaption label :=
    isCaption_of_captioned hos 0 ⟨0, label⟩ (by simp [entriesAll, entries])
  rw [IsDrawing, entriesAll, entries] at h
  cases h with
  | cons hline _ =>
    obtain ⟨marks, -, heq⟩ := hline
    obtain ⟨c, hc, -⟩ := hlabel.head
    rw [(List.append_eq_nil_iff.mp heq.symm).2] at hc
    cases hc

/-- **The drawings of outlines determine them**, if their labels are captions. -/
theorem eq_of_draw_eq (hos : ∀ o ∈ os, o.Captioned) (hos' : ∀ o ∈ os', o.Captioned)
    (h : "\n".intercalate (os.map draw) = "\n".intercalate (os'.map draw)) : os = os' := by
  have hempty : "\n".intercalate (([] : List Outline).map draw) = "" := by
    rw [List.map_nil, String.intercalate_nil]
  by_cases hne : os = []
  · subst hne
    by_contra hne'
    have hdrawing := isDrawing_draw (Ne.symm hne') hos'
    rw [← h, hempty] at hdrawing
    exact not_isDrawing_empty (Ne.symm hne') hos' hdrawing
  · have hdrawing := isDrawing_draw hne hos
    by_cases hne' : os' = []
    · subst hne'
      rw [h, hempty] at hdrawing
      exact absurd hdrawing (not_isDrawing_empty hne hos)
    · rw [h] at hdrawing
      exact hdrawing.inj (isDrawing_draw hne' hos') hos hos'

end Outline

namespace Expr

/-! ## §5 Expressions -/

open Outline

theorem isCaption_operatorLabel {form : String} (h : IsCaption form) (o : Operator) :
    IsCaption (operatorLabel form o) :=
  ((h.append (.of_all (by decide))).append o.op.clean_spelled).append (.of_all (by decide))

theorem isCaption_keywordLabel {form : String} (h : IsCaption form) (k : Keyword) :
    IsCaption (keywordLabel form k) :=
  ((h.append (.of_all (by decide))).append k.clean_spelling).append (.of_all (by decide))

theorem isCaption_blockLabel (kind : Delimiters) (base : Option Radix) :
    IsCaption (blockLabel kind base) := by
  have hlead : IsClean (base.elim [] Radix.lead) := by
    cases base with
    | none => exact .nil
    | some r => exact r.clean_lead
  have hblock : IsCaption "Block(" := ⟨.of_all (by decide), 'B', rfl, by decide⟩
  exact ((hblock.append hlead.ofList).append kind.clean_text).append (.of_all (by decide))

theorem isCaption_text (t : Text) : IsCaption ("Text(" ++ Quoted.quote t ++ ")") := by
  have htext : IsCaption "Text(" := ⟨.of_all (by decide), 'T', rfl, by decide⟩
  exact (htext.append (Quoted.clean_quote t)).append (.of_all (by decide))

/-- Every atom has the word for its kind in front. -/
theorem isCaption_atom {a : Atom} (h : a.IsLegible) : IsCaption a.label := by
  refine ⟨h, ?_⟩
  cases a with
  | identifier | integer => exact (BeginsPlainly.append ⟨'I', rfl, by decide⟩ _).append _
  | hashtag => exact (BeginsPlainly.append ⟨'H', rfl, by decide⟩ _).append _
  | real => exact (BeginsPlainly.append ⟨'R', rfl, by decide⟩ _).append _
  | string => exact (BeginsPlainly.append ⟨'S', rfl, by decide⟩ _).append _
  | basedString => exact (BeginsPlainly.append ⟨'B', rfl, by decide⟩ _).append _
  | operator => exact (BeginsPlainly.append ⟨'O', rfl, by decide⟩ _).append _
  | rangeMark => exact ⟨'R', rfl, by decide⟩
  | ellipsis => exact ⟨'E', rfl, by decide⟩
  | semicolon => exact ⟨'S', rfl, by decide⟩

theorem outlines_eq_map (es : List Expr) : outlines es = es.map outline := by
  induction es with
  | nil => rfl
  | cons e es ih => rw [outlines, ih, List.map_cons]

theorem captioned_pieceOutlines {pieces : List Piece}
    (h : ∀ e ∈ pieces.filterMap Piece.content?, e.outline.Captioned) :
    ∀ o ∈ pieceOutlines pieces, o.Captioned := by
  induction pieces with
  | nil => exact List.forall_mem_nil _
  | cons piece pieces ih =>
    cases piece with
    | text t =>
      rw [pieceOutlines]
      exact List.forall_mem_cons.mpr ⟨captioned_mk (isCaption_text t) (List.forall_mem_nil _), ih h⟩
    | hole e =>
      obtain ⟨he, hrest⟩ := List.forall_mem_cons.mp h
      rw [pieceOutlines]
      exact List.forall_mem_cons.mpr ⟨he, ih hrest⟩

theorem captioned_armOutlines {arms : List Arm} (h : ∀ e ∈ arms.flatMap Arm.parts, e.outline.Captioned) :
    ∀ o ∈ armOutlines arms, o.Captioned := by
  induction arms with
  | nil => exact List.forall_mem_nil _
  | cons arm arms ih =>
    obtain ⟨k, condition, clause⟩ := arm
    obtain ⟨hparts, hrest⟩ := List.forall_mem_append.mp h
    have hbelow : ∀ o ∈ [condition, clause].map outline, o.Captioned := List.forall_mem_map.mpr hparts
    have harm : IsCaption "Arm" := ⟨.of_all (by decide), 'A', rfl, by decide⟩
    rw [armOutlines]
    exact List.forall_mem_cons.mpr ⟨captioned_mk (isCaption_keywordLabel harm k) hbelow, ih hrest⟩

/-- **The labels of an expression are captions**, if its atoms are legible. -/
theorem captioned_outline {e : Expr} (h : e.Throughout (Holds Atom.IsLegible)) : e.outline.Captioned := by
  induction h with
  | @intro e here _ ih =>
    have hall : ∀ es : List Expr, (∀ part ∈ es, part.outline.Captioned) →
        ∀ o ∈ outlines es, o.Captioned := fun _ hes => by
      rw [outlines_eq_map]
      exact List.forall_mem_map.mpr hes
    -- Every label begins with a letter; only the text of an atom has characters of the source.
    cases e with
    | atom a span =>
      rw [outline]
      exact captioned_mk (isCaption_atom (here a rfl)) (List.forall_mem_nil _)
    | binary o l r span =>
      rw [outline]
      exact captioned_mk (isCaption_operatorLabel ⟨.of_all (by decide), 'B', rfl, by decide⟩ o)
        (hall [l, r] ih)
    | before o e span =>
      rw [outline]
      exact captioned_mk (isCaption_operatorLabel ⟨.of_all (by decide), 'P', rfl, by decide⟩ o)
        (hall [e] ih)
    | after o e span =>
      rw [outline]
      exact captioned_mk (isCaption_operatorLabel ⟨.of_all (by decide), 'P', rfl, by decide⟩ o)
        (hall [e] ih)
    | flat o es span =>
      rw [outline]
      exact captioned_mk (isCaption_operatorLabel ⟨.of_all (by decide), 'F', rfl, by decide⟩ o) (hall es ih)
    | ambiguous es span =>
      rw [outline]
      exact captioned_mk ⟨.of_all (by decide), 'A', rfl, by decide⟩ (hall es ih)
    | block kind base es span =>
      rw [outline]
      exact captioned_mk (isCaption_blockLabel kind base) (hall es ih)
    | escape es span =>
      rw [outline]
      exact captioned_mk ⟨.of_all (by decide), 'P', rfl, by decide⟩ (hall es ih)
    | istring pieces span =>
      rw [outline]
      exact captioned_mk ⟨.of_all (by decide), 'I', rfl, by decide⟩ (captioned_pieceOutlines ih)
    | flow arms otherwise span =>
      obtain ⟨harms, hotherwise⟩ := List.forall_mem_append.mp ih
      have harms := captioned_armOutlines harms
      have hflow : IsCaption "Flow" := ⟨.of_all (by decide), 'F', rfl, by decide⟩
      cases otherwise with
      | none =>
        rw [outline]
        exact captioned_mk hflow harms
      | some e =>
        rw [outline]
        refine captioned_mk hflow (List.forall_mem_append.mpr ⟨harms, List.forall_mem_singleton.mpr ?_⟩)
        exact captioned_mk ⟨.of_all (by decide), 'E', rfl, by decide⟩ (hall [e] hotherwise)
    | declare k e span =>
      rw [outline]
      exact captioned_mk (isCaption_keywordLabel ⟨.of_all (by decide), 'D', rfl, by decide⟩ k)
        (hall [e] ih)
    | keyword k target span =>
      have hkeyword : IsCaption (keywordLabel "Keyword" k) :=
        isCaption_keywordLabel ⟨.of_all (by decide), 'K', rfl, by decide⟩ k
      cases target with
      | none =>
        rw [outline]
        exact captioned_mk hkeyword (List.forall_mem_nil _)
      | some e =>
        rw [outline]
        exact captioned_mk hkeyword (hall [e] ih)

/-- Some expressions drawn one below the other. -/
def drawAll (es : List Expr) : String := "\n".intercalate (es.map draw)

end Expr

/-! ## §6 Sources -/

/-- Lines that are ended are lines with newlines between them, and one more behind the last. -/
theorem endedLines_eq (lines : List String) :
    endedLines lines = if lines = [] then "" else "\n".intercalate lines ++ "\n" := by
  cases lines with
  | nil => rfl
  | cons line lines =>
    rw [if_neg (List.cons_ne_nil _ _)]
    induction lines generalizing line with
    | nil => simp [endedLines]
    | cons next lines ih =>
      have hcons : endedLines (line :: next :: lines) = line ++ "\n" ++ endedLines (next :: lines) := by
        rw [endedLines, List.map_cons, String.join_cons]
        rfl
      rw [hcons, ih, String.intercalate_cons_cons, String.append_assoc, String.append_assoc,
        String.append_assoc]

/-- What is printed of a source that is parsed. -/
theorem Command.stdout_parse {path : String} {s : Source} {parsed : Parsed}
    (h : s.parse default = .ok parsed) (hname : s.name = some path) :
    (parse.outcome path s.text).stdout = endedLines (parsed.items.map Expr.draw) := by
  obtain ⟨text, name⟩ := s
  obtain rfl : name = some path := hname
  have hlisting : parse.listing ⟨text, some path⟩ =
      .ok ⟨parsed.items.map Expr.draw, parsed.loneReturns⟩ := by
    show (do
      let parsed ← Source.parse default ⟨text, some path⟩
      return (⟨parsed.items.map Expr.draw, parsed.loneReturns⟩ : Listing)) = _
    rw [h]
    rfl
  unfold outcome
  dsimp only
  rw [hlisting]
  rfl

/-- The labels of the expressions of a source are captions. -/
theorem Source.captioned_of_parse {config : ParseConfig} {s : Source} {parsed : Parsed}
    (h : s.parse config = .ok parsed) : ∀ e ∈ parsed.items, e.outline.Captioned :=
  fun e he => Expr.captioned_outline (legible_of_parse h e he)

open Outline in
/-- **The drawing of an expression determines its outline.** Its lines show the labels in preorder, each
behind four marks for every level above it; and so does what is printed of all expressions of a source. -/
theorem Source.outline_eq_of_draw_eq {config config' : ParseConfig} {s s' : Source} {parsed parsed' : Parsed}
    (h : s.parse config = .ok parsed) (h' : s'.parse config' = .ok parsed') :
    (∀ e ∈ parsed.items, IsDrawing [e.outline] e.draw) ∧
    (∀ e ∈ parsed.items, ∀ e' ∈ parsed'.items, e.draw = e'.draw → e.outline = e'.outline) ∧
    (parsed.items ≠ [] → IsDrawing (parsed.items.map Expr.outline) (Expr.drawAll parsed.items)) ∧
    (Expr.drawAll parsed.items = Expr.drawAll parsed'.items →
      parsed.items.map Expr.outline = parsed'.items.map Expr.outline) ∧
    ∀ path, config = default → s.name = some path → (Command.parse.outcome path s.text).stdout =
      if parsed.items = [] then "" else Expr.drawAll parsed.items ++ "\n" := by
  have hdraw : ∀ es : List Expr, Expr.drawAll es = "\n".intercalate ((es.map Expr.outline).map Outline.draw) :=
    fun es => congrArg _ (List.map_map ..).symm
  have hone : ∀ e : Expr, e.draw = "\n".intercalate ([e.outline].map Outline.draw) := fun e => by
    rw [List.map_singleton, String.intercalate_singleton]
    rfl
  have hcaptioned := captioned_of_parse h
  have hcaptioned' := captioned_of_parse h'
  refine ⟨fun e he => ?lines, fun e he e' he' heq => ?single, fun hne => ?list, fun heq => ?all,
    fun path hconfig hname => ?printed⟩
  case lines =>
    rw [hone]
    exact isDrawing_draw (List.cons_ne_nil _ _) (List.forall_mem_singleton.mpr (hcaptioned e he))
  case single =>
    rw [hone, hone] at heq
    exact List.singleton_inj.mp (eq_of_draw_eq (List.forall_mem_singleton.mpr (hcaptioned e he))
      (List.forall_mem_singleton.mpr (hcaptioned' e' he')) heq)
  case list =>
    rw [hdraw]
    exact isDrawing_draw (mt List.map_eq_nil_iff.mp hne) (List.forall_mem_map.mpr hcaptioned)
  case all =>
    rw [hdraw, hdraw] at heq
    exact eq_of_draw_eq (List.forall_mem_map.mpr hcaptioned) (List.forall_mem_map.mpr hcaptioned') heq
  case printed =>
    subst hconfig
    rw [Command.stdout_parse h hname, endedLines_eq]
    by_cases hnil : parsed.items = []
    · rw [if_pos hnil, if_pos (List.map_eq_nil_iff.mpr hnil)]
    · rw [if_neg hnil, if_neg (mt List.map_eq_nil_iff.mp hnil)]
      rfl

open Outline in
/-- The text of a string begins with a connector mark and holds a newline: it is drawn on one of four
lines, behind the marks of its own. -/
theorem Source.outline_eq_of_draw_eq_of_string :
    let s : Source := ⟨['"', '│', '\n', '\x7b', 'x', '\x7d', '"'], some "path"⟩
    ∃ parsed, s.parse default = .ok parsed ∧
      parsed.items.map (fun e => (entries 0 e.outline).map (·.depth)) = [[0, 1, 1, 2]] ∧
      (∀ e ∈ parsed.items, IsDrawing [e.outline] e.draw) ∧
      (Command.parse.outcome "path" s.text).stdout = Expr.drawAll parsed.items ++ "\n" := by
  intro s
  have hdepths : (s.parse default).toOption.map
      (·.items.map fun e => (entries 0 e.outline).map (·.depth)) = some [[0, 1, 1, 2]] := by
    decide +kernel
  obtain ⟨parsed, hparsed, hdepths⟩ := Option.map_eq_some_iff.mp hdepths
  have hparsed := toOption_eq_some_iff.mp hparsed
  have hne : parsed.items ≠ [] := fun hnil => by
    rw [hnil] at hdepths
    cases hdepths
  obtain ⟨hlines, -, -, -, hprinted⟩ := outline_eq_of_draw_eq hparsed hparsed
  exact ⟨parsed, hparsed, hdepths, hlines, (hprinted "path" rfl rfl).trans (if_neg hne)⟩

end DewyFront
