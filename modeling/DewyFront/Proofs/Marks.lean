/-
# DewyFront.Proofs.Marks — what the span of a node covers

A node covers its operands and the operators that stand in front of one or behind one. What these are
does not depend on how a list is reduced: it is told from the turns alone. So copies of a list that
differ in one node have nodes there that stand in the same place, and a node that is ambiguous stands
where each of its candidates does.

* §1 the marks of a tree;
* §2 the marks of a list;
* §3 nodes that stand where their marks do;
* §4 passes;
* §5 forks and merging.
-/
import DewyFront.Proofs.Narrowing

namespace DewyFront

/-! ## §1 Trees -/

namespace Expr

mutual
/-- **`marks`** — the operands of a tree from left to right, and the operators with one operand.
Candidates have the marks of the first of them. -/
def marks : Expr → List Slot
  | .binary _ l r _ => marks l ++ marks r
  | .before o e _ => .operator o :: marks e
  | .after o e _ => marks e ++ [.operator o]
  | .flat _ es _ => marksAll es
  | .ambiguous es _ => marksFirst es
  | e => [.node e]
/-- The marks of expressions, one after the other. -/
def marksAll : List Expr → List Slot
  | [] => []
  | e :: es => marks e ++ marksAll es
/-- The marks of the first of some expressions. -/
def marksFirst : List Expr → List Slot
  | [] => []
  | e :: _ => marks e
end

theorem marks_of_isOperand {e : Expr} (h : e.IsOperand) : e.marks = [.node e] := by
  cases e <;> first | (simp only [marks]; done) | cases h

end Expr

/-- Where a slot stands. -/
def Slot.span : Slot → Span
  | .node e => e.span
  | .operator o => o.span

namespace Reduction

/-- **`coverOf`** — the least span that covers some slots; nothing covers none. -/
def coverOf : List Slot → Option Span
  | [] => none
  | s :: rest => some ((coverOf rest).elim s.span s.span.merge)

variable {front back seg slots slots' : List Slot} {e : Expr} {o : Operator}

theorem coverOf_append {s t : Span} (hfront : coverOf front = some s) (hback : coverOf back = some t) :
    coverOf (front ++ back) = some (s.merge t) := by
  induction front generalizing s with
  | nil => cases hfront
  | cons slot front ih =>
    rw [List.cons_append, coverOf]
    cases hrest : coverOf front with
    | none =>
      have hnil : front = [] := by
        cases front with
        | nil => rfl
        | cons => cases hrest
      subst hnil
      cases hfront
      rw [List.nil_append, hback]
      rfl
    | some u =>
      rw [coverOf, hrest] at hfront
      cases hfront
      rw [ih hrest]
      exact congrArg some (Span.merge_assoc _ _ _).symm

theorem coverOf_marksAll {s : Span} {es : List Expr} (hfront : coverOf front = some s)
    (h : ∀ e ∈ es, coverOf e.marks = some e.span) :
    coverOf (front ++ Expr.marksAll es) = some (s.mergeAll (es.map Expr.span)) := by
  induction es generalizing front s with
  | nil => simpa [Expr.marksAll, Span.mergeAll] using hfront
  | cons e es ih =>
    have he := coverOf_append hfront (h e List.mem_cons_self)
    rw [Expr.marksAll, ← List.append_assoc, ih he fun c hc => h c (List.mem_cons_of_mem _ hc)]
    rfl

/-! ## §2 Lists -/

/-- **`marksFrom`** — the marks of slots. `wants` says that an operand has to come; then an operator
stands in front of one. -/
def marksFrom (wants : Bool) : List Slot → List Slot
  | [] => []
  | .node e :: rest => e.marks ++ marksFrom false rest
  | .operator o :: rest =>
    if wants then .operator o :: marksFrom true rest
    else if o.op.isBinary then marksFrom true rest
    else .operator o :: marksFrom false rest

/-- The marks of some slots come before those of the slots behind them. -/
theorem marksFrom_append {t u : Turn} (h : turnFrom t front = some u) (rest : List Slot) :
    marksFrom t.wants (front ++ rest) = marksFrom t.wants front ++ marksFrom u.wants rest := by
  induction front generalizing t with
  | nil =>
    cases h
    rfl
  | cons s front ih =>
    obtain ⟨v, hv, h⟩ := Option.bind_eq_some_iff.mp h
    have ih := ih h
    rw [List.cons_append]
    cases s with
    | node e =>
      have hend : v.wants = false := by
        obtain ⟨-, ⟨-, rfl⟩ | ⟨-, -, rfl⟩⟩ := Turn.wants_of_node hv <;> rfl
      rw [hend] at ih
      rw [marksFrom, marksFrom, ih, List.append_assoc]
    | operator o =>
      cases t with
      | done => cases hv
      | operand | closing =>
        obtain ⟨-, rfl⟩ := (Turn.next_operator_of_wants rfl).mp hv
        exact congrArg (Slot.operator o :: ·) ih
      | operator =>
        show marksFrom false _ = marksFrom false _ ++ _
        rw [marksFrom, marksFrom]
        rcases Turn.next_operator hv with ⟨hbinary, hwants⟩ | ⟨hbinary, -, rfl⟩
        · rw [hwants] at ih
          simpa [hbinary] using ih
        · have ih : marksFrom false (front ++ rest) = marksFrom false front ++ _ := ih
          simp [hbinary, ih]

/-- **Lists that differ in one node have the same marks only if the nodes have.** -/
theorem marks_eq_of_marksFrom {wants : Bool} {e f : Expr}
    (h : marksFrom wants (front ++ .node e :: back) = marksFrom wants (front ++ .node f :: back)) :
    e.marks = f.marks := by
  induction front generalizing wants with
  | nil => exact List.append_cancel_right h
  | cons s front ih =>
    rw [List.cons_append, List.cons_append] at h
    cases s with
    | node n => exact ih (List.append_cancel_left h)
    | operator o =>
      rw [marksFrom, marksFrom] at h
      split at h
      · exact ih (List.cons.inj h).2
      · split at h
        · exact ih h
        · exact ih (List.cons.inj h).2

/-! ## §3 Nodes -/

/-- **`Formed`** — a node stands where its marks do, and so does all that it stands for. Only a node
that is its own mark may be an atom. -/
structure Formed (e : Expr) : Prop where
  cover : coverOf e.marks = some e.span
  single : e.marks = [.node e] ∨ (2 ≤ e.marks.length ∧ e.atom? = none)
  even : Even e

theorem formed_of_isOperand (h : e.IsOperand) : Formed e := by
  refine ⟨?_, .inl (Expr.marks_of_isOperand h), fun e' he => ?_⟩
  · rw [Expr.marks_of_isOperand h]
    rfl
  · rw [Expr.variants_of_isOperand h, List.mem_singleton] at he
    rw [he]
    exact ⟨rfl, rfl⟩

theorem Formed.one_le_length (h : Formed e) : 1 ≤ e.marks.length := by
  rcases h.single with hmarks | ⟨htwo, -⟩
  · rw [hmarks]
    exact Nat.le_refl 1
  · omega

/-- All nodes of a list stand where their marks do. -/
abbrev FormedAll (slots : List Slot) : Prop := AllNodes Formed slots

theorem marksFrom_runSlots {wants : Bool} {first : Expr} {links : List (Operator × Expr)}
    (hbinary : ∀ q ∈ links, q.1.op.isBinary = true) (rest : List Slot) :
    marksFrom wants (runSlots first links ++ rest) =
      first.marks ++ Expr.marksAll (links.map Prod.snd) ++ marksFrom false rest := by
  induction links generalizing wants first with
  | nil => simp [runSlots, marksFrom, Expr.marksAll]
  | cons q links ih =>
    have ih : marksFrom true (runSlots q.2 links ++ rest) = _ :=
      ih fun p hp => hbinary p (List.mem_cons_of_mem _ hp)
    have hq := hbinary q List.mem_cons_self
    simp only [runSlots, List.flatMap_cons, List.cons_append, List.nil_append] at ih ⊢
    rw [marksFrom, marksFrom, if_neg Bool.false_ne_true, if_pos hq, ih]
    simp [Expr.marksAll]

theorem marksAll_append (es fs : List Expr) :
    Expr.marksAll (es ++ fs) = Expr.marksAll es ++ Expr.marksAll fs := by
  induction es with
  | nil => rfl
  | cons e es ih => rw [List.cons_append, Expr.marksAll, Expr.marksAll, ih, List.append_assoc]

/-- **A stretch is joined to a node with its marks.** -/
theorem marks_of_joins (h : Joins front back seg e) : e.marks = marksFrom true seg := by
  cases h with
  | @binary o l r hbinary _ _ _ => simp [binaryNode, Expr.marks, marksFrom, hbinary]
  | before => simp [Expr.marks, marksFrom]
  | @after o e hafter _ =>
    simp [Expr.marks, marksFrom, (Op.forms_of_isAfter hafter).1]
  | @flat o first last links hflat hsame _ _ _ _ =>
    have hbinary := Op.isBinary_of_isFlat hflat
    rw [marksFrom_runSlots fun q hq => by rw [hsame q hq]; exact hbinary]
    simp [Expr.marks, Expr.marksAll, marksAll_append, marksFrom, hbinary]

/-- **A stretch is joined to a node that stands where its marks do.** -/
theorem formed_of_joins (h : Joins front back seg e) (hseg : FormedAll seg) : Formed e := by
  have heven := even_of_combines h.combines
  cases h with
  | @binary o l r _ _ _ _ =>
    have hl := hseg l (by simp)
    have hr := hseg r (by simp)
    refine ⟨coverOf_append hl.cover hr.cover, .inr ⟨?_, rfl⟩, heven⟩
    have := hl.one_le_length
    have := hr.one_le_length
    simp only [binaryNode, Expr.marks, List.length_append]
    omega
  | @before o e _ _ _ =>
    have he := hseg e (by simp)
    refine ⟨?_, .inr ⟨?_, rfl⟩, heven⟩
    · rw [Expr.marks, coverOf, he.cover]
      rfl
    · have := he.one_le_length
      simp only [Expr.marks, List.length_cons]
      omega
  | @after o e _ _ =>
    have he := hseg e (by simp)
    refine ⟨coverOf_append he.cover rfl, .inr ⟨?_, rfl⟩, heven⟩
    have := he.one_le_length
    simp only [Expr.marks, List.length_append, List.length_singleton]
    omega
  | @flat o first last links _ _ _ _ _ _ =>
    have hfirst := hseg first (by simp [runSlots])
    have hlast := hseg last (by simp)
    have hrest : ∀ f ∈ links.map Prod.snd ++ [last], coverOf f.marks = some f.span := fun f hf =>
      (hseg f (node_mem_run o (List.mem_cons_of_mem _ hf))).cover
    refine ⟨?_, .inr ⟨?_, rfl⟩, heven⟩
    · exact coverOf_marksAll hfirst.cover hrest
    · have := hfirst.one_le_length
      have := hlast.one_le_length
      simp only [List.cons_append, Expr.marks, Expr.marksAll, marksAll_append, List.length_append]
      omega

/-! ## §4 Passes -/

/-- **Passes keep the marks of a list**, and its nodes stand where their marks do. -/
theorem Passes.marks {t : Turn} (h : Passes front slots slots') (ht : turnOf front = some t)
    (hc : Complete t slots) :
    marksFrom t.wants slots' = marksFrom t.wants slots := by
  induction h generalizing t with
  | nil => rfl
  | @keep front rest rest' s _ ih =>
    obtain ⟨u, hu, hrest⟩ := complete_cons.mp hc
    have ih := ih (by rw [turnOf_concat, ht]; exact hu) hrest
    have hone : turnFrom t [s] = some u := by
      rw [turnFrom, hu]
      rfl
    have hcons := marksFrom_append hone
    rw [← List.singleton_append, ← List.singleton_append (l := rest), hcons, hcons, ih]
  | @join front seg rest rest' e hjoins _ ih =>
    obtain ⟨u, hu, hrest⟩ := complete_append.mp hc
    obtain ⟨hwants, hend⟩ := hjoins.turn ht hu
    have ih := ih (by rw [turnOf_append, ht]; exact hu) hrest
    rw [marksFrom_append hu, marksFrom, marks_of_joins hjoins, hwants, ← ih, hend]

theorem Passes.formed (h : Passes front slots slots') (hformed : FormedAll slots) :
    FormedAll slots' := h.allNodes formed_of_joins hformed

end Reduction

namespace Reading

open Reduction

variable {slots next copy merged : List Slot}

/-- The marks of a list that is reduced. -/
abbrev marksOf (slots : List Slot) : List Slot := marksFrom true slots

/-- **Runs keep the marks of a list.** -/
theorem Runs.marks (h : Runs slots next) (hs : Shaped slots) : marksOf next = marksOf slots := by
  induction h with
  | refl => rfl
  | tail hruns hstep ih =>
    exact (hstep.passes.marks (t := .operand) rfl (Runs.shaped hruns hs)).trans ih

theorem Runs.formed (h : Runs slots next) (hformed : FormedAll slots) : FormedAll next :=
  h.keep (fun ha hstep => hstep.passes.formed ha) hformed

/-! ## §5 Forks and merging -/

/-- **A copy of a fork has the marks of the list.** -/
theorem marks_of_fork {place : Nat} {f : Fork} (hs : survey slots = .ok (.contested place))
    (h : fork slots place = .ok f) (hshaped : Shaped slots) (hcopy : copy ∈ f.copies) :
    marksOf copy = marksOf slots := by
  obtain ⟨front, back, m, rfl, hm, hcopies⟩ := fork_of_contested hs h
  rw [hcopies] at hcopy
  obtain ⟨r, hr, rfl⟩ := List.mem_map.mp hcopy
  obtain ⟨t, ht, hrest⟩ := complete_append.mp hshaped
  obtain ⟨u, hu, -⟩ := complete_cons.mp hrest
  have hskip : ∀ {n : Meanings}, Precedence.readings n ≠ [] →
      marksFrom t.wants (.operator ⟨.juxtapose n, f.site⟩ :: back) = marksFrom true back := by
    intro n hn
    have hbinary := Op.isBinary_juxtapose hn
    rw [next_juxtapose (by simp [hm])] at hu
    split at hu
    · next ht =>
      subst ht
      show marksFrom false _ = _
      rw [marksFrom, if_neg Bool.false_ne_true, if_pos hbinary]
    · cases hu
  have hr' := Op.readings_ne_nil_of_mem_readings hr
  show marksFrom Turn.operand.wants _ = marksFrom Turn.operand.wants _
  rw [marksFrom_append ht, marksFrom_append ht, hskip hr', hskip (by simp [hm])]

/-- Candidates that are all the same are one. -/
theorem foldl_addNew_of_eq {e : Expr} {nodes : List Expr} (h : ∀ n ∈ nodes, n = e) :
    nodes.foldl addNew [e] = [e] := by
  induction nodes with
  | nil => rfl
  | cons n nodes ih =>
    have hn : addNew [e] n = [e] := by
      rw [h n List.mem_cons_self, addNew, if_pos (List.mem_singleton_self e)]
    rw [List.foldl_cons, hn]
    exact ih fun c hc => h c (List.mem_cons_of_mem _ hc)

/-- The span that covers some that are the same. -/
theorem mergeAll_of_eq {s : Span} {ts : List Span} (h : ∀ t ∈ ts, t = s) : s.mergeAll ts = s := by
  induction ts with
  | nil => rfl
  | cons t ts ih =>
    have ht : s.merge t = s := by
      rw [h t List.mem_cons_self]
      simp [Span.merge]
    rw [Span.mergeAll, List.foldl_cons, ht]
    exact ih fun u hu => h u (List.mem_cons_of_mem _ hu)

/-- **Candidates with the same marks are one node that stands where they do.** -/
theorem formed_ambiguousOf (site : Span) {nodes : List Expr} (hne : nodes ≠ [])
    (hformed : ∀ n ∈ nodes, Formed n) (hmarks : ∀ n ∈ nodes, ∀ c ∈ nodes, n.marks = c.marks) :
    Formed (ambiguousOf site (nodes.foldl addNew [])) := by
  obtain ⟨n, hn⟩ := List.exists_mem_of_ne_nil _ hne
  have hmem : ∀ c, c ∈ nodes.foldl addNew [] ↔ c ∈ nodes := fun _ => mem_foldl_addNew_nil
  -- Nodes with the same marks cover the same span.
  have hspan : ∀ c ∈ nodes, c.span = n.span := by
    intro c hc
    have hcover := (hformed c hc).cover
    rw [hmarks c hc n hn, (hformed n hn).cover] at hcover
    exact (Option.some.inj hcover).symm
  rcases ambiguousOf_cases site (List.ne_nil_of_mem ((hmem n).mpr hn)) with
    ⟨e, he, heq⟩ | ⟨e, rest, he, heq⟩
  · rw [heq]
    exact hformed e ((hmem e).mp (he ▸ List.mem_cons_self))
  · have hemem := (hmem e).mp (he ▸ List.mem_cons_self)
    have hrest : ∀ c ∈ rest, c.span = e.span := by
      intro c hc
      rw [hspan c ((hmem c).mp (he ▸ List.mem_cons_of_mem _ hc)), hspan e hemem]
    have hcover : Expr.spanOfAll e rest = e.span := by
      refine mergeAll_of_eq fun t ht => ?_
      obtain ⟨c, hc, rfl⟩ := List.mem_map.mp ht
      exact hrest c hc
    rcases (hformed e hemem).single with hsingle | ⟨htwo, hatom⟩
    · -- an operand is the only tree with its marks
      have hall : ∀ c ∈ nodes, c = e := by
        intro c hc
        have hce := hmarks c hc e hemem
        rcases (hformed c hc).single with hc' | ⟨htwo, -⟩
        · rw [hsingle, hc'] at hce
          exact Slot.node.inj (List.cons.inj hce).1
        · rw [hce, hsingle] at htwo
          simp at htwo
      cases nodes with
      | nil => exact absurd rfl hne
      | cons c nodes =>
        have hone : (c :: nodes).foldl addNew [] = [e] := by
          rw [List.foldl_cons, hall c List.mem_cons_self]
          exact foldl_addNew_of_eq fun d hd => hall d (List.mem_cons_of_mem _ hd)
        rw [hone]
        exact hformed e hemem
    · rw [heq, he, hcover]
      refine ⟨(hformed e hemem).cover, .inr ⟨htwo, rfl⟩, fun e' he' => ?_⟩
      obtain ⟨c, hc, he'⟩ := Expr.mem_variants_ambiguous.mp he'
      have hcmem := (hmem c).mp (he ▸ hc)
      obtain ⟨hs, ha⟩ := (hformed c hcmem).even e' he'
      refine ⟨by rw [hs, hspan c hcmem, ← hspan e hemem]; rfl, ?_⟩
      rcases (hformed c hcmem).single with hsingle | ⟨-, hnone⟩
      · rw [hmarks e hemem c hcmem, hsingle] at htwo
        simp at htwo
      · rw [ha, hnone]
        rfl

/-- **The nodes of a merged list stand where their marks do**, as the copies have the same marks. -/
theorem formed_of_merge {limit : Nat} {site : Span} {copies : List (List Slot)}
    {marks : List Slot} (h : merge limit site copies = .ok (some merged))
    (hformed : ∀ copy ∈ copies, FormedAll copy) (hmarks : ∀ copy ∈ copies, marksOf copy = marks) :
    FormedAll merged := by
  refine allNodes_of_merge h hformed fun front nodes back heq hne hnodes _ => ?_
  subst heq
  refine formed_ambiguousOf site hne hnodes fun c hc d hd => ?_
  exact marks_eq_of_marksFrom ((hmarks _ (List.mem_map_of_mem hc)).trans
    (hmarks _ (List.mem_map_of_mem hd)).symm)

end Reading

end DewyFront
