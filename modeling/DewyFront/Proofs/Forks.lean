/-
# DewyFront.Proofs.Forks — copies of a list, and the readings they lead to

A fork replaces one contested juxtaposition by one that is settled, so every copy has the shape of the
list and fewer juxtapositions to contest its operands. Copies that are merged are the same but for
one node. How a list leads to its readings is told as a relation: by a run that settles, by merged
copies, or by copies read apart.

* §1 the levels of a reading;
* §2 forks;
* §3 merging;
* §4 readings as a relation;
* §5 readings without faults.
-/
import DewyFront.Proofs.Runs

namespace DewyFront

open Precedence

/-! ## §1 Levels -/

namespace Op

/-- A juxtaposition that keeps the meanings of one row sits in that row. -/
theorem levels_of_mem_readings {m : Meanings} {r : Nat × Meanings} (h : r ∈ readings m) :
    (juxtapose r.2).levels = [⟨r.1, .left⟩] := by
  obtain ⟨call, index, multiply⟩ := m
  simp only [readings, List.mem_append] at h
  rcases h with h | h <;> split at h <;>
    simp only [List.mem_cons, List.not_mem_nil, or_false] at h <;> subst h
  · rename_i hu
    simp only [Meanings.hasUpper] at hu
    simp [levels, readings, Meanings.hasUpper, Meanings.hasLower, Meanings.upper, hu]
  · rename_i hl
    simp only [Meanings.hasLower] at hl
    simp [levels, readings, Meanings.hasUpper, Meanings.hasLower, Meanings.lower, hl]

theorem readings_ne_nil_of_mem_readings {m : Meanings} {r : Nat × Meanings} (h : r ∈ readings m) :
    readings r.2 ≠ [] := by
  intro hnil
  have := levels_of_mem_readings h
  simp [levels, hnil] at this

theorem isBinary_juxtapose {m : Meanings} (h : readings m ≠ []) :
    (juxtapose m).isBinary = true := by
  obtain ⟨r, hr⟩ := List.exists_mem_of_ne_nil _ h
  exact isBinary_iff.mpr ⟨⟨r.1, .left⟩, List.mem_map.mpr ⟨r, hr, rfl⟩, rfl⟩

theorem not_holdsContested_of_mem_readings {m : Meanings} {r : Nat × Meanings}
    (h : r ∈ readings m) : (juxtapose r.2).holdsContested = false := by
  refine Bool.eq_false_iff.mpr fun hc => ?_
  rw [holdsContested_iff, levels_of_mem_readings h] at hc
  simp at hc

/-- A contested operator is a juxtaposition with a reading on each level. -/
theorem juxtapose_of_isContested {op : Op} (h : op.isContested = true) :
    ∃ m, op = .juxtapose m ∧ readings m = [(callRow, m.upper), (productRow, m.lower)] := by
  cases op with
  | juxtapose m =>
    rw [isContested_juxtapose, Bool.and_eq_true] at h
    exact ⟨m, rfl, by simp [readings, h.1, h.2]⟩
  | _ => cases h

end Op

namespace Reduction

/-- A juxtaposition with a meaning stands between operands. -/
theorem next_juxtapose {m : Meanings} (hm : readings m ≠ []) (t : Turn) (s : Span) :
    t.next (.operator ⟨.juxtapose m, s⟩) = if t = .operator then some .operand else none := by
  have hbinary := Op.isBinary_juxtapose hm
  have hbefore : (Op.juxtapose m).isBefore = false := by
    simp [Op.isBefore, Op.levels]
  cases t <;> simp [Turn.next, hbinary, hbefore]

end Reduction

namespace Reading

open Reduction

/-! ## §2 Forks -/

variable {slots : List Slot} {place limit : Nat} {f : Fork}

/-- A fork at a place where a survey ends is made. -/
theorem fork_ok (h : survey slots = .ok (.contested place)) : ∃ f, fork slots place = .ok f := by
  obtain ⟨⟨op, span⟩, ho, hc⟩ := survey_contested h
  obtain ⟨m, rfl, -⟩ := Op.juxtapose_of_isContested hc
  rw [fork, ho]
  exact ⟨_, rfl⟩

theorem fork_faultless (h : survey slots = .ok (.contested place)) :
    Faultless (fork slots place) := by
  obtain ⟨f, hf⟩ := fork_ok h
  rw [hf]
  exact Faultless.ok _

/-- **A contested survey forks into two copies**, one for each level of a juxtaposition. -/
theorem fork_of_contested (hs : survey slots = .ok (.contested place))
    (h : fork slots place = .ok f) :
    ∃ front back m, slots = front ++ .operator ⟨.juxtapose m, f.site⟩ :: back ∧
      Precedence.readings m = [(callRow, m.upper), (productRow, m.lower)] ∧
      f.copies = (Precedence.readings m).map fun r =>
        front ++ .operator ⟨.juxtapose r.2, f.site⟩ :: back := by
  obtain ⟨⟨op, span⟩, ho, hc⟩ := survey_contested hs
  obtain ⟨m, rfl, hm⟩ := Op.juxtapose_of_isContested hc
  rw [fork, ho] at h
  cases h
  obtain ⟨hlt, hget⟩ := List.getElem?_eq_some_iff.mp ho
  refine ⟨slots.take place, slots.drop (place + 1), m, ?_, hm, ?_⟩
  · rw [← hget, List.getElem_cons_drop, List.take_append_drop]
  · simp only [List.set_eq_take_append_cons_drop, hlt, if_true]

/-- **The copies of a fork keep the shape of the list**, and they have fewer juxtapositions to
contest their operands. -/
theorem copy_of_contested (hs : survey slots = .ok (.contested place)) (h : fork slots place = .ok f)
    {copy : List Slot} (hcopy : copy ∈ f.copies) :
    (Shaped slots → Shaped copy) ∧ (Bare slots → Bare copy) ∧
      contestable copy < contestable slots := by
  obtain ⟨front, back, m, rfl, hm, hcopies⟩ := fork_of_contested hs h
  rw [hcopies] at hcopy
  obtain ⟨r, hr, rfl⟩ := List.mem_map.mp hcopy
  have hsettled := Op.not_holdsContested_of_mem_readings hr
  refine ⟨fun hshaped => ?_, fun hbare o ho => ?_, ?_⟩
  · have hm' : Precedence.readings m ≠ [] := by simp [hm]
    have hr' := Op.readings_ne_nil_of_mem_readings hr
    obtain ⟨t, ht, hback⟩ := complete_append.mp hshaped
    obtain ⟨u, hu, hback⟩ := complete_cons.mp hback
    rw [next_juxtapose hm', ← next_juxtapose hr'] at hu
    exact complete_append.mpr ⟨t, ht, complete_cons.mpr ⟨u, hu, hback⟩⟩
  · simp only [List.mem_append, List.mem_cons, Slot.operator.injEq] at ho
    rcases ho with ho | rfl | ho
    · exact hbare o (List.mem_append_left _ ho)
    · intro hc
      rw [hsettled] at hc
      cases hc
    · exact hbare o (List.mem_append_right _ (List.mem_cons_of_mem _ ho))
  · have hcontested : (Op.juxtapose m).isContested = true := by
      simp [Op.isContested, hm]
    have hnot : (Op.juxtapose r.2).isContested = false := by
      refine Bool.eq_false_iff.mpr fun hc => ?_
      rw [Op.holdsContested_of_isContested hc] at hsettled
      cases hsettled
    simp only [contestable, List.countP_append, List.countP_cons, Slot.operator?, Option.any_some,
      hcontested, hnot, if_true, Bool.false_eq_true, if_false]
    omega

/-- A copy has the nodes of the list. -/
theorem allNodes_of_fork {P : Expr → Prop} (hs : survey slots = .ok (.contested place))
    (h : fork slots place = .ok f) (hall : AllNodes P slots) {copy : List Slot} (hcopy : copy ∈ f.copies) :
    AllNodes P copy := by
  obtain ⟨front, back, m, rfl, -, hcopies⟩ := fork_of_contested hs h
  rw [hcopies] at hcopy
  obtain ⟨r, -, rfl⟩ := List.mem_map.mp hcopy
  intro e he
  apply hall
  simpa using he

theorem exists_of_mem_right {α β : Type} {R : α → β → Prop} {as : List α} {bs : List β} {b : β}
    (h : List.Forall₂ R as bs) (hb : b ∈ bs) : ∃ a ∈ as, R a b := by
  induction h with
  | nil => cases hb
  | @cons a c as bs hac _ ih =>
    rcases List.mem_cons.mp hb with rfl | hb
    · exact ⟨a, List.mem_cons_self, hac⟩
    · obtain ⟨a', ha', hr⟩ := ih hb
      exact ⟨a', List.mem_cons_of_mem _ ha', hr⟩

/-- Every copy is run. -/
theorem run_of_runAll {copies lasts : List (List Slot)} (h : runAll copies = .ok lasts) :
    List.Forall₂ (fun copy last => ∃ place, run copy = .ok ⟨last, place⟩) copies lasts := by
  induction copies generalizing lasts with
  | nil =>
    cases h
    exact .nil
  | cons copy copies ih =>
    obtain ⟨⟨last, place⟩, hrun, h⟩ := bind_ok_iff.mp h
    obtain ⟨rest, hrest, h⟩ := bind_ok_iff.mp h
    cases h
    exact .cons ⟨place, hrun⟩ (ih hrest)

theorem runAll_ok {copies lasts : List (List Slot)} (h : runAll copies = .ok lasts) :
    List.Forall₂ Runs copies lasts :=
  (run_of_runAll h).imp fun _ _ ⟨_, hrun⟩ => (run_ok hrun).1

theorem runAll_faultless {copies : List (List Slot)}
    (h : ∀ copy ∈ copies, Shaped copy ∧ Bare copy) : Faultless (runAll copies) := by
  induction copies with
  | nil => exact Faultless.ok _
  | cons copy copies ih =>
    obtain ⟨hs, hb⟩ := h copy List.mem_cons_self
    exact Faultless.bind (run_faultless hs hb) fun _ _ =>
      Faultless.bind (ih fun c hc => h c (List.mem_cons_of_mem _ hc)) fun _ _ => Faultless.ok _

/-! ## §3 Merging -/

variable {site : Span} {first copy merged : List Slot} {others copies : List (List Slot)}

/-- Where the first copy does not differ, the others agree with it. -/
theorem agree_of_differences {i : Nat} (hi : i < first.length)
    (hd : ∀ s, (s, i) ∉ differences first others) (hcopy : copy ∈ others) :
    copy[i]? = first[i]? := by
  by_contra hne
  have hget := List.getElem?_eq_getElem hi
  refine hd first[i] (List.mem_filter.mpr ⟨List.mk_mem_zipIdx_iff_getElem?.mpr hget, ?_⟩)
  rw [List.any_eq_true]
  refine ⟨copy, hcopy, ?_⟩
  rw [hget] at hne
  simpa using hne

/-- Copies without differences are the same. -/
theorem eq_of_differences_nil (hlen : copy.length = first.length)
    (hd : differences first others = []) (hcopy : copy ∈ others) : copy = first := by
  refine List.ext_getElem? fun i => ?_
  rcases Nat.lt_or_ge i first.length with hi | hi
  · exact agree_of_differences hi (by simp [hd]) hcopy
  · rw [List.getElem?_eq_none hi, List.getElem?_eq_none (hlen ▸ hi)]

/-- A copy with a single difference is the first copy with another slot there. -/
theorem eq_set_of_differences {s x : Slot} {place : Nat} (hlen : copy.length = first.length)
    (hd : differences first others = [(s, place)]) (hcopy : copy ∈ others)
    (hx : copy[place]? = some x) : copy = first.set place x := by
  refine List.ext_getElem? fun i => ?_
  obtain ⟨hplace, -⟩ := List.getElem?_eq_some_iff.mp hx
  rw [List.getElem?_set]
  split
  · rename_i hi
    subst hi
    rw [if_pos (hlen ▸ hplace), hx]
  · rename_i hi
    rcases Nat.lt_or_ge i first.length with hlt | hge
    · refine agree_of_differences hlt (fun c hc => ?_) hcopy
      rw [hd, List.mem_singleton, Prod.mk.injEq] at hc
      exact hi hc.2.symm
    · rw [List.getElem?_eq_none hge, List.getElem?_eq_none (hlen ▸ hge)]

theorem nodesAt_ok {place : Nat} {nodes : List Expr} (h : nodesAt place copies = some nodes) :
    List.Forall₂ (fun copy e => copy[place]? = some (.node e)) copies nodes := by
  induction copies generalizing nodes with
  | nil =>
    cases h
    exact .nil
  | cons copy copies ih =>
    simp only [nodesAt, bind, Option.bind_eq_some_iff, pure, Option.some.injEq] at h
    obtain ⟨e, ⟨s, hs, he⟩, rest, hrest, rfl⟩ := h
    refine .cons ?_ (ih hrest)
    cases s with
    | operator o => cases he
    | node n =>
      cases he
      exact hs

theorem eq_map_of_forall₂ {α β : Type} {R : α → β → Prop} {as : List α} {bs : List β} {g : β → α}
    (h : List.Forall₂ R as bs) (hg : ∀ a ∈ as, ∀ b, R a b → a = g b) : as = bs.map g := by
  induction h with
  | nil => rfl
  | @cons a b as bs hab _ ih =>
    rw [List.map_cons, ← hg a List.mem_cons_self b hab,
      ← ih fun c hc => hg c (List.mem_cons_of_mem _ hc)]

/-- **Copies that are merged are all the same, or the same but for a node**, and the merged list
holds the different ones as candidates, no more of them than there may be. -/
theorem merge_within (h : merge limit site copies = .ok (some merged)) :
    copies ≠ [] ∧ ((∀ copy ∈ copies, copy = merged) ∨
      ∃ (front : List Slot) (nodes : List Expr) (back : List Slot),
        copies = nodes.map (fun e => front ++ .node e :: back) ∧
        merged = front ++ .node (ambiguousOf site (nodes.foldl addNew [])) :: back ∧
        (nodes.foldl addNew []).length ≤ limit) := by
  cases copies with
  | nil => cases h
  | cons first others =>
    refine ⟨by simp, ?_⟩
    unfold merge at h
    dsimp only at h
    split at h
    · cases h
    · rename_i hlen
      have hlen : ∀ copy ∈ others, copy.length = first.length := by simpa using hlen
      split at h
      · rename_i hd
        cases h
        -- No copy differs from the first.
        left
        intro copy hcopy
        rcases List.mem_cons.mp hcopy with rfl | hcopy
        · rfl
        · exact eq_of_differences_nil (hlen copy hcopy) hd hcopy
      · rename_i s place hd
        split at h
        · cases h
        · rename_i nodes hnodes
          split at h
          · cases h
          · next hwithin =>
            cases h
            -- The copies differ at one place only, where each of them has a node.
            right
            have hall := nodesAt_ok hnodes
            have hplace : place < first.length := by
              cases hall with
              | cons hfirst _ => exact (List.getElem?_eq_some_iff.mp hfirst).1
            have hset : ∀ x, first.set place x =
                first.take place ++ x :: first.drop (place + 1) := fun x => by
              rw [List.set_eq_take_append_cons_drop, if_pos hplace]
            refine ⟨first.take place, nodes, first.drop (place + 1), ?_, hset _,
              Nat.le_of_not_lt hwithin⟩
            have hsame : ∀ copy ∈ first :: others, ∀ e, copy[place]? = some (.node e) →
                copy = first.take place ++ .node e :: first.drop (place + 1) := by
              intro copy hcopy e he
              rw [← hset]
              rcases List.mem_cons.mp hcopy with rfl | hcopy
              · refine List.ext_getElem? fun i => ?_
                rw [List.getElem?_set]
                split
                · rename_i hi
                  rw [← hi, he]
                · rfl
              · exact eq_set_of_differences (hlen copy hcopy) hd hcopy he
            exact eq_map_of_forall₂ hall hsame
      · cases h

theorem merge_ok (h : merge limit site copies = .ok (some merged)) :
    copies ≠ [] ∧ ((∀ copy ∈ copies, copy = merged) ∨
      ∃ (front : List Slot) (nodes : List Expr) (back : List Slot),
        copies = nodes.map (fun e => front ++ .node e :: back) ∧
        merged = front ++ .node (ambiguousOf site (nodes.foldl addNew [])) :: back) := by
  obtain ⟨hne, hsame | ⟨front, nodes, back, hcopies, hmerged, -⟩⟩ := merge_within h
  · exact ⟨hne, .inl hsame⟩
  · exact ⟨hne, .inr ⟨front, nodes, back, hcopies, hmerged⟩⟩

theorem merge_faultless (limit : Nat) (site : Span) (copies : List (List Slot)) :
    Faultless (merge limit site copies) := by
  unfold merge
  split
  · exact Faultless.ok _
  · split
    · exact Faultless.ok _
    · split
      · exact Faultless.ok _
      · split
        · exact Faultless.ok _
        · dsimp only
          split
          · exact Faultless.refuse _
          · exact Faultless.ok _
      · exact Faultless.ok _

theorem mem_foldl_addNew {found nodes : List Expr} {e : Expr} :
    e ∈ nodes.foldl addNew found ↔ e ∈ found ∨ e ∈ nodes := by
  induction nodes generalizing found with
  | nil => simp
  | cons n nodes ih =>
    rw [List.foldl_cons, ih, List.mem_cons, addNew]
    split
    · rename_i hn
      constructor
      · rintro (h | h)
        · exact .inl h
        · exact .inr (.inr h)
      · rintro (h | rfl | h)
        · exact .inl h
        · exact .inl hn
        · exact .inr h
    · rw [List.mem_append, List.mem_singleton, or_assoc]

theorem mem_foldl_addNew_nil {nodes : List Expr} {e : Expr} : e ∈ nodes.foldl addNew [] ↔ e ∈ nodes :=
  mem_foldl_addNew.trans (or_iff_right List.not_mem_nil)

theorem foldl_addNew_ne_nil {nodes : List Expr} (hne : nodes ≠ []) : nodes.foldl addNew [] ≠ [] := by
  obtain ⟨e, he⟩ := List.exists_mem_of_ne_nil nodes hne
  exact List.ne_nil_of_mem (mem_foldl_addNew_nil.mpr he)

/-- Candidates as one node: a single one stands for itself. -/
theorem ambiguousOf_cases {candidates : List Expr} (site : Span) (hne : candidates ≠ []) :
    (∃ e, candidates = [e] ∧ ambiguousOf site candidates = e) ∨
      ∃ e rest, candidates = e :: rest ∧
        ambiguousOf site candidates = .ambiguous candidates (Expr.spanOfAll e rest) := by
  match candidates, hne with
  | [e], _ => exact .inl ⟨e, rfl, rfl⟩
  | e :: f :: rest, _ => exact .inr ⟨e, f :: rest, rfl, rfl⟩

/-- **Merging keeps what holds of the nodes of every copy**, if it holds of the candidates put together. -/
theorem allNodes_of_merge {P : Expr → Prop} (h : merge limit site copies = .ok (some merged))
    (hs : ∀ copy ∈ copies, AllNodes P copy)
    (hP : ∀ front nodes back, copies = nodes.map (fun e => front ++ .node e :: back) → nodes ≠ [] →
      (∀ e ∈ nodes, P e) → (nodes.foldl addNew []).length ≤ limit →
        P (ambiguousOf site (nodes.foldl addNew []))) : AllNodes P merged := by
  obtain ⟨hne, hall | ⟨front, nodes, back, rfl, rfl, hwithin⟩⟩ := merge_within h
  · obtain ⟨copy, hcopy⟩ := List.exists_mem_of_ne_nil _ hne
    exact hall copy hcopy ▸ hs copy hcopy
  · have hnodes : nodes ≠ [] := by simpa using hne
    have hcopy : ∀ e ∈ nodes, AllNodes P (front ++ .node e :: back) := fun e he =>
      hs _ (List.mem_map_of_mem he)
    obtain ⟨n, hn⟩ := List.exists_mem_of_ne_nil nodes hnodes
    intro e he
    simp only [List.mem_append, List.mem_cons, Slot.node.injEq] at he
    rcases he with he | rfl | he
    · exact hcopy n hn e (List.mem_append_left _ he)
    · refine hP front nodes back rfl hnodes (fun c hc => ?_) hwithin
      exact hcopy c hc c (List.mem_append_right _ List.mem_cons_self)
    · exact hcopy n hn e (List.mem_append_right _ (List.mem_cons_of_mem _ he))

/-- **What merging keeps**: the shape, the operators and how many of them may be contested. -/
theorem merged_keeps (h : merge limit site copies = .ok (some merged)) :
    ((∀ copy ∈ copies, Shaped copy) → Shaped merged) ∧
    (∃ copy ∈ copies, (∀ o, .operator o ∈ merged → .operator o ∈ copy) ∧
      contestable merged = contestable copy) := by
  obtain ⟨hne, hall | ⟨front, nodes, back, rfl, rfl⟩⟩ := merge_ok h
  · obtain ⟨copy, hcopy⟩ := List.exists_mem_of_ne_nil _ hne
    rw [← hall copy hcopy]
    exact ⟨fun hs => hs copy hcopy, copy, hcopy, fun _ ho => ho, rfl⟩
  · have hnodes : nodes ≠ [] := by simpa using hne
    obtain ⟨n, hn⟩ := List.exists_mem_of_ne_nil _ hnodes
    have hcandidates : nodes.foldl addNew [] ≠ [] := foldl_addNew_ne_nil hnodes
    refine ⟨fun hs => ?_, front ++ .node n :: back, List.mem_map.mpr ⟨n, hn, rfl⟩, ?_, ?_⟩
    · rcases ambiguousOf_cases site hcandidates with ⟨e, he, heq⟩ | ⟨e, rest, -, heq⟩
      · rw [heq]
        have hmem : e ∈ nodes := mem_foldl_addNew_nil.mp (he ▸ List.mem_cons_self)
        exact hs _ (List.mem_map.mpr ⟨e, hmem, rfl⟩)
      · rw [heq]
        -- an ambiguous node is no semicolon, and nothing stands behind one
        obtain ⟨t, ht, hrest⟩ := complete_append.mp (hs _ (List.mem_map.mpr ⟨n, hn, rfl⟩))
        obtain ⟨u, hu, hback⟩ := complete_cons.mp hrest
        obtain ⟨hwants, hcases⟩ := Turn.wants_of_node hu
        refine complete_append.mpr ⟨t, ht, complete_cons.mpr ⟨.operator, ?_, ?_⟩⟩
        · exact Turn.next_node hwants rfl
        · obtain ⟨-, rfl⟩ | ⟨-, -, rfl⟩ := hcases
          · exact hback
          · rw [eq_nil_of_complete_done hback]
            exact .nil rfl
    · intro o ho
      simpa using ho
    · simp [contestable, List.countP_append, Slot.operator?]

/-! ## §4 Readings -/

/-- **`Leads`** — a list leads to its readings: a run ends with one node, or copies are merged and read
on, or every copy is read by itself. -/
inductive Leads (limit : Nat) : List Slot → List Expr → Prop
  | settled {slots : List Slot} {e : Expr} (hruns : Runs slots [.node e])
      (hends : Ends [.node e] none) : Leads limit slots [e]
  | merged {slots last merged : List Slot} {place : Nat} {f : Fork} {copies : List (List Slot)}
      {found : List Expr} (hruns : Runs slots last)
      (hcontested : survey last = .ok (.contested place)) (hfork : fork last place = .ok f)
      (hcopies : List.Forall₂ Runs f.copies copies)
      (hmerge : merge limit f.site copies = .ok (some merged)) (h : Leads limit merged found) :
      Leads limit slots found
  | apart {slots last : List Slot} {place : Nat} {f : Fork}
      {results : List (List Slot × List Expr)} {found : List Expr} (hruns : Runs slots last)
      (hcontested : survey last = .ok (.contested place)) (hfork : fork last place = .ok f)
      (hcopies : List.Forall₂ Runs f.copies (results.map Prod.fst))
      (hfound : ∀ e, e ∈ found ↔ ∃ r ∈ results, e ∈ r.2)
      (h : ∀ r ∈ results, Leads limit r.1 r.2) : Leads limit slots found

theorem onlyNode_ok {e : Expr} (h : onlyNode slots = .ok e) : slots = [.node e] := by
  match slots, h with
  | [.node n], h =>
    cases h
    rfl

/-- Copies that are read apart are read one by one. -/
theorem foldlM_ok {read : List Slot → Except (Failure ParseError) (List Expr)} {acc found : List Expr}
    (h : copies.foldlM (fun found copy => do
      let found := (← read copy).foldl addNew found
      if limit < found.length then refuse (.tooManyReadings site limit)
      else return found) acc = .ok found) :
    ∃ results : List (List Slot × List Expr), copies = results.map Prod.fst ∧
      (∀ r ∈ results, read r.1 = .ok r.2) ∧
      ∀ e, e ∈ found ↔ e ∈ acc ∨ ∃ r ∈ results, e ∈ r.2 := by
  induction copies generalizing acc with
  | nil =>
    cases h
    exact ⟨[], rfl, by simp, by simp⟩
  | cons copy copies ih =>
    rw [List.foldlM_cons] at h
    obtain ⟨next, hnext, h⟩ := bind_ok_iff.mp h
    obtain ⟨es, hes, hnext⟩ := bind_ok_iff.mp hnext
    dsimp only at hnext
    split at hnext
    · cases hnext
    · cases hnext
      obtain ⟨results, rfl, hread, hmem⟩ := ih h
      refine ⟨(copy, es) :: results, rfl, ?_, ?_⟩
      · intro r hr
        rcases List.mem_cons.mp hr with rfl | hr
        · exact hes
        · exact hread r hr
      · intro e
        rw [hmem, mem_foldl_addNew, or_assoc]
        simp

/-- **What is returned as readings is what a list leads to.** -/
theorem leads_of_readingsFor {n : Nat} {found : List Expr}
    (h : readingsFor limit n slots = .ok found) : Leads limit slots found := by
  induction n generalizing slots found with
  | zero => cases h
  | succ n ih =>
    obtain ⟨ended, hended, h⟩ := bind_ok_iff.mp h
    obtain ⟨last, contested⟩ := ended
    obtain ⟨hruns, hends⟩ := run_ok hended
    cases contested with
    | none =>
      obtain ⟨e, he, h⟩ := bind_ok_iff.mp h
      cases h
      have hlast := onlyNode_ok he
      dsimp only at hlast hruns hends
      rw [hlast] at hruns hends
      exact .settled hruns hends
    | some place =>
      obtain ⟨f, hf, h⟩ := bind_ok_iff.mp h
      obtain ⟨copies, hcopies, h⟩ := bind_ok_iff.mp h
      obtain ⟨result, hmerge, h⟩ := bind_ok_iff.mp h
      have hcontested : survey last = .ok (.contested place) := by
        cases hends
        assumption
      cases result with
      | some merged => exact .merged hruns hcontested hf (runAll_ok hcopies) hmerge (ih h)
      | none =>
        obtain ⟨results, rfl, hread, hmem⟩ := foldlM_ok h
        refine .apart hruns hcontested hf (runAll_ok hcopies) (fun e => ?_)
          fun r hr => ih (hread r hr)
        rw [hmem]
        simp

/-! ## §5 Faults -/

theorem foldlM_faultless {read : List Slot → Except (Failure ParseError) (List Expr)}
    {acc : List Expr} (h : ∀ copy ∈ copies, Faultless (read copy)) :
    Faultless (copies.foldlM (fun found copy => do
      let found := (← read copy).foldl addNew found
      if limit < found.length then refuse (.tooManyReadings site limit)
      else return found) acc) := by
  induction copies generalizing acc with
  | nil => exact Faultless.ok _
  | cons copy copies ih =>
    rw [List.foldlM_cons]
    refine Faultless.bind (Faultless.bind (h copy List.mem_cons_self) fun _ _ => ?_) fun _ _ =>
      ih fun c hc => h c (List.mem_cons_of_mem _ hc)
    dsimp only
    split
    · exact Faultless.refuse _
    · exact Faultless.ok _

theorem Runs.contestable_le {next : List Slot} (h : Runs slots next) :
    contestable next ≤ contestable slots := by
  induction h with
  | refl => exact Nat.le_refl _
  | tail _ hstep ih => exact Nat.le_trans (hstep.passes.countP_le fun _ => rfl) ih

/-- **Every list of bare operators has its readings or is refused**: forks settle one juxtaposition
after the other, and what nothing contests is reduced to one node. -/
theorem readingsFor_faultless {n : Nat} (hs : Shaped slots) (hb : Bare slots)
    (hn : contestable slots < n) : Faultless (readingsFor limit n slots) := by
  induction n generalizing slots with
  | zero => cases hn
  | succ n ih =>
    refine Faultless.bind (run_faultless hs hb) fun ended hended => ?_
    obtain ⟨last, contested⟩ := ended
    obtain ⟨hruns, hends⟩ := run_ok hended
    have hlast := hruns.shaped hs
    have hbare := hruns.bare hb
    have hle := hruns.contestable_le
    dsimp only at hends hlast hbare hle ⊢
    cases hends with
    | settled hd hpass =>
      obtain ⟨e, rfl⟩ := eq_node_of_ends hlast (.settled hd hpass)
      exact Faultless.ok _
    | @contested place hcontested =>
      refine Faultless.bind (fork_faultless hcontested) fun f hf => ?_
      have hkeeps : ∀ copy ∈ f.copies, (Shaped last → Shaped copy) ∧ (Bare last → Bare copy) ∧
          contestable copy < contestable last := fun _ => copy_of_contested hcontested hf
      refine Faultless.bind (runAll_faultless fun copy hcopy =>
        ⟨(hkeeps copy hcopy).1 hlast, (hkeeps copy hcopy).2.1 hbare⟩) fun copies hcopies => ?_
      have hcopy : ∀ copy ∈ copies, Shaped copy ∧ Bare copy ∧ contestable copy < n := by
        intro copy hmem
        obtain ⟨origin, horigin, hrun⟩ := exists_of_mem_right (runAll_ok hcopies) hmem
        obtain ⟨hs', hb', hlt⟩ := hkeeps origin horigin
        have := hrun.contestable_le
        exact ⟨hrun.shaped (hs' hlast), hrun.bare (hb' hbare), by omega⟩
      refine Faultless.bind (merge_faultless _ _ _) fun result hmerge => ?_
      cases result with
      | some merged =>
        obtain ⟨hshaped, copy, hmem, hops, hcount⟩ := merged_keeps hmerge
        obtain ⟨-, hb', hlt⟩ := hcopy copy hmem
        exact ih (hshaped fun c hc => (hcopy c hc).1) (fun o ho => hb' o (hops o ho))
          (hcount ▸ hlt)
      | none =>
        exact foldlM_faultless fun copy hmem =>
          ih (hcopy copy hmem).1 (hcopy copy hmem).2.1 (hcopy copy hmem).2.2

/-- **The reduction of a shaped list of bare operators ends in no fault.** -/
theorem reduce_faultless (limit : Nat) (span : Span) (hs : Shaped slots) (hb : Bare slots) :
    Faultless (reduce limit span slots) := by
  refine Faultless.bind (readingsFor_faultless hs hb (Nat.lt_succ_self _)) fun found _ => ?_
  split <;> exact Faultless.ok _

end Reading

end DewyFront
