/-
# DewyFront.Proofs.Variants — the trees that an ambiguous tree stands for

A tree with ambiguous nodes stands for every tree that has one candidate in the place of each. With
a choice for the operators as well, the same enumeration says what is left to be decided about
juxtapositions. What a stretch of slots is joined to stands for what the slots stand for.

* §1 the variants of a tree;
* §2 membership;
* §3 the variants of a list;
* §4 stretches that are joined;
* §5 copies that are merged, and readings;
* §6 lists all of whose nodes have a variant.
-/
import DewyFront.Proofs.Lowering

namespace DewyFront

/-- What stands for two lists in a row is made of what stands for each. -/
theorem exists_append_of_forall₂ {α β : Type} {R : α → β → Prop} {as bs : List α} {cs : List β}
    (h : List.Forall₂ R (as ++ bs) cs) :
    ∃ as' bs', cs = as' ++ bs' ∧ List.Forall₂ R as as' ∧ List.Forall₂ R bs bs' := by
  induction as generalizing cs with
  | nil => exact ⟨[], cs, rfl, .nil, h⟩
  | cons a as ih =>
    cases h with
    | cons ha h =>
      obtain ⟨as', bs', rfl, has, hbs⟩ := ih h
      exact ⟨_ :: as', bs', rfl, .cons ha has, hbs⟩

namespace Expr

/-! ## §1 Trees -/

mutual
/-- **`variants`** — the trees with one candidate in the place of every ambiguous node, and every
operator replaced by one that `f` gives for it. The inside of an operand stays as it is. -/
def variants (f : Op → List Op) : Expr → List Expr
  | .binary o l r s =>
    (f o.op).flatMap fun p => (variants f l).flatMap fun l' =>
      (variants f r).map fun r' => .binary ⟨p, o.span⟩ l' r' s
  | .before o e s => (f o.op).flatMap fun p => (variants f e).map (.before ⟨p, o.span⟩ · s)
  | .after o e s => (f o.op).flatMap fun p => (variants f e).map (.after ⟨p, o.span⟩ · s)
  | .flat o es s => (f o.op).flatMap fun p => (variantsAll f es).map (.flat ⟨p, o.span⟩ · s)
  | .ambiguous es _ => variantsAny f es
  | .atom a s => [.atom a s]
  | .block k b es s => [.block k b es s]
  | .escape es s => [.escape es s]
  | .istring ps s => [.istring ps s]
  | .flow arms e s => [.flow arms e s]
  | .declare k e s => [.declare k e s]
  | .keyword k e s => [.keyword k e s]
/-- The lists with a variant of each expression. -/
def variantsAll (f : Op → List Op) : List Expr → List (List Expr)
  | [] => [[]]
  | e :: es => (variants f e).flatMap fun e' => (variantsAll f es).map (e' :: ·)
/-- The variants of any of some expressions. -/
def variantsAny (f : Op → List Op) : List Expr → List Expr
  | [] => []
  | e :: es => variants f e ++ variantsAny f es
end

/-- **`picks`** — the trees with one candidate in the place of every ambiguous node. -/
def picks (e : Expr) : List Expr := e.variants fun op => [op]

/-! ## §2 Membership -/

variable {f : Op → List Op} {o : Operator} {e e' l r : Expr} {es es' : List Expr} {s : Span}

theorem mem_variants_binary : e' ∈ variants f (.binary o l r s) ↔
    ∃ p ∈ f o.op, ∃ l' ∈ variants f l, ∃ r' ∈ variants f r, .binary ⟨p, o.span⟩ l' r' s = e' := by
  simp only [variants, List.mem_flatMap, List.mem_map]

theorem mem_variants_before : e' ∈ variants f (.before o e s) ↔
    ∃ p ∈ f o.op, ∃ c ∈ variants f e, .before ⟨p, o.span⟩ c s = e' := by
  simp only [variants, List.mem_flatMap, List.mem_map]

theorem mem_variants_after : e' ∈ variants f (.after o e s) ↔
    ∃ p ∈ f o.op, ∃ c ∈ variants f e, .after ⟨p, o.span⟩ c s = e' := by
  simp only [variants, List.mem_flatMap, List.mem_map]

theorem mem_variantsAll :
    es' ∈ variantsAll f es ↔ List.Forall₂ (fun e e' => e' ∈ variants f e) es es' := by
  induction es generalizing es' with
  | nil => simp [variantsAll]
  | cons e es ih =>
    rw [variantsAll, List.mem_flatMap]
    constructor
    · rintro ⟨c, hc, h⟩
      obtain ⟨cs, hcs, rfl⟩ := List.mem_map.mp h
      exact .cons hc (ih.mp hcs)
    · intro h
      cases h with
      | @cons _ c _ cs hc hcs => exact ⟨c, hc, List.mem_map.mpr ⟨cs, ih.mpr hcs, rfl⟩⟩

theorem mem_variants_flat : e' ∈ variants f (.flat o es s) ↔
    ∃ p ∈ f o.op, ∃ cs, List.Forall₂ (fun e e' => e' ∈ variants f e) es cs ∧
      .flat ⟨p, o.span⟩ cs s = e' := by
  simp only [variants, List.mem_flatMap, List.mem_map, mem_variantsAll]

theorem mem_variantsAny : e' ∈ variantsAny f es ↔ ∃ e ∈ es, e' ∈ variants f e := by
  induction es with
  | nil => simp [variantsAny]
  | cons e es ih => simp [variantsAny, ih]

theorem mem_variants_ambiguous : e' ∈ variants f (.ambiguous es s) ↔
    ∃ e ∈ es, e' ∈ variants f e := by
  rw [variants, mem_variantsAny]

mutual
/-- **With more choices for the operators, an expression stands for more.** -/
theorem variants_mono {g : Op → List Op} (hfg : ∀ op, f op ⊆ g op) :
    ∀ {e e' : Expr}, e' ∈ e.variants f → e' ∈ e.variants g
  | .binary _ _ _ _, _, he => by
    obtain ⟨p, hp, l', hl, r', hr, rfl⟩ := mem_variants_binary.mp he
    exact mem_variants_binary.mpr
      ⟨p, hfg _ hp, l', variants_mono hfg hl, r', variants_mono hfg hr, rfl⟩
  | .before _ _ _, _, he => by
    obtain ⟨p, hp, c, hc, rfl⟩ := mem_variants_before.mp he
    exact mem_variants_before.mpr ⟨p, hfg _ hp, c, variants_mono hfg hc, rfl⟩
  | .after _ _ _, _, he => by
    obtain ⟨p, hp, c, hc, rfl⟩ := mem_variants_after.mp he
    exact mem_variants_after.mpr ⟨p, hfg _ hp, c, variants_mono hfg hc, rfl⟩
  | .flat _ es _, _, he => by
    obtain ⟨p, hp, cs, hcs, rfl⟩ := mem_variants_flat.mp he
    have hcs := variantsAll_mono hfg (mem_variantsAll.mpr hcs)
    exact mem_variants_flat.mpr ⟨p, hfg _ hp, cs, mem_variantsAll.mp hcs, rfl⟩
  | .ambiguous es _, _, he => by
    rw [variants] at he ⊢
    exact variantsAny_mono hfg he
  | .atom .., _, he | .block .., _, he | .escape .., _, he | .istring .., _, he
  | .flow .., _, he | .declare .., _, he | .keyword .., _, he => by
    simpa only [variants] using he
theorem variantsAll_mono {g : Op → List Op} (hfg : ∀ op, f op ⊆ g op) :
    ∀ {es es' : List Expr}, es' ∈ variantsAll f es → es' ∈ variantsAll g es
  | [], _, h => h
  | e :: es, _, h => by
    rw [variantsAll, List.mem_flatMap] at h ⊢
    obtain ⟨c, hc, h⟩ := h
    obtain ⟨cs, hcs, rfl⟩ := List.mem_map.mp h
    exact ⟨c, variants_mono hfg hc, List.mem_map.mpr ⟨cs, variantsAll_mono hfg hcs, rfl⟩⟩
theorem variantsAny_mono {g : Op → List Op} (hfg : ∀ op, f op ⊆ g op) :
    ∀ {es : List Expr} {e' : Expr}, e' ∈ variantsAny f es → e' ∈ variantsAny g es
  | [], _, h => h
  | e :: es, _, h => by
    rw [variantsAny, List.mem_append] at h ⊢
    exact h.imp (variants_mono hfg) (variantsAny_mono hfg)
end

/-- An operand stands for itself. -/
theorem variants_of_isOperand (h : e.IsOperand) : variants f e = [e] := by
  cases e <;> first | (simp only [variants]; done) | cases h

end Expr

namespace Reduction

/-! ## §3 Slots -/

variable {f : Op → List Op} {front back seg slots slots' : List Slot} {e e' : Expr} {o : Operator}

/-- **`Varies`** — a slot stands for another: an operator for what `f` gives for it, a node for its
variants. -/
inductive Varies (f : Op → List Op) : Slot → Slot → Prop
  | operator {o : Operator} {p : Op} (h : p ∈ f o.op) :
      Varies f (.operator o) (.operator ⟨p, o.span⟩)
  | node {e e' : Expr} (h : e' ∈ e.variants f) : Varies f (.node e) (.node e')

/-- The slots of two lists stand for each other, one by one. -/
abbrev VariesAll (f : Op → List Op) : List Slot → List Slot → Prop := List.Forall₂ (Varies f)

theorem VariesAll.append {front' back' : List Slot} (hfront : VariesAll f front front')
    (hback : VariesAll f back back') : VariesAll f (front ++ back) (front' ++ back') :=
  List.rel_append hfront hback

/-! ## §4 Stretches -/

theorem variesAll_runSlots {p : Op} {first first' : Expr} {links : List (Operator × Expr)}
    {es : List Expr} (hfirst : first' ∈ first.variants f)
    (hops : ∀ q ∈ links, p ∈ f q.1.op)
    (hes : List.Forall₂ (fun e e' => e' ∈ e.variants f) (links.map Prod.snd) es) :
    ∃ links', links'.map Prod.snd = es ∧ (∀ q ∈ links', q.1.op = p) ∧
      VariesAll f (runSlots first links) (runSlots first' links') := by
  induction links generalizing es with
  | nil =>
    cases hes
    exact ⟨[], rfl, by simp, .cons (.node hfirst) .nil⟩
  | cons q links ih =>
    cases hes with
    | @cons _ c _ cs hc hcs =>
      obtain ⟨links', rfl, hops', hall⟩ := ih (fun r hr => hops r (List.mem_cons_of_mem _ hr)) hcs
      cases hall with
      | cons _ hall =>
        refine ⟨(⟨p, q.1.span⟩, c) :: links', rfl, ?_, ?_⟩
        · intro r hr
          rcases List.mem_cons.mp hr with rfl | hr
          · rfl
          · exact hops' r hr
        · refine .cons (.node hfirst) (.cons (.operator (hops q List.mem_cons_self)) ?_)
          exact .cons (.node hc) hall

/-- **`Combines`** — a node has the parts that a stretch consists of; where it stands is left
open. -/
inductive Combines : List Slot → Expr → Prop
  | binary (o : Operator) (l r : Expr) (s : Span) :
      Combines [.node l, .operator o, .node r] (.binary o l r s)
  | before (o : Operator) (e : Expr) (s : Span) :
      Combines [.operator o, .node e] (.before o e s)
  | after (o : Operator) (e : Expr) (s : Span) : Combines [.node e, .operator o] (.after o e s)
  | flat {o : Operator} {first last : Expr} {links : List (Operator × Expr)} (s : Span)
      (hsame : ∀ q ∈ links, q.1.op = o.op) :
      Combines (runSlots first links ++ [.operator o, .node last])
        (.flat o (first :: links.map Prod.snd ++ [last]) s)

theorem Joins.combines (h : Joins front back seg e) : Combines seg e := by
  cases h with
  | binary => exact .binary _ _ _ _
  | before => exact .before _ _ _
  | after => exact .after _ _ _
  | flat _ hsame => exact .flat _ hsame

/-- **A variant of a node consists of variants of its parts.** -/
theorem Combines.split (h : Combines seg e) (he : e' ∈ e.variants f) :
    ∃ seg', VariesAll f seg seg' ∧ Combines seg' e' ∧ e'.span = e.span := by
  cases h with
  | binary o l r s =>
    obtain ⟨p, hp, l', hl, r', hr, rfl⟩ := Expr.mem_variants_binary.mp he
    exact ⟨_, .cons (.node hl) (.cons (.operator hp) (.cons (.node hr) .nil)), .binary _ _ _ _, rfl⟩
  | before o c s =>
    obtain ⟨p, hp, c', hc, rfl⟩ := Expr.mem_variants_before.mp he
    exact ⟨_, .cons (.operator hp) (.cons (.node hc) .nil), .before _ _ _, rfl⟩
  | after o c s =>
    obtain ⟨p, hp, c', hc, rfl⟩ := Expr.mem_variants_after.mp he
    exact ⟨_, .cons (.node hc) (.cons (.operator hp) .nil), .after _ _ _, rfl⟩
  | @flat o first last links s hsame =>
    obtain ⟨p, hp, es, hes, rfl⟩ := Expr.mem_variants_flat.mp he
    cases hes with
    | cons hfirst hes =>
      obtain ⟨inner, lasts, rfl, hinner, hlast⟩ := exists_append_of_forall₂ hes
      cases hlast with
      | cons hlast hnil =>
        cases hnil
        obtain ⟨links', rfl, hops, hall⟩ := variesAll_runSlots hfirst
          (fun q hq => by rw [hsame q hq]; exact hp) hinner
        refine ⟨_, hall.append (.cons (.operator hp) (.cons (.node hlast) .nil)), ?_, rfl⟩
        exact .flat (o := ⟨p, o.span⟩) s hops

end Reduction

namespace Reading

open Reduction

/-! ## §5 Merging and readings -/

variable {f : Op → List Op} {e' : Expr} {merged : List Slot}

/-- Candidates as one node have the variants of all of them. -/
theorem mem_variants_ambiguousOf {candidates : List Expr} (site : Span)
    (hne : candidates ≠ []) :
    e' ∈ (ambiguousOf site candidates).variants f ↔ ∃ e ∈ candidates, e' ∈ e.variants f := by
  rcases ambiguousOf_cases site hne with ⟨e, rfl, heq⟩ | ⟨e, rest, rfl, heq⟩
  · rw [heq]
    simp
  · rw [heq]
    exact Expr.mem_variants_ambiguous

/-- **What the slots of the merged list are related to, those of one of the copies are**, if a choice
among candidates is related to what one of them is. -/
theorem forall₂_of_merge {limit : Nat} {site : Span} {copies : List (List Slot)}
    {R : Slot → Slot → Prop} {V : List Slot}
    (hR : ∀ {nodes : List Expr} {s : Slot}, nodes ≠ [] →
      (R (.node (ambiguousOf site nodes)) s ↔ ∃ n ∈ nodes, R (.node n) s))
    (h : merge limit site copies = .ok (some merged)) :
    List.Forall₂ R merged V ↔ ∃ copy ∈ copies, List.Forall₂ R copy V := by
  obtain ⟨hne, hall | ⟨front, nodes, back, rfl, rfl⟩⟩ := merge_ok h
  · obtain ⟨copy, hcopy⟩ := List.exists_mem_of_ne_nil _ hne
    constructor
    · intro hv
      exact ⟨copy, hcopy, (hall copy hcopy).symm ▸ hv⟩
    · rintro ⟨c, hc, hv⟩
      exact hall c hc ▸ hv
  · have hnodes : nodes.foldl addNew [] ≠ [] := foldl_addNew_ne_nil (by simpa using hne)
    constructor
    · intro hv
      obtain ⟨front', rest, rfl, hfront, hrest⟩ := exists_append_of_forall₂ hv
      cases hrest with
      | cons hnode hback =>
        obtain ⟨e, he, he'⟩ := (hR hnodes).mp hnode
        have hmem : e ∈ nodes := mem_foldl_addNew_nil.mp he
        exact ⟨_, List.mem_map.mpr ⟨e, hmem, rfl⟩, List.rel_append hfront (.cons he' hback)⟩
    · rintro ⟨copy, hcopy, hv⟩
      obtain ⟨e, hmem, rfl⟩ := List.mem_map.mp hcopy
      obtain ⟨front', rest, rfl, hfront, hrest⟩ := exists_append_of_forall₂ hv
      cases hrest with
      | cons hnode hback =>
        refine List.rel_append hfront (.cons ((hR hnodes).mpr ⟨e, ?_, hnode⟩) hback)
        exact mem_foldl_addNew_nil.mpr hmem

/-- **The merged list stands for what any of the copies stands for.** -/
theorem variesAll_of_merge {limit : Nat} {site : Span} {copies : List (List Slot)}
    {V : List Slot} (h : merge limit site copies = .ok (some merged)) :
    VariesAll f merged V ↔ ∃ copy ∈ copies, VariesAll f copy V := by
  refine forall₂_of_merge (fun {nodes s} hnodes => ?_) h
  constructor
  · intro hnode
    cases hnode with
    | node he =>
      obtain ⟨n, hn, he⟩ := (mem_variants_ambiguousOf site hnodes).mp he
      exact ⟨n, hn, .node he⟩
  · rintro ⟨n, hn, hnode⟩
    cases hnode with
    | node he => exact .node ((mem_variants_ambiguousOf site hnodes).mpr ⟨n, hn, he⟩)

/-- **An expression stands for what its readings stand for.** -/
theorem variants_of_reduce {limit : Nat} {span : Span} {slots : List Slot} {t : Expr}
    (h : reduce limit span slots = .ok t) :
    ∃ found, Leads limit slots found ∧
      ∀ e', e' ∈ t.variants f ↔ ∃ e ∈ found, e' ∈ e.variants f := by
  obtain ⟨found, hfound, h⟩ := bind_ok_iff.mp h
  refine ⟨found, leads_of_readingsFor hfound, fun e' => ?_⟩
  split at h
  · cases h
    simp
  · cases h
    exact Expr.mem_variants_ambiguous

/-! ## §6 Nodes that have a variant -/

/-- **`Varied`** — every node of a list stands for something. -/
abbrev Varied (f : Op → List Op) (slots : List Slot) : Prop := AllNodes (·.variants f ≠ []) slots

theorem exists_variantsAll {es : List Expr} (h : ∀ e ∈ es, e.variants f ≠ []) :
    ∃ es', List.Forall₂ (fun e e' => e' ∈ e.variants f) es es' := by
  induction es with
  | nil => exact ⟨[], .nil⟩
  | cons e es ih =>
    obtain ⟨e', he⟩ := List.exists_mem_of_ne_nil _ (h e List.mem_cons_self)
    obtain ⟨es', hes⟩ := ih fun c hc => h c (List.mem_cons_of_mem _ hc)
    exact ⟨e' :: es', .cons he hes⟩

variable {front slots slots' : List Slot}

/-- A node stands for something when its parts do. -/
theorem variants_ne_nil_of_combines {seg : List Slot} {e : Expr} (hf : ∀ op, f op ≠ [])
    (h : Combines seg e) (hseg : Varied f seg) : e.variants f ≠ [] := by
  cases h with
  | binary o l r s =>
    obtain ⟨p, hp⟩ := List.exists_mem_of_ne_nil _ (hf o.op)
    obtain ⟨l', hl⟩ := List.exists_mem_of_ne_nil _ (hseg l (by simp))
    obtain ⟨r', hr⟩ := List.exists_mem_of_ne_nil _ (hseg r (by simp))
    exact List.ne_nil_of_mem (Expr.mem_variants_binary.mpr ⟨p, hp, l', hl, r', hr, rfl⟩)
  | before o c s =>
    obtain ⟨p, hp⟩ := List.exists_mem_of_ne_nil _ (hf o.op)
    obtain ⟨c', hc⟩ := List.exists_mem_of_ne_nil _ (hseg c (by simp))
    exact List.ne_nil_of_mem (Expr.mem_variants_before.mpr ⟨p, hp, c', hc, rfl⟩)
  | after o c s =>
    obtain ⟨p, hp⟩ := List.exists_mem_of_ne_nil _ (hf o.op)
    obtain ⟨c', hc⟩ := List.exists_mem_of_ne_nil _ (hseg c (by simp))
    exact List.ne_nil_of_mem (Expr.mem_variants_after.mpr ⟨p, hp, c', hc, rfl⟩)
  | @flat o first last links s hsame =>
    obtain ⟨p, hp⟩ := List.exists_mem_of_ne_nil _ (hf o.op)
    obtain ⟨es, hes⟩ := exists_variantsAll fun e he => hseg e (node_mem_run o he)
    exact List.ne_nil_of_mem (Expr.mem_variants_flat.mpr ⟨p, hp, es, hes, rfl⟩)

theorem Passes.varied (hf : ∀ op, f op ≠ []) (h : Passes front slots slots')
    (hv : Varied f slots) : Varied f slots' :=
  h.allNodes (fun hjoins hseg => variants_ne_nil_of_combines hf hjoins.combines hseg) hv

/-- Merged copies have a variant at every node if each copy has. -/
theorem varied_of_merge {limit : Nat} {site : Span} {copies : List (List Slot)}
    (hv : ∀ copy ∈ copies, Varied f copy) (h : merge limit site copies = .ok (some merged)) :
    Varied f merged := by
  refine allNodes_of_merge h hv fun _ nodes _ _ hne hnodes _ => ?_
  obtain ⟨n, hn⟩ := List.exists_mem_of_ne_nil nodes hne
  obtain ⟨e, he⟩ := List.exists_mem_of_ne_nil _ (hnodes n hn)
  exact List.ne_nil_of_mem ((mem_variants_ambiguousOf site (foldl_addNew_ne_nil hne)).mpr
    ⟨n, mem_foldl_addNew_nil.mpr hn, he⟩)

end Reading

end DewyFront
