/-
# DewyFront.Proofs.Rejection — a contested chain is refused when one of its readings is

What is wrong with one copy of a fork is wrong with the whole list. So a list is refused for an
operator in itself as soon as one of the lists that it may be settled to has a tree with such an
operator. Which copy it was tells how its contested juxtapositions are settled; those that no fork
has settled yet are settled as firmly as they can be, since they have already drawn the operands
between them to the left.

* §1 juxtapositions settled firmly;
* §2 what reduction keeps of a list;
* §3 how reading a list ends in a refusal;
* §4 a settled list whose tree accounts for the refusal;
* §5 lists of operands;
* §6 settled chains;
* §7 chains of a source.
-/
import DewyFront.Proofs.Clashes

namespace DewyFront

/-! ## §1 Firmness -/

namespace Op

variable {op p : Op}

/-- **`firmest`** — a contested juxtaposition on the level that binds hardest; any other operator as it
is. -/
def firmest (op : Op) : List Op := op.narrowings.take 1

theorem firmest_subset (op : Op) : op.firmest ⊆ op.narrowings := List.take_subset _ _

theorem firmest_of_isContested_eq_false (h : op.isContested = false) : op.firmest = [op] := by
  rw [firmest, narrowings_of_isContested_eq_false h, List.take_succ_cons, List.take_zero]

theorem firmest_of_isContested (h : op.isContested = true) : ∃ m, op.firmest = [.juxtapose m] ∧
    (Op.juxtapose m).levels = [⟨Precedence.callRow, .left⟩] := by
  obtain ⟨m, rfl, hm⟩ := juxtapose_of_isContested h
  refine ⟨m.upper, by simp [firmest, narrowings, h, hm], ?_⟩
  have hmem : (Precedence.callRow, m.upper) ∈ Precedence.readings m := by simp [hm]
  exact levels_of_mem_readings hmem

theorem firmest_ne_nil (op : Op) : op.firmest ≠ [] := by
  cases hc : op.isContested with
  | false => simp [firmest_of_isContested_eq_false hc]
  | true =>
    obtain ⟨m, hm, -⟩ := firmest_of_isContested hc
    simp [hm]

end Op

namespace Reduction

theorem firm_firmest : Firm Op.firmest := by
  intro op p hp hc
  obtain ⟨m, hm, hlevels⟩ := Op.firmest_of_isContested hc
  rw [hm, List.mem_singleton] at hp
  rw [hp, Op.rightPower_of_levels_one hlevels]
  decide

variable {front back slots next copy merged narrowed : List Slot} {e t : Expr} {o inner : Operator}
  {limit n : Nat} {cause : ParseError}

/-! ## §2 Invariants -/

/-- **`Steady`** — what reduction keeps of a list that may be settled firmly. -/
structure Steady (slots : List Slot) : Prop where
  shaped : Shaped slots
  bare : Reading.Bare slots
  formed : FormedAll slots
  varied : Reading.Varied Op.firmest slots

theorem Passes.steady (h : Passes [] slots next) (hs : Steady slots) : Steady next where
  shaped := h.complete rfl hs.shaped
  bare o ho := hs.bare o (h.mem_of_operator ho)
  formed := h.formed hs.formed
  varied := Reading.Passes.varied Op.firmest_ne_nil h hs.varied

theorem Steady.shaped_of_fixes (h : Steady slots) (hv : FixesAll Op.firmest slots narrowed) :
    Shaped narrowed := by
  obtain ⟨t, ht, hwants⟩ := h.shaped
  have hsettles := hv.settles Op.firmest_subset fun e he => (h.formed e he).even
  exact ⟨t, (turnFrom_settled hsettles .operand).trans ht, hwants⟩

theorem Steady.uncontested_of_fixes (h : Steady slots) (hv : FixesAll Op.firmest slots narrowed) :
    Climbing.Uncontested narrowed := by
  intro o ho
  obtain ⟨s, hs, hslot⟩ := Reading.exists_of_mem_right hv ho
  cases hslot with
  | operator hp => exact Op.not_holdsContested_of_mem_narrowings (h.bare _ hs) hp

/-- A list can be settled firmly. -/
theorem Steady.exists_fixes (h : Steady slots) : ∃ narrowed, FixesAll Op.firmest slots narrowed := by
  have hvaried := h.varied
  clear h
  induction slots with
  | nil => exact ⟨[], .nil⟩
  | cons s slots ih =>
    obtain ⟨narrowed, hnarrowed⟩ := ih fun e he => hvaried e (List.mem_cons_of_mem _ he)
    cases s with
    | operator o =>
      obtain ⟨p, hp⟩ := List.exists_mem_of_ne_nil _ (Op.firmest_ne_nil o.op)
      exact ⟨_, .cons (.operator (Op.firmest_subset _ hp)) hnarrowed⟩
    | node e =>
      obtain ⟨e', he⟩ := List.exists_mem_of_ne_nil _ (hvaried e List.mem_cons_self)
      exact ⟨_, .cons (.node he) hnarrowed⟩

end Reduction

namespace Reading

open Reduction

variable {slots next copy merged last narrowed : List Slot} {limit n place : Nat} {f : Fork}
  {cause : ParseError} {o inner : Operator} {t : Expr}

/-- A choice among nodes settles to what one of them settles to. -/
theorem fixes_ambiguousOf {g : Op → List Op} {site : Span} {nodes : List Expr} {s : Slot}
    (hne : nodes ≠ []) :
    Fixes g (.node (ambiguousOf site nodes)) s ↔ ∃ n ∈ nodes, Fixes g (.node n) s := by
  constructor
  · intro h
    cases h with
    | node he =>
      obtain ⟨n, hn, he⟩ := (mem_variants_ambiguousOf site hne).mp he
      exact ⟨n, hn, .node he⟩
  · rintro ⟨n, hn, h⟩
    cases h with
    | node he => exact .node ((mem_variants_ambiguousOf site hne).mpr ⟨n, hn, he⟩)

theorem Runs.steady (h : Runs slots next) (hs : Steady slots) : Steady next :=
  h.keep (fun ha hstep => hstep.passes.steady ha) hs

/-- The copies of a fork are as steady as the list. -/
theorem steady_of_fork (hs : survey slots = .ok (.contested place)) (h : fork slots place = .ok f)
    (ht : Steady slots) (hcopy : copy ∈ f.copies) : Steady copy := by
  obtain ⟨hshaped, hbare, -⟩ := copy_of_contested hs h hcopy
  exact ⟨hshaped ht.shaped, hbare ht.bare, allNodes_of_fork hs h ht.formed hcopy,
    allNodes_of_fork hs h ht.varied hcopy⟩

/-- Merged copies are as steady as each of them. -/
theorem steady_of_merged {copies : List (List Slot)} (hcontested : survey last = .ok (.contested place))
    (hfork : fork last place = .ok f) (hcopies : List.Forall₂ Runs f.copies copies)
    (ht : Steady last) (hmerge : merge limit f.site copies = .ok (some merged)) : Steady merged := by
  have hcopy : ∀ copy ∈ copies, Steady copy ∧ marksOf copy = marksOf last := by
    intro copy hmem
    obtain ⟨origin, horigin, hrun⟩ := exists_of_mem_right hcopies hmem
    have hsteady := steady_of_fork hcontested hfork ht horigin
    refine ⟨hrun.steady hsteady, ?_⟩
    rw [Runs.marks hrun hsteady.shaped, marks_of_fork hcontested hfork ht.shaped horigin]
  obtain ⟨hshaped, kept, hkept, hops, -⟩ := merged_keeps hmerge
  exact ⟨hshaped fun c hc => (hcopy c hc).1.shaped, fun o ho => (hcopy kept hkept).1.bare o (hops o ho),
    formed_of_merge hmerge (fun c hc => (hcopy c hc).1.formed) fun c hc => (hcopy c hc).2,
    varied_of_merge (fun c hc => (hcopy c hc).1.varied) hmerge⟩

/-! ## §3 Refusals -/

/-- **`Rejects`** — how reading a list ends in a refusal: by a pass, in one of the copies of a fork, or
behind the place where copies are merged. A limit is left out. -/
inductive Rejects (limit : Nat) : List Slot → ParseError → Prop
  | pass {slots last : List Slot} {pulls : List Pull} {cause : ParseError} (hruns : Runs slots last)
      (hd : survey last = .ok (.decided pulls)) (h : pass last pulls = refuse cause) :
      Rejects limit slots cause
  | copy {slots last copy : List Slot} {place : Nat} {f : Fork} {cause : ParseError}
      (hruns : Runs slots last) (hcontested : survey last = .ok (.contested place))
      (hfork : fork last place = .ok f) (hcopy : copy ∈ f.copies) (h : Rejects limit copy cause) :
      Rejects limit slots cause
  | merged {slots last merged : List Slot} {place : Nat} {f : Fork} {copies : List (List Slot)}
      {cause : ParseError} (hruns : Runs slots last)
      (hcontested : survey last = .ok (.contested place)) (hfork : fork last place = .ok f)
      (hcopies : List.Forall₂ Runs f.copies copies)
      (hmerge : merge limit f.site copies = .ok (some merged)) (h : Rejects limit merged cause) :
      Rejects limit slots cause

theorem Rejects.of_runs (hruns : Runs slots next) (h : Rejects limit next cause) :
    Rejects limit slots cause := by
  cases h with
  | pass h hd hpass => exact .pass (hruns.trans h) hd hpass
  | copy h hcontested hfork hcopy hrest => exact .copy (hruns.trans h) hcontested hfork hcopy hrest
  | merged h hcontested hfork hcopies hmerge hrest =>
    exact .merged (hruns.trans h) hcontested hfork hcopies hmerge hrest

theorem rejects_of_runFor (h : runFor n slots = refuse cause) : Rejects limit slots cause := by
  obtain ⟨middle, pulls, hruns, hd, hpass⟩ := exists_pass_of_runFor h
  exact .pass hruns hd hpass

/-- Merging is refused for the limit only. -/
theorem merge_refused {site : Span} {copies : List (List Slot)}
    (h : merge limit site copies = refuse cause) : cause = .tooManyReadings site limit := by
  unfold merge at h
  split at h
  · cases h
  · split at h
    · cases h
    · split at h
      · cases h
      · split at h
        · cases h
        · dsimp only at h
          split at h
          · cases h
            rfl
          · cases h
      · cases h

/-- Reading copies apart is refused for the limit, or when reading one of them is. -/
theorem foldlM_refused {site : Span} {read : List Slot → Except (Failure ParseError) (List Expr)}
    {copies : List (List Slot)} {acc : List Expr}
    (h : copies.foldlM (fun found copy => do
      let found := (← read copy).foldl addNew found
      if limit < found.length then refuse (.tooManyReadings site limit)
      else return found) acc = refuse cause) :
    cause = .tooManyReadings site limit ∨ ∃ copy ∈ copies, read copy = refuse cause := by
  induction copies generalizing acc with
  | nil => cases h
  | cons copy copies ih =>
    rw [List.foldlM_cons] at h
    rcases bind_refuse_iff.mp h with h | ⟨next, -, h⟩
    · rcases bind_refuse_iff.mp h with h | ⟨es, -, h⟩
      · exact .inr ⟨copy, List.mem_cons_self, h⟩
      · dsimp only at h
        split at h
        · cases h
          exact .inl rfl
        · cases h
    · rcases ih h with heq | ⟨c, hc, hread⟩
      · exact .inl heq
      · exact .inr ⟨c, List.mem_cons_of_mem _ hc, hread⟩

/-- **Reading a list is refused by a pass, in a copy or behind a merger**, or for the limit. -/
theorem rejects_of_readingsFor (h : readingsFor limit n slots = refuse cause)
    (hlimit : ∀ site, cause ≠ .tooManyReadings site limit) : Rejects limit slots cause := by
  induction n generalizing slots with
  | zero => cases h
  | succ n ih =>
    rcases bind_refuse_iff.mp h with h | ⟨⟨last, contested⟩, hended, h⟩
    · exact rejects_of_runFor h
    · obtain ⟨hruns, hends⟩ := run_ok hended
      cases contested with
      | none =>
        rcases bind_refuse_iff.mp h with h | ⟨e, -, h⟩
        · unfold onlyNode at h
          split at h <;> cases h
        · cases h
      | some place =>
        have hcontested : survey last = .ok (.contested place) := by
          cases hends
          assumption
        obtain ⟨f, hf⟩ := fork_ok hcontested
        rcases bind_refuse_iff.mp h with h | ⟨f', hf', h⟩
        · rw [hf] at h
          cases h
        · obtain rfl : f' = f := Except.ok.inj (hf'.symm.trans hf)
          rcases bind_refuse_iff.mp h with h | ⟨copies, hcopies, h⟩
          · obtain ⟨copy, hcopy, hrun⟩ := exists_run_of_runAll h
            exact .copy hruns hcontested hf hcopy (rejects_of_runFor hrun)
          · have hruns' := runAll_ok hcopies
            rcases bind_refuse_iff.mp h with h | ⟨merged, hmerge, h⟩
            · exact absurd (merge_refused h) (hlimit _)
            · cases merged with
              | some merged => exact .merged hruns hcontested hf hruns' hmerge (ih h)
              | none =>
                rcases foldlM_refused h with h | ⟨copy, hcopy, h⟩
                · exact absurd h (hlimit _)
                · obtain ⟨origin, horigin, hrun⟩ := exists_of_mem_right hruns' hcopy
                  exact .copy hruns hcontested hf horigin ((ih h).of_runs hrun)

/-- The expression of a list is refused when reading it is. -/
theorem rejects_of_reduce {span : Span} (h : reduce limit span slots = refuse cause)
    (hlimit : ∀ site, cause ≠ .tooManyReadings site limit) : Rejects limit slots cause := by
  rcases bind_refuse_iff.mp h with h | ⟨found, -, h⟩
  · exact rejects_of_readingsFor h hlimit
  · split at h <;> cases h

/-! ## §4 Settled lists -/

open Climbing

/-- What is refused at an operator in itself accounts for it in the tree of the list behind the pass,
however that list is settled. -/
theorem accounts_of_made {next narrowed : List Slot} {left right child e : Expr}
    (halone : ∃ level ∈ o.op.levels, level.assoc = .alone) (he : .node e ∈ next)
    (hnode : e = binaryNode o left right) (hchild : child = left ∨ child = right)
    (hinner : child.binaryOperator? = some inner) (hsame : inner.op = o.op)
    (hv : FixesAll Op.firmest next narrowed) (ht : Joined narrowed [.node t]) :
    Accounts narrowed t (.nestedOperator o inner) := by
  have hsettled : o.op.isContested = false := by
    refine Bool.eq_false_iff.mpr fun hc => ?_
    obtain ⟨m, hop, hm⟩ := Op.juxtapose_of_isContested hc
    obtain ⟨level, hlevel, hassoc⟩ := halone
    rw [hop, Op.levels, hm] at hlevel
    simp only [List.map_cons, List.map_nil, List.mem_cons, List.not_mem_nil, or_false] at hlevel
    rcases hlevel with rfl | rfl <;> cases hassoc
  have hfirm : ∀ {p : Op}, p ∈ o.op.firmest → p = o.op := by
    intro p hp
    rw [Op.firmest_of_isContested_eq_false hsettled] at hp
    exact List.mem_singleton.mp hp
  obtain ⟨s, hs, hslot⟩ := exists_of_mem_right hv.flip he
  cases hslot with
  | @node _ e' he' =>
    rw [hnode, binaryNode] at he'
    obtain ⟨p, hp, l', hl, r', hr, rfl⟩ := Expr.mem_variants_binary.mp he'
    have hvariant : ∀ {c c' : Expr}, c.binaryOperator? = some inner → c' ∈ c.variants Op.firmest →
        c'.binaryOperator? = some inner := by
      intro c c' hc hmem
      cases c with
      | binary q a b span =>
        cases hc
        obtain ⟨p', hp', a', -, b', -, rfl⟩ := Expr.mem_variants_binary.mp hmem
        rw [hsame] at hp'
        rw [hfirm hp', ← hsame]
        rfl
      | _ => cases hc
    have hpart := hasPart_of_joined ht hs
    rw [hfirm hp] at hpart
    rcases hchild with rfl | rfl
    · exact .nested halone hpart (.inl rfl) (hvariant hinner hl) hsame
    · exact .nested halone hpart (.inr rfl) (hvariant hinner hr) hsame

/-- **A list that is refused for an operator in itself can be settled so that its tree has that
operator in itself.** -/
theorem exists_fixes_of_rejects (h : Rejects limit slots (.nestedOperator o inner))
    (hs : Steady slots) : ∃ narrowed t, FixesAll Op.firmest slots narrowed ∧
      Joined narrowed [.node t] ∧ Accounts narrowed t (.nestedOperator o inner) := by
  generalize hcause : ParseError.nestedOperator o inner = cause at h
  -- What settles the slots that are refused is carried back to the slots before, along the runs in between.
  induction h with
  | @pass slots last pulls cause hruns hd h =>
    subst hcause
    have hlast := hruns.steady hs
    obtain ⟨front, q, pull, back, hstands, hrefused⟩ := refused_of_pass hlast.shaped hd h
    cases hrefused with
    | nested halone hmade hnode hchild hinner hsame =>
      have hreplaces := hmade.replaces hstands.surveyed
      rw [hstands.slots_eq] at hreplaces
      obtain ⟨next, hpasses, -, hmem⟩ := hreplaces.passes
      have hnext := hpasses.steady hlast
      obtain ⟨narrowed, hnarrowed⟩ := hnext.exists_fixes
      obtain ⟨middle, hmiddle, hpasses'⟩ := hpasses.unsettled Op.firmest_subset
        (fun n hn => (hlast.formed n hn).even) (.inr firm_firmest) .nil hnarrowed
      obtain ⟨origin, horigin, hjoined⟩ :=
        Runs.unsettled_of_firm Op.firmest_subset firm_firmest hruns hs.formed hmiddle
      obtain ⟨t, ht⟩ := exists_joined (hnext.shaped_of_fixes hnarrowed)
        (hnext.uncontested_of_fixes hnarrowed)
      cases accounts_of_made halone hmem hnode hchild hinner hsame hnarrowed ht with
      | nested halone hpart hchild hinner hsame =>
        exact ⟨origin, t, horigin, (hjoined.tail hpasses').trans ht,
          .nested halone hpart hchild hinner hsame⟩
  -- What settles a copy of a fork settles the slots that are forked.
  | @copy slots last copy place f cause hruns hcontested hfork hcopy _ ih =>
    have hlast := hruns.steady hs
    obtain ⟨narrowed, t, hnarrowed, ht, haccounts⟩ :=
      ih (steady_of_fork hcontested hfork hlast hcopy) hcause
    have hfixes := (fixes_iff_of_fork hcontested hfork).mpr ⟨copy, hcopy, hnarrowed⟩
    obtain ⟨origin, horigin, hjoined⟩ :=
      Runs.unsettled_of_firm Op.firmest_subset firm_firmest hruns hs.formed hfixes
    subst hcause
    cases haccounts with
    | nested halone hpart hchild hinner hsame =>
      exact ⟨origin, t, horigin, hjoined.trans ht, .nested halone hpart hchild hinner hsame⟩
  -- What settles the merged slots settles one of the copies.
  | @merged slots last merged place f copies cause hruns hcontested hfork hcopies hmerge _ ih =>
    have hlast := hruns.steady hs
    obtain ⟨narrowed, t, hnarrowed, ht, haccounts⟩ :=
      ih (steady_of_merged hcontested hfork hcopies hlast hmerge) hcause
    obtain ⟨copy, hcopy, hcopied⟩ := (forall₂_of_merge fixes_ambiguousOf hmerge).mp hnarrowed
    obtain ⟨forked, hforked, hrun⟩ := exists_of_mem_right hcopies hcopy
    have hsteady := steady_of_fork hcontested hfork hlast hforked
    obtain ⟨second, hsecond, hjoined'⟩ :=
      Runs.unsettled_of_firm Op.firmest_subset firm_firmest hrun hsteady.formed hcopied
    have hfixes := (fixes_iff_of_fork hcontested hfork).mpr ⟨forked, hforked, hsecond⟩
    obtain ⟨origin, horigin, hjoined⟩ :=
      Runs.unsettled_of_firm Op.firmest_subset firm_firmest hruns hs.formed hfixes
    subst hcause
    cases haccounts with
    | nested halone hpart hchild hinner hsame =>
      exact ⟨origin, t, horigin, hjoined.trans (hjoined'.trans ht),
        .nested halone hpart hchild hinner hsame⟩

/-! ## §5 Lists of operands -/

/-- The operands of a list are settled already. -/
theorem fixesAll_of_plain {f g : Op → List Op} (h : FixesAll f slots narrowed) (hs : Plain slots) :
    FixesAll g slots narrowed ∧ Plain narrowed := by
  induction h with
  | nil => exact ⟨.nil, hs⟩
  | @cons s _ slots narrowed hslot _ ih =>
    obtain ⟨hrest, hplain⟩ := ih fun e he => hs e (List.mem_cons_of_mem _ he)
    cases hslot with
    | operator hp =>
      refine ⟨.cons (.operator hp) hrest, fun e he => hplain e ?_⟩
      simpa using he
    | @node e e' he =>
      have hoperand := hs e List.mem_cons_self
      rw [Expr.variants_of_isOperand hoperand, List.mem_singleton] at he
      subst he
      have hself : e' ∈ e'.variants g := by
        rw [Expr.variants_of_isOperand hoperand]
        exact List.mem_singleton_self _
      refine ⟨.cons (.node hself) hrest, fun e he => ?_⟩
      rcases List.mem_cons.mp he with heq | he
      · cases heq
        exact hoperand
      · exact hplain e he

theorem Steady.of_plain (hshaped : Shaped slots) (hbare : Bare slots) (hs : Plain slots) :
    Steady slots where
  shaped := hshaped
  bare := hbare
  formed e he := formed_of_isOperand (hs e he)
  varied e he := by
    show e.variants Op.firmest ≠ []
    rw [Expr.variants_of_isOperand (hs e he)]
    exact List.cons_ne_nil _ _

end Reading

namespace Chain

/-- A chain can be settled. -/
theorem exists_narrowing (chain : Chain) : ∃ narrowed, narrowed ∈ chain.narrowings := by
  induction chain with
  | nil => exact ⟨[], List.mem_singleton_self _⟩
  | cons link rest ih =>
    obtain ⟨narrowed, hmem⟩ := ih
    have hrest := mem_narrowings.mp hmem
    cases link with
    | operator o =>
      obtain ⟨p, hp⟩ := List.exists_mem_of_ne_nil _ (Op.firmest_ne_nil o.op)
      exact ⟨_, mem_narrowings.mpr (.cons (.operator (Op.firmest_subset _ hp)) hrest)⟩
    | operand content span => exact ⟨_, mem_narrowings.mpr (.cons (.operand content span) hrest)⟩

end Chain

namespace Expr

open Reduction Reading Climbing

variable {chain narrowed : Chain} {slots : List Slot} {config : ParseConfig} {limit : Nat}
  {o inner : Operator} {t : Expr} {cause : ParseError} {span : Span}

/-! ## §6 Settled chains -/

/-- What is in itself anywhere in a part is so in the whole. -/
theorem nests_of_hasPart {part : Expr} (h : t.HasPart part) (hpart : part.nests ([·]) = true) :
    t.nests ([·]) = true := by
  induction h using Relation.ReflTransGen.head_induction_on with
  | refl => exact hpart
  | @head e c hc _ ih =>
    by_contra hnests
    rw [Bool.not_eq_true] at hnests
    have hfalse : c.nests ([·]) = false := by
      cases e with
      | binary o l r span =>
        simp only [nests, Bool.or_eq_false_iff] at hnests
        have hc : c = l ∨ c = r := by simpa [operands] using hc
        rcases hc with rfl | rfl
        · exact hnests.1.2
        · exact hnests.2
      | before o e span | after o e span =>
        rw [nests] at hnests
        rw [List.mem_singleton.mp hc]
        exact hnests
      | flat o es span =>
        rw [nests] at hnests
        exact nestsAny_eq_false.mp hnests c hc
      | _ => cases hc
    rw [ih] at hfalse
    cases hfalse

/-- A tree that accounts for an operator in itself has it. -/
theorem nests_of_accounts (h : Accounts slots t (.nestedOperator o inner)) :
    t.nests ([·]) = true := by
  cases h with
  | @nested _ _ l r child span halone hpart hchild hinner hsame =>
    refine nests_of_hasPart hpart ?_
    have hisAlone : o.op.isAlone = true := by simpa [Op.isAlone] using halone
    have hclash : clashes ([·]) o child = true := by
      simp [clashes, hisAlone, hinner, hsame]
    rw [nests]
    rcases hchild with rfl | rfl <;> simp [hclash]

/-- The operands of a chain are operands. -/
theorem plain_of_slotsOf (h : slotsOf limit chain = .ok slots) : Plain slots := by
  intro e he
  obtain ⟨link, -, hlink⟩ := exists_of_mem_right (slotsOf_ok h) he
  cases hlink with
  | operand hcontent => exact isOperand_of_ofOperand hcontent

/-- What is wrong with an operand of a chain is wrong with it however the chain is settled. -/
theorem slotsOf_refused_of_narrows (h : List.Forall₂ Chain.Link.Narrows chain narrowed)
    (hrefused : slotsOf limit chain = refuse cause) : slotsOf limit narrowed = refuse cause := by
  induction h with
  | nil => exact hrefused
  | cons hlink hrest ih =>
    cases hlink with
    | operator hp =>
      rw [slotsOf] at hrefused ⊢
      rcases bind_refuse_iff.mp hrefused with hrefused | ⟨_, -, hrefused⟩
      · exact bind_refuse_iff.mpr (.inl (ih hrefused))
      · cases hrefused
    | operand content span =>
      rw [slotsOf] at hrefused ⊢
      rcases bind_refuse_iff.mp hrefused with hrefused | ⟨e, he, hrefused⟩
      · exact bind_refuse_iff.mpr (.inl hrefused)
      · rcases bind_refuse_iff.mp hrefused with hrefused | ⟨_, -, hrefused⟩
        · exact bind_refuse_iff.mpr (.inr ⟨e, he, bind_refuse_iff.mpr (.inl (ih hrefused))⟩)
        · cases hrefused

/-- The shape of a chain is never refused for an operator in itself. -/
theorem checkShape_ne_nested : chain.checkShape ≠ refuse (.nestedOperator o inner) := by
  have hmissing : ∀ p : Operator, ParseError.missingOperand p ≠ .nestedOperator o inner := by
    intro p hp
    unfold ParseError.missingOperand at hp
    split at hp <;> cases hp
  have hfrom : ∀ (wanting : Bool) (last : Option Operator) (rest : Chain),
      Chain.checkFrom wanting last rest ≠ refuse (.nestedOperator o inner) := by
    intro wanting last rest
    fun_induction Chain.checkFrom wanting last rest with
    | case1 p =>
      intro h
      exact hmissing p (Failure.refused.inj (Except.error.inj h))
    | case2 | case4 | case6 | case9 => exact fun h => by cases h
    | case3 | case5 | case7 | case8 => assumption
  intro h
  unfold Chain.checkShape at h
  split at h
  · cases h
  · rcases bind_refuse_iff.mp h with h | ⟨_, -, h⟩
    · exact hfrom _ _ _ h
    · cases h

/-- A settled chain is refused when the tree of its slots has an operator in itself. -/
theorem ofChain_refused_of_nests (hshape : narrowed.checkShape = .ok span)
    (hslots : slotsOf config.maxReadings narrowed = .ok slots) (hs : Shaped slots)
    (hu : Uncontested slots) (ht : Joined slots [.node t]) (hnests : t.nests ([·]) = true) :
    ∃ cause, ofChain config narrowed = refuse cause := by
  have hreduce := ofChain_eq_reduce hshape hslots
  rcases reduce_of_joined hs hu ht with h | ⟨cause, h, -⟩
  · have hnot := not_nests_of_ofChain (hreduce.trans h)
    rw [hnests] at hnot
    cases hnot
  · exact ⟨cause, hreduce.trans h⟩

/-- **A chain that is refused for an operator in itself can be settled so that it is refused.** Where
the operator is below the products, it is refused however it is settled. -/
theorem narrowing_refused_of_isGrouped (hg : chain.IsGrouped)
    (h : ofChain config chain = refuse (.nestedOperator o inner)) :
    (∃ narrowed ∈ chain.narrowings, ∃ cause, ofChain config narrowed = refuse cause) ∧
      (o.op.IsBelow Precedence.productRow →
        ∀ narrowed ∈ chain.narrowings, ∃ cause, ofChain config narrowed = refuse cause) := by
  obtain ⟨span, hshape, h⟩ : ∃ span, chain.checkShape = .ok span ∧ _ := by
    rcases bind_refuse_iff.mp h with h | hshape
    · exact absurd h checkShape_ne_nested
    · exact hshape
  rcases bind_refuse_iff.mp h with hslots | ⟨slots, hslots, hreduce⟩
  · -- an operand is refused, and that is an operand of every settled chain
    have hall : ∀ narrowed ∈ chain.narrowings, ∃ cause, ofChain config narrowed = refuse cause := by
      intro narrowed hmem
      have hnarrows := Chain.mem_narrowings.mp hmem
      have hshape' := Chain.checkShape_of_narrows hnarrows hshape
      have hslots' := slotsOf_refused_of_narrows hnarrows hslots
      exact ⟨_, bind_refuse_iff.mpr (.inr ⟨span, hshape', bind_refuse_iff.mpr (.inl hslots')⟩)⟩
    obtain ⟨narrowed, hmem⟩ := Chain.exists_narrowing chain
    exact ⟨⟨narrowed, hmem, hall narrowed hmem⟩, fun _ => hall⟩
  · have hplain := plain_of_slotsOf hslots
    have hbare : Bare slots := fun p hp => hg.bare p (mem_of_operator_slot (slotsOf_ok hslots) hp)
    have hsteady := Steady.of_plain (shaped_of_checkShape hslots hshape hg.closed) hbare hplain
    have hrejects := rejects_of_reduce hreduce fun site heq => by cases heq
    obtain ⟨first, t, hfirst, ht, haccounts⟩ := exists_fixes_of_rejects hrejects hsteady
    -- settled slots are those of a settled chain, and it is refused if their tree is
    have hrefused : ∀ {narrowed : Chain} {slots' : List Slot} {t : Expr},
        List.Forall₂ Chain.Link.Narrows chain narrowed →
        List.Forall₂ (LowersTo config.maxReadings) narrowed slots' →
        FixesAll Op.firmest slots slots' → Joined slots' [.node t] → t.nests ([·]) = true →
        ∃ cause, ofChain config narrowed = refuse cause := fun hnarrows hlowers hfixes ht hnests =>
      ofChain_refused_of_nests (Chain.checkShape_of_narrows hnarrows hshape)
        (slotsOf_of_lowersTo hlowers) (hsteady.shaped_of_fixes hfixes)
        (hsteady.uncontested_of_fixes hfixes) ht hnests
    have hvaries : VariesAll Op.narrowings slots first :=
      fixesAll_narrowings_iff.mp (fixesAll_of_plain hfirst hplain).1
    constructor
    · obtain ⟨narrowed, hnarrows, hlowers⟩ := exists_narrows_of_varies (slotsOf_ok hslots) hvaries
      exact ⟨narrowed, Chain.mem_narrowings.mpr hnarrows,
        hrefused hnarrows hlowers hfirst ht (nests_of_accounts haccounts)⟩
    · intro hbelow narrowed hmem
      have hlone : o.op.Lone := by
        cases haccounts with
        | nested halone => exact Op.lone_of_isBelow (by simpa [Op.isAlone] using halone) hbelow
      have hreads := reads_of_joined (hsteady.shaped_of_fixes hfirst)
        (hsteady.uncontested_of_fixes hfirst) ht
      have hclash := clash_of_accounts hlone hreads (fixesAll_of_plain (g := Op.firmest) hfirst hplain).2
        haccounts
      have hnarrows := Chain.mem_narrowings.mp hmem
      obtain ⟨slots', hlowers, hvaries'⟩ := exists_slots_of_narrows hnarrows (slotsOf_ok hslots)
      have hclash' := (clash_iff_of_varies hlone hvaries').mpr
        ((clash_iff_of_varies hlone hvaries).mp hclash)
      have hfixes' : FixesAll Op.firmest slots slots' :=
        (fixesAll_of_plain (fixesAll_narrowings_iff.mpr hvaries') hplain).1
      have hshaped' := hsteady.shaped_of_fixes hfixes'
      have hsettled' := hsteady.uncontested_of_fixes hfixes'
      obtain ⟨t', ht'⟩ := exists_joined hshaped' hsettled'
      have hnests := (reads_of_joined hshaped' hsettled' ht').nests_of_clash hlone hclash'
      exact hrefused hnarrows hlowers hfixes' ht' hnests

end Expr

/-! ## §7 Chains of a source -/

/-- **A chain of a source that is refused for an operator in itself can be settled so that it is
refused**, as a copy of it that is refused is not dropped. Where the operator is below the products,
what is a call and what is a product does not matter: the chain is refused however it is settled. -/
theorem Lexed.narrowing_refused_of_nested {lexer : LexerConfig} {s : Source} {l : Lexed}
    {chains : List Chain} {chain : Chain} {config : ParseConfig} {o inner : Operator}
    (hl : s.lex lexer = .ok l) (hchains : l.chains = .ok chains) (hmem : chain ∈ chains)
    (h : Expr.ofChain config chain = refuse (.nestedOperator o inner)) :
    (∃ narrowed ∈ chain.narrowings, ∃ cause, Expr.ofChain config narrowed = refuse cause) ∧
      (o.op.IsBelow Precedence.productRow →
        ∀ narrowed ∈ chain.narrowings, ∃ cause, Expr.ofChain config narrowed = refuse cause) :=
  Expr.narrowing_refused_of_isGrouped (Lexed.chains_sound hl hchains _ hmem).1 h

/-- Two assignments in a row, of a call that is raised to a power or a product with a power: both are
refused. -/
theorem Lexed.narrowing_refused_of_nested_assignment :
    let s : Source := ⟨['a', '=', 'b', '=', 'f', '(', 'x', ')', '^', '2'], none⟩
    let o : Operator := ⟨.symbol .assign, ⟨1, 2⟩⟩
    let inner : Operator := ⟨.symbol .assign, ⟨3, 4⟩⟩
    ∃ l chain, s.lex default = .ok l ∧ l.chains = .ok [chain] ∧
      Expr.ofChain default chain = refuse (.nestedOperator o inner) ∧
      o.op.IsBelow Precedence.productRow ∧ chain.narrowings.length = 2 ∧
      ∀ narrowed ∈ chain.narrowings, ∃ cause, Expr.ofChain default narrowed = refuse cause := by
  intro s o inner
  obtain ⟨l, chain, hl, hchains, hchain⟩ := @Lexed.exists_only_chain _ s
    (fun chain => (decide (Expr.ofChain default chain = refuse (.nestedOperator o inner)),
      chain.narrowings.length)) (true, 2) (by decide +kernel)
  obtain ⟨hrefused, hlength⟩ := by simpa only [Prod.mk.injEq] using hchain
  have hrefused := of_decide_eq_true hrefused
  have hbelow : o.op.IsBelow Precedence.productRow := by decide
  refine ⟨l, chain, hl, hchains, hrefused, hbelow, hlength, ?_⟩
  exact (Lexed.narrowing_refused_of_nested hl hchains (List.mem_singleton_self _) hrefused).2 hbelow

/-- **A chain may be refused for an operator in itself although it can be settled so that it has an
expression**: as a call, `A<B>(x)` with type parameters is an operand of type parameters; as a product
it is not. -/
theorem Lexed.exists_narrowing_accepted_of_nested :
    let s : Source := ⟨['A', '<', 'B', '>', '(', 'x', ')', '<', 'C', '>'], none⟩
    ∃ l chain narrowed v, s.lex default = .ok l ∧ l.chains = .ok [chain] ∧
      Expr.ofChain default chain =
        refuse (.nestedOperator ⟨.bond .typeParam, ⟨1, 1⟩⟩ ⟨.bond .typeParam, ⟨7, 7⟩⟩) ∧
      narrowed ∈ chain.narrowings ∧ Expr.ofChain default narrowed = .ok v := by
  intro s
  obtain ⟨l, chain, hl, hchains, hchain⟩ := @Lexed.exists_only_chain _ s
    (fun chain => (decide (Expr.ofChain default chain =
        refuse (.nestedOperator ⟨.bond .typeParam, ⟨1, 1⟩⟩ ⟨.bond .typeParam, ⟨7, 7⟩⟩)),
      chain.narrowings.any fun narrowed => (Expr.ofChain default narrowed).toOption.isSome))
    (true, true) (by decide +kernel)
  obtain ⟨hrefused, hany⟩ := by simpa only [Prod.mk.injEq] using hchain
  obtain ⟨narrowed, hmem, hsome⟩ := List.any_eq_true.mp hany
  obtain ⟨v, hv⟩ := Option.isSome_iff_exists.mp hsome
  exact ⟨l, chain, narrowed, v, hl, hchains, of_decide_eq_true hrefused, hmem,
    toOption_eq_some_iff.mp hv⟩

end DewyFront
