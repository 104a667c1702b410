/-
# DewyFront.Proofs.Limits — how many readings a list may come to

Every fork settles a juxtaposition in two ways, and what the last fork of a list leads to is merged.
So a list with `n + 1` juxtapositions that may be contested has `2 ^ n` readings at most, and a limit
that admits as many is never exceeded. Juxtapositions in different summands count together: two
readings of each of three summands may exceed a limit of two.

* §1 refusals of a run;
* §2 how many candidates are merged and collected;
* §3 the readings of a list;
* §4 chains;
* §5 sums.
-/
import DewyFront.Proofs.Sums
import Mathlib.Algebra.GroupWithZero.Nat

namespace DewyFront

namespace Reading

open Reduction

variable {slots next last copy : List Slot} {pulls : List Pull} {limit n : Nat} {cause : ParseError}
  {span site : Span} {t : Expr}

/-! ## §1 Runs -/

/-- **`Blames`** — a cause that is found at an operator which may not stand in itself or begins a flat
run. It is not the limit. -/
def Blames (slots : List Slot) (cause : ParseError) : Prop :=
  (∃ o, .operator o ∈ slots ∧ (o.op.isAlone = true ∨ o.op.isFlat = true)) ∧
    ∀ site n, cause ≠ .tooManyReadings site n

theorem Blames.mono (h : Blames next cause)
    (hmem : ∀ o, .operator o ∈ next → (o.op.isAlone = true ∨ o.op.isFlat = true) →
      .operator o ∈ slots) : Blames slots cause := by
  obtain ⟨⟨o, ho, hop⟩, hcause⟩ := h
  exact ⟨⟨o, hmem o ho hop, hop⟩, hcause⟩

/-- A pass is refused at an operator that may not stand in itself or begins a flat run. -/
theorem blames_of_pass (hs : Shaped slots) (hd : survey slots = .ok (.decided pulls))
    (h : pass slots pulls = refuse cause) : Blames slots cause := by
  obtain ⟨front, o, pull, back, hstands, hrefused⟩ := refused_of_pass hs hd h
  cases hrefused with
  | nested halone =>
    exact ⟨⟨o, hstands.mem, .inl (by simpa [Op.isAlone] using halone)⟩, by simp⟩
  | marks hrange =>
    have hflat : o.op.isFlat = true := by
      rw [hrange]
      rfl
    exact ⟨⟨o, hstands.mem, .inr hflat⟩, by simp⟩
  | pending hflat => exact ⟨⟨o, hstands.mem, .inr hflat⟩, by simp⟩

/-- **A run is refused at an operator** that may not stand in itself or begins a flat run. -/
theorem blames_of_runFor (hs : Shaped slots) (h : runFor n slots = refuse cause) :
    Blames slots cause := by
  obtain ⟨middle, pulls, hruns, hd, hpass⟩ := exists_pass_of_runFor h
  exact (blames_of_pass (hruns.shaped hs) hd hpass).mono fun o ho _ => hruns.mem_of_operator ho

/-! ## §2 Counting -/

theorem length_foldl_addNew_le (es found : List Expr) :
    (es.foldl addNew found).length ≤ found.length + es.length := by
  induction es generalizing found with
  | nil => exact Nat.le_refl _
  | cons e es ih =>
    have hone : (addNew found e).length ≤ found.length + 1 := by
      unfold addNew
      split
      · omega
      · exact Nat.le_of_eq List.length_append
    have hrest := ih (addNew found e)
    rw [List.foldl_cons, List.length_cons]
    omega

/-- **Merging is refused only for more candidates than there are copies.** -/
theorem merge_ne_refuse {copies : List (List Slot)} (hlimit : copies.length ≤ limit) :
    merge limit site copies ≠ refuse cause := by
  intro h
  unfold merge at h
  split at h
  · cases h
  · split at h
    · cases h
    · split at h
      · cases h
      · split at h
        · cases h
        · next nodes hnodes =>
          dsimp only at h
          split at h
          · next hlt =>
            have hle := length_foldl_addNew_le nodes []
            have hlen := (nodesAt_ok hnodes).length_eq
            rw [List.length_nil] at hle
            omega
          · cases h
      · cases h

/-- **`Bounded`** — there are readings, as many as the bound at most, or an operator is to blame that
there are none. -/
def Bounded (slots : List Slot) (bound : Nat) (x : Except (Failure ParseError) (List Expr)) : Prop :=
  (∃ found, x = .ok found ∧ found.length ≤ bound) ∨ ∃ cause, x = refuse cause ∧ Blames slots cause

theorem Bounded.of_blames {x : Except (Failure ParseError) α}
    {g : α → Except (Failure ParseError) (List Expr)} {bound : Nat} (hx : x = refuse cause)
    (h : Blames slots cause) : Bounded slots bound (x >>= g) :=
  .inr ⟨cause, bind_refuse_iff.mpr (.inl hx), h⟩

theorem Bounded.mono {bound bound' : Nat} {x : Except (Failure ParseError) (List Expr)}
    (h : Bounded next bound x) (hle : bound ≤ bound')
    (hblame : ∀ {cause : ParseError}, Blames next cause → Blames slots cause) :
    Bounded slots bound' x := by
  rcases h with ⟨found, hfound, hlen⟩ | ⟨cause, hcause, hblames⟩
  · exact .inl ⟨found, hfound, Nat.le_trans hlen hle⟩
  · exact .inr ⟨cause, hcause, hblame hblames⟩

/-- Readings that are collected stay below a limit that bounds them together. -/
theorem foldlM_bounded {read : List Slot → Except (Failure ParseError) (List Expr)} {bound : Nat}
    {copies : List (List Slot)} {acc : List Expr}
    (hread : ∀ copy ∈ copies, Bounded slots bound (read copy))
    (hlimit : acc.length + copies.length * bound ≤ limit) :
    Bounded slots (acc.length + copies.length * bound) (copies.foldlM (fun found copy => do
      let found := (← read copy).foldl addNew found
      if limit < found.length then refuse (.tooManyReadings site limit)
      else return found) acc) := by
  induction copies generalizing acc with
  | nil => exact .inl ⟨acc, rfl, Nat.le_add_right _ _⟩
  | cons copy copies ih =>
    rw [List.foldlM_cons]
    rw [List.length_cons, Nat.succ_mul] at hlimit ⊢
    rcases hread copy List.mem_cons_self with ⟨es, hes, hlen⟩ | ⟨cause, hcause, hblames⟩
    · have hle := length_foldl_addNew_le es acc
      have hfits : ¬ limit < (es.foldl addNew acc).length := by omega
      have hrest := ih (fun c hc => hread c (List.mem_cons_of_mem _ hc))
        (show (es.foldl addNew acc).length + copies.length * bound ≤ limit by omega)
      simp only [hes, bind, Except.bind, if_neg hfits, pure, Except.pure]
      rcases hrest with ⟨found, hfound, hcount⟩ | hrefused
      · exact .inl ⟨found, hfound, by omega⟩
      · exact .inr hrefused
    · exact .of_blames (bind_refuse_iff.mpr (.inl hcause)) hblames

/-! ## §3 Readings -/

/-- **`Suffices`** — a limit admits all readings of a list in which as many juxtapositions may be
contested. The last of them is merged. -/
def Suffices (limit count : Nat) : Prop := count = 0 ∨ 2 ≤ limit ∧ 2 ^ (count - 1) ≤ limit

theorem Suffices.mono {count count' : Nat} (h : Suffices limit count) (hle : count' ≤ count) :
    Suffices limit count' := by
  rcases h with rfl | ⟨htwo, hpow⟩
  · exact .inl (Nat.le_zero.mp hle)
  · have hmono : 2 ^ (count' - 1) ≤ 2 ^ (count - 1) :=
      Nat.pow_le_pow_right Nat.two_pos (Nat.sub_le_sub_right hle 1)
    exact .inr ⟨htwo, Nat.le_trans hmono hpow⟩

/-- Where a survey ends there is a juxtaposition that may be contested. -/
theorem contestable_pos {place : Nat} (h : survey slots = .ok (.contested place)) :
    0 < contestable slots := by
  obtain ⟨o, ho, hc⟩ := survey_contested h
  exact List.countP_pos_iff.mpr ⟨_, List.mem_of_getElem? ho, hc⟩

/-- Two copies that are one node each are merged. -/
theorem merge_nodes (e₁ e₂ : Expr) : merge limit site [[.node e₁], [.node e₂]] ≠ .ok none := by
  have hlen : [[Slot.node e₂]].any (·.length != [Slot.node e₁].length) = false := rfl
  unfold merge
  simp only [hlen, Bool.false_eq_true, if_false]
  by_cases heq : e₂ = e₁
  · simp [differences, heq]
  · have hd : differences [.node e₁] [[.node e₂]] = [(.node e₁, 0)] := by
      simp [differences, heq]
    have hnodes : nodesAt 0 [[.node e₁], [.node e₂]] = some [e₁, e₂] := rfl
    simp only [hd, hnodes]
    split
    · rintro ⟨⟩
    · rintro ⟨⟩

/-- A list that nothing contests ends as one node. -/
theorem eq_node_of_contestable {place : Option Nat} (hs : Shaped slots) (h : Ends slots place)
    (hz : contestable slots = 0) : ∃ e, slots = [.node e] := by
  cases h with
  | contested hcontested => exact absurd (contestable_pos hcontested) (by omega)
  | settled hd hpass => exact eq_node_of_ends hs (.settled hd hpass)

section Copies

variable {place : Nat} {f : Fork} {copies : List (List Slot)}

/-- A fork makes two copies. -/
theorem length_copies (hs : survey slots = .ok (.contested place)) (hf : fork slots place = .ok f) :
    f.copies.length = 2 := by
  obtain ⟨front, back, m, -, hm, hcopies⟩ := fork_of_contested hs hf
  rw [hcopies, List.length_map, hm]
  rfl

/-- What is to blame in a copy is to blame in the list: the juxtaposition that is settled may stand
in itself and begins no flat run. -/
theorem Blames.of_copy (hs : survey slots = .ok (.contested place)) (hf : fork slots place = .ok f)
    (hcopy : copy ∈ f.copies) (h : Blames copy cause) : Blames slots cause := by
  obtain ⟨front, back, m, rfl, -, hcopies⟩ := fork_of_contested hs hf
  rw [hcopies] at hcopy
  obtain ⟨r, hr, rfl⟩ := List.mem_map.mp hcopy
  apply h.mono
  intro o ho hop
  rcases List.mem_append.mp ho with ho | ho
  · exact List.mem_append_left _ ho
  · rcases List.mem_cons.mp ho with heq | ho
    · cases heq
      have hls := Op.levels_of_mem_readings hr
      simp [Op.isAlone, Op.isFlat, hls] at hop
    · exact List.mem_append_right _ (List.mem_cons_of_mem _ ho)

/-- What the copies of a fork are reduced to: as shaped and bare as the list, with fewer
juxtapositions that may be contested, and to blame for what the list is. -/
theorem of_copies (hs : survey slots = .ok (.contested place)) (hf : fork slots place = .ok f)
    (hshaped : Shaped slots) (hbare : Bare slots) (hcopies : runAll f.copies = .ok copies) :
    ∀ copy ∈ copies, Shaped copy ∧ Bare copy ∧ contestable copy < contestable slots ∧
      ∀ {cause : ParseError}, Blames copy cause → Blames slots cause := by
  intro copy hcopy
  obtain ⟨origin, horigin, hruns⟩ := exists_of_mem_right (runAll_ok hcopies) hcopy
  obtain ⟨hs', hb', hlt⟩ := copy_of_contested hs hf horigin
  refine ⟨hruns.shaped (hs' hshaped), hruns.bare (hb' hbare),
    Nat.lt_of_le_of_lt hruns.contestable_le hlt, fun {cause} hblames => ?_⟩
  exact (hblames.mono fun o ho _ => hruns.mem_of_operator ho).of_copy hs hf horigin

/-- **Copies that are not merged leave a juxtaposition that may be contested**: without one, either
copy is a node. -/
theorem exists_contestable_of_merge (hs : survey slots = .ok (.contested place))
    (hf : fork slots place = .ok f) (hshaped : Shaped slots) (hbare : Bare slots)
    (hcopies : runAll f.copies = .ok copies) (h : merge limit f.site copies = .ok none) :
    ∃ copy ∈ copies, 0 < contestable copy := by
  by_contra hnone
  have hnode : ∀ copy ∈ copies, ∃ e, copy = [.node e] := by
    intro copy hcopy
    obtain ⟨origin, -, place, hrun⟩ := exists_of_mem_right (run_of_runAll hcopies) hcopy
    refine eq_node_of_contestable (of_copies hs hf hshaped hbare hcopies copy hcopy).1 (run_ok hrun).2 ?_
    by_contra hne
    exact hnone ⟨copy, hcopy, Nat.pos_of_ne_zero hne⟩
  have htwo : copies.length = 2 :=
    (runAll_ok hcopies).length_eq.symm.trans (length_copies hs hf)
  obtain ⟨first, second, rfl⟩ := List.length_eq_two.mp htwo
  obtain ⟨e₁, rfl⟩ := hnode first (by simp)
  obtain ⟨e₂, rfl⟩ := hnode second (by simp)
  exact merge_nodes e₁ e₂ h

variable {read : List Slot → Except (Failure ParseError) (List Expr)}

/-- **`BoundedBelow`** — what is read of a list with fewer juxtapositions that may be contested doubles
with each of them but the last. -/
def BoundedBelow (read : List Slot → Except (Failure ParseError) (List Expr)) (count : Nat) : Prop :=
  ∀ next, Shaped next → Bare next → contestable next < count →
    Bounded next (2 ^ (contestable next - 1)) (read next)

/-- The list that copies are merged to has fewer readings than the bound of the list that is forked. -/
theorem bounded_of_merged {merged : List Slot} (hs : survey slots = .ok (.contested place))
    (hf : fork slots place = .ok f) (hshaped : Shaped slots) (hbare : Bare slots)
    (hcopies : runAll f.copies = .ok copies)
    (hmerge : merge limit f.site copies = .ok (some merged))
    (hread : BoundedBelow read (contestable slots)) :
    Bounded slots (2 ^ (contestable slots - 1)) (read merged) := by
  have hcopy := of_copies hs hf hshaped hbare hcopies
  obtain ⟨hshaped', copy, hmem, hops, hcount⟩ := merged_keeps hmerge
  obtain ⟨-, hb, hlt, hblame⟩ := hcopy copy hmem
  have hmerged := hread merged (hshaped' fun c hc => (hcopy c hc).1) (fun o ho => hb o (hops o ho))
    (hcount ▸ hlt)
  apply hmerged.mono
  · exact Nat.pow_le_pow_right Nat.two_pos (by omega)
  · intro cause hc
    exact hblame (hc.mono fun o ho _ => hops o ho)

/-- Copies that are read apart have half of the bound each. -/
theorem bounded_of_apart (hs : survey slots = .ok (.contested place))
    (hf : fork slots place = .ok f) (hshaped : Shaped slots) (hbare : Bare slots)
    (hcopies : runAll f.copies = .ok copies) (hmerge : merge limit f.site copies = .ok none)
    (hlimit : 2 ^ (contestable slots - 1) ≤ limit)
    (hread : BoundedBelow read (contestable slots)) :
    Bounded slots (2 ^ (contestable slots - 1)) (copies.foldlM (fun found copy => do
      let found := (← read copy).foldl addNew found
      if limit < found.length then refuse (.tooManyReadings f.site limit)
      else return found) []) := by
  have hcopy := of_copies hs hf hshaped hbare hcopies
  have hlen : copies.length = 2 := (runAll_ok hcopies).length_eq.symm.trans (length_copies hs hf)
  -- a copy is left with a contested juxtaposition, so the list has two of them at least
  obtain ⟨rest, hrest, hpos⟩ := exists_contestable_of_merge hs hf hshaped hbare hcopies hmerge
  have hlt := (hcopy rest hrest).2.2.1
  have hdouble : 2 * 2 ^ (contestable slots - 2) = 2 ^ (contestable slots - 1) := by
    rw [← Nat.pow_succ']
    congr 1
    omega
  have hall : ∀ copy ∈ copies, Bounded slots (2 ^ (contestable slots - 2)) (read copy) := by
    intro copy hmem
    obtain ⟨hs', hb', hlt', hblame⟩ := hcopy copy hmem
    exact (hread copy hs' hb' hlt').mono (Nat.pow_le_pow_right Nat.two_pos (by omega)) hblame
  have hfits : ([] : List Expr).length + copies.length * 2 ^ (contestable slots - 2) ≤ limit := by
    rw [List.length_nil, hlen]
    omega
  have hcollected := @foldlM_bounded slots limit f.site read _ copies [] hall hfits
  rw [List.length_nil, Nat.zero_add, hlen, hdouble] at hcollected
  exact hcollected

/-- **A fork has twice as many readings as a copy at most**, or those of the list its copies are merged
to. -/
theorem bounded_of_fork (hs : survey slots = .ok (.contested place))
    (hf : fork slots place = .ok f) (hshaped : Shaped slots) (hbare : Bare slots)
    (hlimit : Suffices limit (contestable slots)) (hread : BoundedBelow read (contestable slots)) :
    Bounded slots (2 ^ (contestable slots - 1)) (do
      let copies ← runAll f.copies
      match ← merge limit f.site copies with
      | some merged => read merged
      | none =>
        copies.foldlM (fun found copy => do
          let found := (← read copy).foldl addNew found
          if limit < found.length then refuse (.tooManyReadings f.site limit)
          else return found) []) := by
  obtain ⟨htwo, hpow⟩ : 2 ≤ limit ∧ 2 ^ (contestable slots - 1) ≤ limit := by
    rcases hlimit with hz | hlimit
    · exact absurd (contestable_pos hs) (by omega)
    · exact hlimit
  have horigin : ∀ copy ∈ f.copies, Shaped copy ∧ Bare copy := by
    intro copy hcopy
    obtain ⟨hs', hb', -⟩ := copy_of_contested hs hf hcopy
    exact ⟨hs' hshaped, hb' hbare⟩
  rcases ok_or_refuse_of_faultless (runAll_faultless horigin) with ⟨copies, hcopies⟩ | ⟨cause, hc⟩
  rotate_left
  · obtain ⟨copy, hcopy, hrun⟩ := exists_run_of_runAll hc
    have hblames := blames_of_runFor (horigin copy hcopy).1 hrun
    exact .of_blames hc (hblames.of_copy hs hf hcopy)
  rcases ok_or_refuse_of_faultless (merge_faultless limit f.site copies) with
    ⟨result, hmerge⟩ | ⟨cause, hc⟩
  rotate_left
  · have hlen := (runAll_ok hcopies).length_eq.symm.trans (length_copies hs hf)
    exact absurd hc (merge_ne_refuse (hlen ▸ htwo))
  simp only [hcopies, hmerge, bind, Except.bind]
  cases result with
  | some merged => exact bounded_of_merged hs hf hshaped hbare hcopies hmerge hread
  | none => exact bounded_of_apart hs hf hshaped hbare hcopies hmerge hpow hread

end Copies

/-- **The readings of a list double with every juxtaposition that may be contested but the last**, and
a limit that admits as many is not exceeded. -/
theorem readingsFor_bounded (hs : Shaped slots) (hb : Bare slots) (hn : contestable slots < n)
    (hlimit : Suffices limit (contestable slots)) :
    Bounded slots (2 ^ (contestable slots - 1)) (readingsFor limit n slots) := by
  induction n generalizing slots with
  | zero => cases hn
  | succ n ih =>
    rcases ok_or_refuse_of_faultless (run_faultless hs hb) with ⟨⟨last, contested⟩, hrun⟩ | ⟨c, hc⟩
    rotate_left
    · exact .of_blames hc (blames_of_runFor hs hc)
    obtain ⟨hruns, hends⟩ := run_ok hrun
    have hlast := hruns.shaped hs
    have hbare := hruns.bare hb
    have hle := hruns.contestable_le
    have hblame : ∀ {cause : ParseError}, Blames last cause → Blames slots cause :=
      fun hc => hc.mono fun o ho _ => hruns.mem_of_operator ho
    dsimp only at hends hlast hbare hle hblame
    unfold readingsFor
    simp only [hrun, bind, Except.bind]
    cases hends with
    | settled hd hpass =>
      obtain ⟨e, rfl⟩ := eq_node_of_ends hlast (.settled hd hpass)
      exact .inl ⟨[e], rfl, Nat.one_le_two_pow⟩
    | @contested place hcontested =>
      obtain ⟨f, hf⟩ := fork_ok hcontested
      simp only [hf]
      have hbelow : BoundedBelow (readingsFor limit n) (contestable last) := by
        intro next hs' hb' hlt
        exact ih hs' hb' (by omega) (hlimit.mono (by omega))
      have hforked := bounded_of_fork hcontested hf hlast hbare (hlimit.mono hle) hbelow
      exact hforked.mono (Nat.pow_le_pow_right Nat.two_pos (by omega)) hblame

/-- **Where a limit suffices, a list has its expression**, or an operator is to blame. -/
theorem reduce_bounded (span : Span) (hs : Shaped slots) (hb : Bare slots)
    (hlimit : Suffices limit (contestable slots)) :
    (∃ t, reduce limit span slots = .ok t) ∨
      ∃ cause, reduce limit span slots = refuse cause ∧ Blames slots cause := by
  rcases readingsFor_bounded hs hb (Nat.lt_succ_self _) hlimit with
    ⟨found, hfound, -⟩ | ⟨cause, hcause, hblames⟩
  · have hread : readings limit slots = .ok found := hfound
    unfold reduce
    simp only [hread, bind, Except.bind]
    split
    · exact .inl ⟨_, rfl⟩
    · exact .inl ⟨_, rfl⟩
  · exact .inr ⟨cause, bind_refuse_iff.mpr (.inl hcause), hblames⟩

end Reading

/-! ## §4 Chains -/

namespace Chain

variable {chain c₁ c₂ front back : Chain} {limit : Nat} {span : Span} {o : Operator}

/-- **`contested`** — how many juxtapositions of a chain may be contested. -/
def contested (chain : Chain) : Nat := chain.operators.countP (·.op.isContested)

theorem contested_plus : (plus span c₁ c₂).contested = c₁.contested + c₂.contested := by
  rw [contested, operators_plus, List.countP_append, List.countP_cons_of_neg Bool.false_ne_true]
  rfl

theorem exists_checkShape_iff :
    (∃ span, chain.checkShape = .ok span) ↔ chain ≠ [] ∧ checkFrom true none chain = .ok () := by
  cases chain with
  | nil =>
    constructor
    · rintro ⟨_, h⟩
      cases h
    · rintro ⟨h, -⟩
      exact absurd rfl h
  | cons link rest =>
    obtain ⟨span, hspan⟩ : ∃ span, span? (link :: rest) = some span := by
      simp [span?, List.getLast?_cons]
    unfold checkShape
    rw [hspan]
    constructor
    · rintro ⟨_, h⟩
      obtain ⟨⟨⟩, hfrom, -⟩ := bind_ok_iff.mp h
      exact ⟨List.cons_ne_nil _ _, hfrom⟩
    · rintro ⟨-, hfrom⟩
      exact ⟨span, bind_ok_iff.mpr ⟨(), hfrom, rfl⟩⟩

/-- Behind an operand it does not matter which operator was read last. -/
theorem checkFrom_false (last last' : Option Operator) (chain : Chain) :
    checkFrom false last chain = checkFrom false last' chain := by
  cases chain with
  | nil => rfl
  | cons link rest =>
    cases link with
    | operand content span => rfl
    | operator o => rfl

/-- Behind an operator a chain is checked as it is by itself. -/
theorem checkFrom_of_ne_nil {last : Option Operator} (hne : chain ≠ [])
    (h : checkFrom true none chain = .ok ()) : checkFrom true last chain = .ok () := by
  cases chain with
  | nil => exact absurd rfl hne
  | cons link rest =>
    cases link with
    | operand content span =>
      rw [← h]
      exact checkFrom_false last none rest
    | operator o => exact h

/-- Two chains are checked one after the other, with a binary operator between them. -/
theorem checkFrom_append {wanting : Bool} {last : Option Operator}
    (hne : front = [] → wanting = true → last ≠ none) (hbinary : o.op.isBinary = true)
    (hfront : checkFrom wanting last front = .ok ()) (hback : checkFrom true (some o) back = .ok ()) :
    checkFrom wanting last (front ++ .operator o :: back) = .ok () := by
  induction front generalizing wanting last with
  | nil =>
    cases wanting with
    | true =>
      cases last with
      | none => exact absurd rfl (hne rfl rfl)
      | some p => cases hfront
    | false =>
      rw [List.nil_append, checkFrom, if_neg Bool.false_ne_true, if_pos hbinary]
      exact hback
  | cons link front ih =>
    rw [List.cons_append]
    cases link with
    | operand content span =>
      obtain ⟨hwants, hrest⟩ := checkFrom_operand_iff.mp hfront
      exact checkFrom_operand_iff.mpr ⟨hwants, ih (fun _ h => by cases h) hrest⟩
    | operator p =>
      obtain ⟨w, hw, hrest⟩ := checkFrom_operator_iff.mp hfront
      -- an operator was read, so `last` is one
      exact checkFrom_operator_iff.mpr ⟨w, hw, ih (fun _ _ => by simp) hrest⟩

/-- **`Summand`** — a chain that may stand beside a plus sign: it is as grouping makes it, neither
semicolons nor flat operators are in it, its shape is right and its operands have expressions. -/
structure Summand (limit : Nat) (chain : Chain) : Prop where
  grouped : chain.IsGrouped
  unclosed : ∀ s, .operand (.atom .semicolon) s ∉ chain
  unflat : ∀ o ∈ chain.operators, o.op.isFlat = false
  shaped : ∃ span, chain.checkShape = .ok span
  lowered : ∃ slots, Expr.slotsOf limit chain = .ok slots

namespace Summand

/-- A chain that has an expression and operators in higher rows may stand beside a plus sign. -/
theorem of_ofChain {config : ParseConfig} (hg : chain.IsGrouped) (ha : chain.IsAbove 20)
    (h : ∃ t, Expr.ofChain config chain = .ok t) : Summand config.maxReadings chain := by
  obtain ⟨t, h⟩ := h
  obtain ⟨span, slots, hspan, hslots, -⟩ := Expr.assemble_ok h
  exact ⟨hg, notMem_semicolon hg.closed ha, fun o ho => Climbing.not_isFlat_of_isAbove (ha o ho),
    ⟨span, hspan⟩, ⟨slots, hslots⟩⟩

theorem plus (span : Span) (h₁ : Summand limit c₁) (h₂ : Summand limit c₂) :
    Summand limit (plus span c₁ c₂) where
  grouped := isGrouped_plus h₁.grouped h₂.grouped h₁.unclosed h₂.unclosed
  unclosed := notMem_semicolon_plus h₁.unclosed h₂.unclosed
  unflat o ho := by
    rw [operators_plus] at ho
    rcases List.mem_append.mp ho with ho | ho
    · exact h₁.unflat o ho
    · rcases List.mem_cons.mp ho with rfl | ho
      · rfl
      · exact h₂.unflat o ho
  shaped := by
    obtain ⟨hne₁, hcheck₁⟩ := exists_checkShape_iff.mp h₁.shaped
    obtain ⟨hne₂, hcheck₂⟩ := exists_checkShape_iff.mp h₂.shaped
    apply exists_checkShape_iff.mpr
    refine ⟨by simp [Chain.plus], checkFrom_append (fun h => absurd h hne₁) rfl hcheck₁ ?_⟩
    exact checkFrom_of_ne_nil hne₂ hcheck₂
  lowered := by
    obtain ⟨s₁, hs₁⟩ := h₁.lowered
    obtain ⟨s₂, hs₂⟩ := h₂.lowered
    exact ⟨_, Expr.slotsOf_plus hs₁ hs₂⟩

end Summand

/-- As many slots may be contested as operators of the chain. -/
theorem contestable_eq_contested {slots : List Slot} (h : Expr.slotsOf limit chain = .ok slots) :
    Reading.contestable slots = chain.contested := by
  have hlowers := Expr.slotsOf_ok h
  clear h
  induction hlowers with
  | nil => rfl
  | cons hlink _ ih =>
    unfold Reading.contestable contested at ih ⊢
    cases hlink with
    | operand he =>
      rw [List.countP_cons_of_neg (by simp [Slot.operator?]), operators]
      exact ih
    | operator o =>
      rw [operators, List.countP_cons, List.countP_cons, ih]
      rfl

/-- **Where a limit suffices, a chain that may be a summand has its expression**, or one of its
operators may not stand in itself. -/
theorem ofChain_bounded {config : ParseConfig} (h : Summand config.maxReadings chain)
    (hlimit : Reading.Suffices config.maxReadings chain.contested) :
    (∃ t, Expr.ofChain config chain = .ok t) ∨ ∃ cause, Expr.ofChain config chain = refuse cause ∧
      ¬ chain.NoneAlone ∧ ∀ site n, cause ≠ .tooManyReadings site n := by
  obtain ⟨span, hspan⟩ := h.shaped
  obtain ⟨slots, hslots⟩ := h.lowered
  have hshaped := Expr.shaped_of_checkShape hslots hspan h.grouped.closed
  have hbare : Reading.Bare slots := fun o ho =>
    h.grouped.bare o (Expr.mem_of_operator_slot (Expr.slotsOf_ok hslots) ho)
  rw [← contestable_eq_contested hslots] at hlimit
  rw [Expr.ofChain_eq_reduce hspan hslots]
  rcases Reading.reduce_bounded span hshaped hbare hlimit with
    hok | ⟨cause, hcause, ⟨⟨o, ho, hop⟩, hne⟩⟩
  · exact .inl hok
  · have ho := mem_operators.mpr (Expr.mem_of_operator_slot (Expr.slotsOf_ok hslots) ho)
    refine .inr ⟨cause, hcause, fun hnone => ?_, hne⟩
    rcases hop with halone | hflat
    · obtain ⟨level, hlevel, hassoc⟩ := List.any_eq_true.mp halone
      exact hnone o ho level hlevel (by simpa using hassoc)
    · rw [h.unflat o ho] at hflat
      cases hflat

/-! ## §5 Sums -/

/-- **`sum`** — chains with plus signs between them, which stand at the spans. -/
def sum (first : Chain) (rest : List (Span × Chain)) : Chain :=
  rest.foldl (fun c (span, d) => plus span c d) first

variable {first : Chain} {rest : List (Span × Chain)}

/-- What holds of the summands and is kept by a plus sign holds of the sum. -/
theorem sum_induction {P : Chain → Prop} (hplus : ∀ span c₁ c₂, P c₁ → P c₂ → P (plus span c₁ c₂))
    (h : ∀ c ∈ first :: rest.map Prod.snd, P c) : P (sum first rest) := by
  induction rest generalizing first with
  | nil => exact h first List.mem_cons_self
  | cons next rest ih =>
    obtain ⟨span, d⟩ := next
    apply ih
    intro c hc
    rcases List.mem_cons.mp hc with rfl | hc
    · exact hplus span first d (h first List.mem_cons_self) (h d (by simp))
    · exact h c (by simp [hc])

theorem contested_sum :
    (sum first rest).contested = ((first :: rest.map Prod.snd).map contested).sum := by
  induction rest generalizing first with
  | nil => simp [sum]
  | cons next rest ih =>
    obtain ⟨span, d⟩ := next
    rw [sum, List.foldl_cons, ← sum, ih]
    simp [contested_plus, Nat.add_assoc]

end Chain

namespace Expr

variable {config : ParseConfig} {first : Chain} {rest : List (Span × Chain)}

/-- **A limit on readings is not exceeded by a sum whose summands are accepted**, if it admits what
the contested juxtapositions of all summands come to. Such a sum is accepted, unless an operator may
not stand in itself. -/
theorem ofChain_sum_ok (hg : ∀ c ∈ first :: rest.map Prod.snd, c.IsGrouped)
    (ha : ∀ c ∈ first :: rest.map Prod.snd, c.IsAbove 20)
    (hok : ∀ c ∈ first :: rest.map Prod.snd, ∃ t, ofChain config c = .ok t)
    (hlimit : Reading.Suffices config.maxReadings
      ((first :: rest.map Prod.snd).map Chain.contested).sum) :
    (∀ site n, ofChain config (Chain.sum first rest) ≠ refuse (.tooManyReadings site n)) ∧
    ((∀ c ∈ first :: rest.map Prod.snd, c.NoneAlone) →
      ∃ t, ofChain config (Chain.sum first rest) = .ok t) := by
  have hsummand : Chain.Summand config.maxReadings (Chain.sum first rest) :=
    Chain.sum_induction (fun span _ _ h₁ h₂ => h₁.plus span h₂)
      fun c hc => .of_ofChain (hg c hc) (ha c hc) (hok c hc)
  rw [← Chain.contested_sum] at hlimit
  rcases Chain.ofChain_bounded hsummand hlimit with ⟨t, ht⟩ | ⟨cause, hcause, halone, hne⟩
  · constructor
    · intro site n h
      rw [ht] at h
      cases h
    · intro _
      exact ⟨t, ht⟩
  · constructor
    · intro site n h
      rw [hcause] at h
      cases h
      exact hne site n rfl
    · intro hnone
      exact absurd (Chain.sum_induction (fun _ _ _ => Chain.noneAlone_plus) hnone) halone

/-- Two powers of calls: two contested juxtapositions, and a limit of two readings. -/
theorem ofChain_sum_ok_of_two_powers :
    let config : ParseConfig := ⟨2, default⟩
    let jux : Operator := ⟨.juxtapose ⟨true, true, true⟩, ⟨1, 1⟩⟩
    let block : Chain.Operand := .block .paren none [[.operand (.atom (.identifier ['x'])) ⟨2, 3⟩]]
    let power : Chain := [.operand (.atom (.identifier ['f'])) ⟨0, 1⟩, .operator jux,
      .operand block ⟨1, 4⟩, .operator ⟨.symbol .caret, ⟨4, 5⟩⟩,
      .operand (.atom (.identifier ['z'])) ⟨5, 6⟩]
    let sum : Chain := Chain.sum power [(⟨7, 8⟩, power)]
    sum.contested = 2 ∧ (∀ site n, ofChain config sum ≠ refuse (.tooManyReadings site n)) ∧
      ∃ t, ofChain config sum = .ok t := by
  intro config jux block power sum
  have hpower : power.IsGrouped := by
    refine ⟨Chain.isClosed_of_notMem (by simp [power, block]), ?_, ?_⟩
    · apply Chain.isTight_operand
      apply Chain.isTight_operator
      · apply Chain.isTight_operand
        exact Chain.isTight_operator (Chain.isTight_operand Chain.isTight_nil) fun hc => by cases hc
      · exact fun _ => ⟨block, ⟨1, 4⟩, _, rfl⟩
    · intro o ho
      have hcases : o = jux ∨ o = ⟨.symbol .caret, ⟨4, 5⟩⟩ := by simpa [power] using ho
      rcases hcases with rfl | rfl
      · exact Op.isBare_juxtapose _
      · exact Op.isBare_of_holdsContested_eq_false rfl
  have hall : ∀ {P : Chain → Prop}, P power →
      ∀ c ∈ power :: [((⟨7, 8⟩ : Span), power)].map Prod.snd, P c := by
    intro P h c hc
    obtain rfl : c = power := by simpa using hc
    exact h
  have hok := exists_ok_of_isSome (x := ofChain config power) (by decide +kernel)
  have hsum := ofChain_sum_ok (hall hpower) (hall (P := (Chain.IsAbove 20 ·)) (by decide)) (hall hok)
    (.inr ⟨Nat.le_refl 2, by decide⟩)
  exact ⟨by decide, hsum.1, hsum.2 (hall (P := Chain.NoneAlone) (by decide))⟩

/-- **A limit may be exceeded by a sum whose summands do not exceed it**: a power of a call has two
readings, and the sum of three has four. -/
theorem ofChain_sum_refused :
    let config : ParseConfig := ⟨2, default⟩
    let power (n : Nat) : Chain := [.operand (.atom (.identifier ['f'])) ⟨n, n + 1⟩,
      .operator ⟨.juxtapose ⟨true, true, true⟩, ⟨n + 1, n + 1⟩⟩,
      .operand (.block .paren none [[.operand (.atom (.identifier ['x'])) ⟨n + 2, n + 3⟩]])
        ⟨n + 1, n + 4⟩,
      .operator ⟨.symbol .caret, ⟨n + 4, n + 5⟩⟩,
      .operand (.atom (.identifier ['z'])) ⟨n + 5, n + 6⟩]
    (∀ n ∈ [0, 9, 18], (power n).IsAbove 20 ∧ ∃ t, ofChain config (power n) = .ok t) ∧
      ofChain config (Chain.sum (power 0) [(⟨7, 8⟩, power 9), (⟨16, 17⟩, power 18)]) =
        refuse (.tooManyReadings ⟨1, 1⟩ 2) := by
  intro config power
  have hsum : ofChain config (Chain.sum (power 0) [(⟨7, 8⟩, power 9), (⟨16, 17⟩, power 18)]) =
      refuse (.tooManyReadings ⟨1, 1⟩ 2) := by decide +kernel
  refine ⟨?_, hsum⟩
  intro n hn
  have hcases : n = 0 ∨ n = 9 ∨ n = 18 := by simpa using hn
  rcases hcases with rfl | rfl | rfl
  · exact ⟨by decide, exists_ok_of_isSome (by decide +kernel)⟩
  · exact ⟨by decide, exists_ok_of_isSome (by decide +kernel)⟩
  · exact ⟨by decide, exists_ok_of_isSome (by decide +kernel)⟩

end Expr

end DewyFront
