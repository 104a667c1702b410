/-
# DewyFront.Proofs.Enumeration — forks find the readings, all of them and no others

The expression of a list stands for several trees once candidates are picked and juxtapositions are
settled. The list itself stands for several lists once its juxtapositions are settled, and nothing
contests any of those. The trees are what those lists are reduced to, one for each.

* §1 forks and settled lists;
* §2 no reading is missed;
* §3 no reading is invented;
* §4 the readings of a list.
-/
import DewyFront.Proofs.Lifting

namespace DewyFront

namespace Reduction

open Climbing

variable {slots narrowed : List Slot}

/-! ## §1 Settled lists -/

theorem Tidy.settles (h : Tidy slots) (hv : VariesAll Op.narrowings slots narrowed) :
    SettlesAll slots narrowed :=
  settlesAll_of_varies (fun e he => (h.formed e he).even) hv

theorem Tidy.shaped_of_varies (h : Tidy slots) (hv : VariesAll Op.narrowings slots narrowed) :
    Shaped narrowed := by
  obtain ⟨t, ht, hwants⟩ := h.shaped
  exact ⟨t, (turnFrom_settled (h.settles hv) .operand).trans ht, hwants⟩

/-- **Nothing contests a settled list.** -/
theorem Tidy.uncontested_of_varies (h : Tidy slots)
    (hv : VariesAll Op.narrowings slots narrowed) : Uncontested narrowed := by
  intro o ho
  obtain ⟨s, hs, hslot⟩ := Reading.exists_of_mem_right hv ho
  cases hslot with
  | operator hp => exact Op.not_holdsContested_of_mem_narrowings (h.bare _ hs) hp

end Reduction

namespace Climbing

open Reduction

/-- **A list that nothing contests is joined to one tree at most.** -/
theorem eq_of_joined {slots : List Slot} {v w : Expr} (hs : Shaped slots) (hu : Uncontested slots)
    (hv : Joined slots [.node v]) (hw : Joined slots [.node w]) : v = w := by
  have hparse := parse_of_reads (reads_of_joined hs hu hv)
  rw [parse_of_reads (reads_of_joined hs hu hw)] at hparse
  exact (Option.some.inj hparse).symm

end Climbing

namespace Reading

open Reduction Climbing

variable {slots next narrowed : List Slot} {limit : Nat} {found : List Expr} {v w : Expr}

/-- **A list settles to what one of the copies of its fork settles to**, however the inside of its
nodes is settled. -/
theorem fixes_iff_of_fork {place : Nat} {f : Fork} {g : Op → List Op}
    (hs : survey slots = .ok (.contested place)) (h : fork slots place = .ok f) :
    FixesAll g slots narrowed ↔ ∃ copy ∈ f.copies, FixesAll g copy narrowed := by
  obtain ⟨front, back, m, rfl, hm, hcopies⟩ := fork_of_contested hs h
  have hcontested : (Op.juxtapose m).isContested = true := by simp [Op.isContested, hm]
  rw [hcopies]
  constructor
  · intro hv
    obtain ⟨front', rest, rfl, hfront, hrest⟩ := exists_append_of_forall₂ hv
    cases hrest with
    | cons hop hback =>
      cases hop with
      | operator hp =>
        simp only [Op.narrowings, hcontested, if_true] at hp
        obtain ⟨r, hr, rfl⟩ := List.mem_map.mp hp
        refine ⟨_, List.mem_map.mpr ⟨r, hr, rfl⟩,
          List.rel_append hfront (.cons (.operator ?_) hback)⟩
        have hnot := Op.isContested_of_holdsContested_eq_false
          (Op.not_holdsContested_of_mem_readings hr)
        rw [Op.narrowings_of_isContested_eq_false hnot]
        exact List.mem_singleton_self _
  · rintro ⟨copy, hcopy, hv⟩
    obtain ⟨r, hr, rfl⟩ := List.mem_map.mp hcopy
    obtain ⟨front', rest, rfl, hfront, hrest⟩ := exists_append_of_forall₂ hv
    cases hrest with
    | cons hop hback =>
      cases hop with
      | operator hp =>
        refine List.rel_append hfront
          (.cons (.operator (o := ⟨.juxtapose m, f.site⟩) ?_) hback)
        have hnot := Op.isContested_of_holdsContested_eq_false
          (Op.not_holdsContested_of_mem_readings hr)
        rw [Op.narrowings_of_isContested_eq_false hnot, List.mem_singleton] at hp
        simp only [Op.narrowings, hcontested, if_true]
        exact List.mem_map.mpr ⟨r, hr, hp.symm⟩

theorem fixesAll_narrowings_iff :
    FixesAll Op.narrowings slots narrowed ↔ VariesAll Op.narrowings slots narrowed := by
  refine ⟨fun h => h.imp fun _ _ hs => ?_,
    fixesAll_of_varies fun _ => List.Subset.refl _⟩
  cases hs with
  | operator hp => exact .operator hp
  | node he => exact .node he

/-- **A list settles to what one of the copies of its fork settles to.** -/
theorem varies_iff_of_fork {place : Nat} {f : Fork} (hs : survey slots = .ok (.contested place))
    (h : fork slots place = .ok f) :
    VariesAll Op.narrowings slots narrowed ↔
      ∃ copy ∈ f.copies, VariesAll Op.narrowings copy narrowed := by
  simp only [← fixesAll_narrowings_iff]
  exact fixes_iff_of_fork hs h

/-! ## §2 No reading is missed -/

/-- **A run of a list is a run of the settled list.** -/
theorem Runs.settled (h : Runs slots next) (ht : Tidy slots)
    (hv : VariesAll Op.narrowings slots narrowed) :
    ∃ last, Runs narrowed last ∧ VariesAll Op.narrowings next last := by
  induction h with
  | refl => exact ⟨narrowed, .refl, hv⟩
  | @tail middle _ hruns hstep ih =>
    obtain ⟨last, hlast, hsettled⟩ := ih
    have hmiddle : Tidy middle := Runs.tidy hruns ht
    obtain ⟨next', hnext, hall⟩ :=
      hstep.settled (hmiddle.settles hsettled) hmiddle.spaced hmiddle.noneAlone
    exact ⟨next', hlast.tail hnext, hall.varies⟩

section

variable {last : List Slot} {place : Nat} {f : Fork} {copies : List (List Slot)}

/-- What a list settles to runs to what one of the copies of its fork is settled to. -/
theorem exists_copy_of_varies (hruns : Runs slots last) (hs : survey last = .ok (.contested place))
    (hf : fork last place = .ok f) (hcopies : List.Forall₂ Runs f.copies copies) (ht : Tidy slots)
    (hv : VariesAll Op.narrowings slots narrowed) :
    ∃ copy ∈ copies, ∃ settled, Runs narrowed settled ∧ VariesAll Op.narrowings copy settled := by
  obtain ⟨first, hfirst, hsettled⟩ := Runs.settled hruns ht hv
  obtain ⟨origin, horigin, hvaries⟩ := (varies_iff_of_fork hs hf).mp hsettled
  obtain ⟨copy, hcopy, hrun⟩ := exists_of_mem_right hcopies.flip horigin
  obtain ⟨second, hsecond, hsettled⟩ :=
    Runs.settled hrun (tidy_of_fork hs hf (Runs.tidy hruns ht) horigin) hvaries
  exact ⟨copy, hcopy, second, hfirst.trans hsecond, hsettled⟩

/-- What a copy of a fork settles to is what the list before it is joined to once it is settled. -/
theorem exists_joined_of_copy (hruns : Runs slots last) (hs : survey last = .ok (.contested place))
    (hf : fork last place = .ok f) (hcopies : List.Forall₂ Runs f.copies copies) (ht : Tidy slots)
    {copy : List Slot} (hcopy : copy ∈ copies) (hv : VariesAll Op.narrowings copy narrowed) :
    ∃ origin, VariesAll Op.narrowings slots origin ∧ Joined origin narrowed := by
  obtain ⟨forked, hforked, hrun⟩ := exists_of_mem_right hcopies hcopy
  obtain ⟨second, hsecond, hjoined⟩ :=
    Runs.unsettled hrun (tidy_of_fork hs hf (Runs.tidy hruns ht) hforked) hv
  obtain ⟨first, hfirst, hjoined'⟩ :=
    Runs.unsettled hruns ht ((varies_iff_of_fork hs hf).mpr ⟨forked, hforked, hsecond⟩)
  exact ⟨first, hfirst, hjoined'.trans hjoined⟩

/-- The list that copies are merged to is tidy. -/
theorem tidy_of_merged {merged : List Slot} (hruns : Runs slots last)
    (hs : survey last = .ok (.contested place)) (hf : fork last place = .ok f)
    (hcopies : List.Forall₂ Runs f.copies copies) (ht : Tidy slots)
    (hmerge : merge limit f.site copies = .ok (some merged)) : Tidy merged := by
  have hlast : Tidy last := Runs.tidy hruns ht
  exact tidy_of_merge hmerge (fun c hc => (tidy_of_copies hs hf hlast hcopies hc).1)
    fun c hc => (tidy_of_copies hs hf hlast hcopies hc).2

end

/-- **What a list settles to has a reading**, and the readings of the list stand for it. -/
theorem exists_of_leads (h : Leads limit slots found) (ht : Tidy slots)
    (hv : VariesAll Op.narrowings slots narrowed) :
    ∃ v, Runs narrowed [.node v] ∧ ∃ e ∈ found, v ∈ e.variants Op.narrowings := by
  induction h generalizing narrowed with
  | @settled slots e hruns =>
    obtain ⟨last, hlast, hsettled⟩ := Runs.settled hruns ht hv
    cases hsettled with
    | cons hslot hnil =>
      cases hnil
      cases hslot with
      | node he => exact ⟨_, hlast, e, List.mem_singleton_self e, he⟩
  | merged hruns hcontested hfork hcopies hmerge _ ih =>
    obtain ⟨copy, hcopy, settled, hrun, hsettled⟩ :=
      exists_copy_of_varies hruns hcontested hfork hcopies ht hv
    have hmerged := tidy_of_merged hruns hcontested hfork hcopies ht hmerge
    obtain ⟨v, hv, hfound⟩ := ih hmerged ((variesAll_of_merge hmerge).mpr ⟨copy, hcopy, hsettled⟩)
    exact ⟨v, hrun.trans hv, hfound⟩
  | apart hruns hcontested hfork hcopies hfound _ ih =>
    obtain ⟨copy, hcopy, settled, hrun, hsettled⟩ :=
      exists_copy_of_varies hruns hcontested hfork hcopies ht hv
    have htidy := (tidy_of_copies hcontested hfork (Runs.tidy hruns ht) hcopies hcopy).1
    obtain ⟨r, hr, rfl⟩ := List.mem_map.mp hcopy
    obtain ⟨v, hv, e, he, hmem⟩ := ih r hr htidy hsettled
    exact ⟨v, hrun.trans hv, e, (hfound e).mpr ⟨r, hr, he⟩, hmem⟩

/-! ## §3 No reading is invented -/

/-- **What the readings of a list stand for, what it settles to is joined to.** -/
theorem joined_of_leads (h : Leads limit slots found) (ht : Tidy slots) :
    ∀ e ∈ found, ∀ v ∈ e.variants Op.narrowings,
      ∃ narrowed, VariesAll Op.narrowings slots narrowed ∧ Joined narrowed [.node v] := by
  induction h with
  | settled hruns =>
    intro e he v hv
    cases List.mem_singleton.mp he
    exact Runs.unsettled hruns ht (.cons (.node hv) .nil)
  | merged hruns hcontested hfork hcopies hmerge _ ih =>
    intro e he v hv
    have hmerged := tidy_of_merged hruns hcontested hfork hcopies ht hmerge
    obtain ⟨settled, hsettled, hjoined⟩ := ih hmerged e he v hv
    obtain ⟨copy, hcopy, hvaries⟩ := (variesAll_of_merge hmerge).mp hsettled
    obtain ⟨origin, horigin, hjoined'⟩ :=
      exists_joined_of_copy hruns hcontested hfork hcopies ht hcopy hvaries
    exact ⟨origin, horigin, hjoined'.trans hjoined⟩
  | apart hruns hcontested hfork hcopies hfound _ ih =>
    intro e he v hv
    obtain ⟨r, hr, he⟩ := (hfound e).mp he
    have hcopy := List.mem_map_of_mem (f := Prod.fst) hr
    have htidy := (tidy_of_copies hcontested hfork (Runs.tidy hruns ht) hcopies hcopy).1
    obtain ⟨settled, hsettled, hjoined⟩ := ih r hr htidy e he v hv
    obtain ⟨origin, horigin, hjoined'⟩ :=
      exists_joined_of_copy hruns hcontested hfork hcopies ht hcopy hsettled
    exact ⟨origin, horigin, hjoined'.trans hjoined⟩

/-! ## §4 The readings of a list -/

/-- **The readings of a list stand for what the lists that it settles to are reduced to.** -/
theorem mem_variants_iff_of_leads (h : Leads limit slots found) (ht : Tidy slots) :
    (∃ e ∈ found, v ∈ e.variants Op.narrowings) ↔
      ∃ narrowed, VariesAll Op.narrowings slots narrowed ∧ Runs narrowed [.node v] := by
  constructor
  · rintro ⟨e, he, hv⟩
    obtain ⟨narrowed, hvaries, hjoined⟩ := joined_of_leads h ht e he v hv
    obtain ⟨w, hruns, -⟩ := exists_of_leads h ht hvaries
    have heq := eq_of_joined (ht.shaped_of_varies hvaries) (ht.uncontested_of_varies hvaries) hjoined
      (joined_of_runs hruns)
    exact ⟨narrowed, hvaries, heq ▸ hruns⟩
  · rintro ⟨narrowed, hvaries, hruns⟩
    obtain ⟨w, hruns', hfound⟩ := exists_of_leads h ht hvaries
    have heq := eq_of_joined (ht.shaped_of_varies hvaries) (ht.uncontested_of_varies hvaries)
      (joined_of_runs hruns) (joined_of_runs hruns')
    exact heq ▸ hfound

end Reading

end DewyFront
