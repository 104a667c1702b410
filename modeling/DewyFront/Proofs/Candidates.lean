/-
# DewyFront.Proofs.Candidates — what an ambiguous node holds

An ambiguous node is made in two places: where copies of a list are merged, and where the readings of a
list differ as a whole. In both of them an expression is added once only, a single one stands for itself,
and more than the limit are refused. So whoever chooses among the candidates of a node has a choice, and
none of them twice.

* §1 choices;
* §2 expressions that are added;
* §3 the nodes of a list;
* §4 readings;
* §5 the chains of a source.
-/
import DewyFront.Proofs.Choices
import DewyFront.Proofs.PlacedExprs
import DewyFront.Proofs.Throughout

namespace DewyFront

/-! ## §1 Choices -/

/-- **`Choice`** — there are several expressions, at most `limit` of them, and no two are the same. -/
structure Choice (limit : Nat) (es : List Expr) : Prop where
  several : 2 ≤ es.length
  within : es.length ≤ limit
  nodup : es.Nodup

/-- If an expression is ambiguous, its candidates are a choice. -/
def Expr.Chooses (limit : Nat) (e : Expr) : Prop :=
  ∀ candidates span, e = .ambiguous candidates span → Choice limit candidates

theorem Expr.chooses_of_isOperand {limit : Nat} {e : Expr} (h : e.IsOperand) : e.Chooses limit := by
  rintro candidates span rfl
  exact h.elim

namespace Reading

open Reduction

variable {slots next copy merged : List Slot} {copies : List (List Slot)} {limit n : Nat} {site : Span}
  {found nodes : List Expr}

/-! ## §2 Adding -/

theorem nodup_foldl_addNew (h : found.Nodup) : (nodes.foldl addNew found).Nodup := by
  induction nodes generalizing found with
  | nil => exact h
  | cons e nodes ih =>
    refine ih ?_
    rw [addNew]
    split
    · exact h
    · next hnew =>
      exact (List.nodup_append.mpr ⟨h, List.pairwise_singleton _ e, fun c hc d hd hcd =>
        hnew (List.mem_singleton.mp hd ▸ hcd ▸ hc)⟩)

/-- **`Settled`** — one expression, or a choice of several. -/
def Settled (limit : Nat) (found : List Expr) : Prop := (∃ e, found = [e]) ∨ Choice limit found

theorem settled_of_nodup (hne : found ≠ []) (hnodup : found.Nodup) (hwithin : found.length ≤ limit) :
    Settled limit found := by
  match found, hne with
  | [e], _ => exact .inl ⟨e, rfl⟩
  | e :: f :: rest, _ => exact .inr ⟨by simp, hwithin, hnodup⟩

/-- **Copies that are read apart** give every reading once, and no more than there may be. -/
theorem within_of_foldlM {read : List Slot → Except (Failure ParseError) (List Expr)} {acc : List Expr}
    (h : copies.foldlM (fun found copy => do
      let found := (← read copy).foldl addNew found
      if limit < found.length then refuse (.tooManyReadings site limit)
      else return found) acc = .ok found) (hacc : acc.Nodup) :
    found.Nodup ∧ (copies ≠ [] → found.length ≤ limit) := by
  induction copies generalizing acc with
  | nil =>
    cases h
    exact ⟨hacc, fun hne => absurd rfl hne⟩
  | cons copy copies ih =>
    rw [List.foldlM_cons] at h
    obtain ⟨next, hnext, h⟩ := bind_ok_iff.mp h
    obtain ⟨es, -, hnext⟩ := bind_ok_iff.mp hnext
    dsimp only at hnext
    split at hnext
    · cases hnext
    · next hwithin =>
      cases hnext
      obtain ⟨hnodup, hrest⟩ := ih h (nodup_foldl_addNew hacc)
      refine ⟨hnodup, fun _ => ?_⟩
      cases copies with
      | nil =>
        cases h
        exact Nat.le_of_not_lt hwithin
      | cons copy' copies => exact hrest (List.cons_ne_nil _ _)

/-! ## §3 Nodes -/

/-- A stretch is joined to a node that is not ambiguous. -/
theorem chooses_of_joins {front back seg : List Slot} {e : Expr} (h : Joins front back seg e) :
    e.Chooses limit := by
  rintro candidates span rfl
  cases h

/-- The nodes of a list are such that whatever is ambiguous, at any depth, is a choice. -/
abbrev AllChoose (limit : Nat) (slots : List Slot) : Prop :=
  AllNodes (Expr.Throughout (Expr.Chooses limit)) slots

theorem Runs.allChoose (hr : Runs slots next) (h : AllChoose limit slots) : AllChoose limit next :=
  hr.keep (fun ha hstep => hstep.passes.allNodes (fun hjoins hseg =>
    hjoins.throughout (chooses_of_joins hjoins) hseg) ha) h

/-- Candidates become one node that is a choice, unless there is only one of them. -/
theorem throughout_ambiguousOf (hsettled : Settled limit found)
    (h : ∀ e ∈ found, e.Throughout (Expr.Chooses limit)) :
    (ambiguousOf site found).Throughout (Expr.Chooses limit) := by
  rcases hsettled with ⟨e, rfl⟩ | hchoice
  · exact h e (List.mem_singleton_self e)
  · have hne : found ≠ [] := List.ne_nil_of_length_pos (Nat.lt_of_lt_of_le Nat.zero_lt_two hchoice.several)
    rcases ambiguousOf_cases site hne with ⟨e, rfl, heq⟩ | ⟨e, rest, rfl, heq⟩
    · rw [heq]
      exact h e (List.mem_singleton_self e)
    · rw [heq]
      refine .intro ?_ h
      rintro candidates span ⟨⟩
      exact hchoice

/-- **What merging makes is a choice.** -/
theorem allChoose_of_merge (h : merge limit site copies = .ok (some merged))
    (hs : ∀ copy ∈ copies, AllChoose limit copy) : AllChoose limit merged := by
  refine allNodes_of_merge h hs fun _ nodes _ _ hne hnodes hwithin => ?_
  have hsettled : Settled limit (nodes.foldl addNew []) :=
    settled_of_nodup (foldl_addNew_ne_nil hne) (nodup_foldl_addNew List.nodup_nil) hwithin
  exact throughout_ambiguousOf hsettled fun c hc => hnodes c (mem_foldl_addNew_nil.mp hc)

/-! ## §4 Readings -/

/-- **The readings of a list are one, or a choice**, and so is whatever is ambiguous in them. -/
theorem settled_of_readingsFor (h : readingsFor limit n slots = .ok found)
    (hs : AllChoose limit slots) :
    Settled limit found ∧ ∀ e ∈ found, e.Throughout (Expr.Chooses limit) := by
  induction n generalizing slots found with
  | zero => cases h
  | succ n ih =>
    obtain ⟨ended, hended, h⟩ := bind_ok_iff.mp h
    obtain ⟨last, contested⟩ := ended
    obtain ⟨hruns, hends⟩ := run_ok hended
    have hlast := Runs.allChoose hruns hs
    cases contested with
    | none =>
      obtain ⟨e, he, h⟩ := bind_ok_iff.mp h
      cases h
      obtain rfl : last = [.node e] := onlyNode_ok he
      exact ⟨.inl ⟨e, rfl⟩,
        List.forall_mem_singleton.mpr (hlast e (List.mem_singleton_self (Slot.node e)))⟩
    | some place =>
      cases hends with
      | contested hcontested =>
        obtain ⟨f, hfork, h⟩ := bind_ok_iff.mp h
        obtain ⟨copies, hcopies, h⟩ := bind_ok_iff.mp h
        obtain ⟨result, hmerge, h⟩ := bind_ok_iff.mp h
        have hrun := runAll_ok hcopies
        have hcopy : ∀ copy ∈ copies, AllChoose limit copy := by
          intro copy hmem
          obtain ⟨origin, horigin, hruns⟩ := exists_of_mem_right hrun hmem
          exact Runs.allChoose hruns (allNodes_of_fork hcontested hfork hlast horigin)
        cases result with
        | some merged => exact ih h (allChoose_of_merge hmerge hcopy)
        | none =>
          obtain ⟨hnodup, hwithin⟩ := within_of_foldlM h List.nodup_nil
          obtain ⟨results, rfl, hread, hmem⟩ := foldlM_ok h
          have hresult : ∀ r ∈ results, Settled limit r.2 ∧
              ∀ e ∈ r.2, e.Throughout (Expr.Chooses limit) := fun r hr =>
            ih (hread r hr) (hcopy r.1 (List.mem_map_of_mem hr))
          -- there are copies, and each of them has a reading
          obtain ⟨r, hr⟩ : ∃ r, r ∈ results := by
            obtain ⟨front, back, m, -, hm, heq⟩ := fork_of_contested hcontested hfork
            have hlength := hrun.length_eq
            rw [heq, hm, List.length_map, List.length_map] at hlength
            exact List.exists_mem_of_length_pos (hlength ▸ Nat.zero_lt_two)
          have hne : found ≠ [] := by
            have hsettled := (hresult r hr).1
            obtain ⟨e, he⟩ : ∃ e, e ∈ r.2 := by
              rcases hsettled with ⟨e, heq⟩ | hchoice
              · exact ⟨e, heq ▸ List.mem_singleton_self e⟩
              · exact List.exists_mem_of_length_pos (Nat.lt_of_lt_of_le Nat.zero_lt_two hchoice.several)
            exact List.ne_nil_of_mem ((hmem e).mpr (.inr ⟨r, hr, he⟩))
          refine ⟨settled_of_nodup hne hnodup (hwithin ?_), fun e he => ?_⟩
          · exact List.ne_nil_of_mem (List.mem_map_of_mem hr)
          · obtain hnil | ⟨r, hr, he⟩ := (hmem e).mp he
            · cases hnil
            · exact (hresult r hr).2 e he

/-- **Whatever is ambiguous in the expression of a list is a choice**, if it is in the nodes of the
list. -/
theorem throughout_of_reduce {span : Span} {t : Expr} (h : reduce limit span slots = .ok t)
    (hs : AllChoose limit slots) : t.Throughout (Expr.Chooses limit) := by
  obtain ⟨found, hfound, h⟩ := bind_ok_iff.mp h
  obtain ⟨hsettled, hall⟩ := settled_of_readingsFor hfound hs
  split at h
  · cases h
    exact hall t (List.mem_singleton_self t)
  · next hnot =>
    cases h
    refine .intro ?_ hall
    rintro candidates span ⟨⟩
    rcases hsettled with ⟨e, rfl⟩ | hchoice
    · exact absurd rfl (hnot e)
    · exact hchoice

end Reading

/-! ## §5 Chains -/

namespace Expr

/-- The nodes of a tree choose, as reduction makes them. -/
theorem conveys_chooses (limit : Nat) :
    Conveys limit (fun _ => True) (fun _ => True) (fun _ => True) (Chooses limit) where
  operand he _ := chooses_of_isOperand he
  hole _ _ := trivial
  reduce _ _ _ hs ht := ⟨Reading.throughout_of_reduce ht hs, trivial⟩

/-- **Whatever is ambiguous in the expression of a chain is a choice**, at any depth. -/
theorem throughout_chooses_of_ofChain {config : ParseConfig} {chain : Chain} {t : Expr}
    (h : ofChain config chain = .ok t) : t.Throughout (Chooses config.maxReadings) :=
  ((conveys_chooses config.maxReadings).ofChain
    ⟨trivial, fun content _ => content.within_of_forall (fun _ => trivial) fun _ => trivial⟩ h).1

end Expr

theorem Chain.PlacedAll.of_mem {p : Nat → Prop} {lo hi : Nat} {chains : List Chain} {chain : Chain}
    (h : Chain.PlacedAll p lo hi chains) (hchain : chain ∈ chains) : ∃ lo' hi',
      Span.Ascends p lo' hi' (chain.map Chain.Link.span) ∧ Chain.Placed p chain := by
  induction chains generalizing lo with
  | nil => cases hchain
  | cons first chains ih =>
    rw [Chain.PlacedAll] at h
    obtain ⟨middle, hfirst, hrest⟩ := h
    rcases List.mem_cons.mp hchain with rfl | hchain
    · exact ⟨lo, middle, hfirst⟩
    · exact ih hrest hchain

/-- The chains of a source are in order. -/
theorem Lexed.placedAll_chains {lexer : LexerConfig} {s : Source} {l : Lexed} {chains : List Chain}
    (hl : s.lex lexer = .ok l) (hchains : l.chains = .ok chains) :
    Chain.PlacedAll (IsBoundary s.text) 0 s.size chains := by
  rw [Lexed.chains_eq] at hchains
  obtain ⟨settled, hsettled, hgrouped⟩ := bind_ok_iff.mp (mapError_ok_iff.mp hchains)
  exact (Chain.placed_ofTrees ((Tree.level_settle (Lexed.level hl)).of_eq_ok hsettled)).of_eq_ok hgrouped

/-- **Ambiguous nodes are well formed.** In the expression of every chain of a source, an ambiguous node
at any depth has at least two candidates and no more than there may be readings, no two candidates are
the same, and the node covers each of them. -/
theorem Lexed.choice_of_ofChain {lexer : LexerConfig} {config : ParseConfig} {s : Source} {l : Lexed}
    {chains : List Chain} {chain : Chain} {t : Expr} (hl : s.lex lexer = .ok l)
    (hchains : l.chains = .ok chains) (hchain : chain ∈ chains)
    (ht : Expr.ofChain config chain = .ok t) :
    t.Throughout fun e => ∀ candidates span, e = .ambiguous candidates span →
      Choice config.maxReadings candidates ∧ ∀ c ∈ candidates, span.Covers c.span := by
  have hzero : IsBoundary s.text 0 := ⟨[], s.text, rfl, rfl⟩
  have hsound := Lexed.chains_sound hl hchains _ hchain
  obtain ⟨lo, hi, hplaced⟩ := (Lexed.placedAll_chains hl hchains).of_mem hchain
  have hbetween : EndsOn (IsBoundary s.text) (Reduction.Between (IsBoundary s.text) lo hi)
      (Expr.ofChain config chain) := Expr.between_ofChain hzero hsound hplaced
  have hfits := (hbetween.of_eq_ok ht).1.throughout
  refine ((Expr.throughout_chooses_of_ofChain ht).and hfits).mono ?_
  rintro e ⟨hchooses, hfit⟩ candidates span rfl
  exact ⟨hchooses candidates span rfl, hfit.parts⟩

/-- In brackets, a call that is raised to a power, or a product with a power: a choice of the two. -/
theorem Lexed.choice_of_ofChain_of_power :
    let s : Source := ⟨['[', 'f', '(', 'x', ')', '^', '2', ']'], none⟩
    ∃ l chain kind base candidates span whole, s.lex default = .ok l ∧ l.chains = .ok [chain] ∧
      Expr.ofChain default chain = .ok (.block kind base [.ambiguous candidates span] whole) ∧
      Choice 64 candidates ∧ ∀ c ∈ candidates, span.Covers c.span := by
  intro s
  -- The call is raised to a power, or the factor behind it.
  let f : Expr := .atom (.identifier ['f']) ⟨1, 2⟩
  let x : Expr := .block .paren none [.atom (.identifier ['x']) ⟨3, 4⟩] ⟨2, 5⟩
  let two : Expr := .atom (.integer ⟨.decimal, ['2']⟩) ⟨6, 7⟩
  let caret : Operator := ⟨.symbol .caret, ⟨5, 6⟩⟩
  let candidates : List Expr :=
    [.binary caret (.binary ⟨.juxtapose ⟨true, false, false⟩, ⟨2, 2⟩⟩ f x ⟨1, 5⟩) two ⟨1, 7⟩,
      .binary ⟨.juxtapose ⟨false, false, true⟩, ⟨2, 2⟩⟩ f (.binary caret x two ⟨2, 7⟩) ⟨1, 7⟩]
  obtain ⟨l, chain, hl, hchains, hchain⟩ := @Lexed.exists_only_chain _ s
    (fun chain => (Expr.ofChain default chain).toOption)
    (some (.block .bracket none [.ambiguous candidates ⟨1, 7⟩] ⟨0, 8⟩)) (by decide +kernel)
  have ht := toOption_eq_some_iff.mp hchain
  have hthroughout := Lexed.choice_of_ofChain hl hchains (List.mem_singleton_self _) ht
  have hinner := hthroughout.inside _ (List.mem_singleton_self _)
  exact ⟨l, chain, .bracket, none, candidates, ⟨1, 7⟩, ⟨0, 8⟩, hl, hchains, ht,
    hinner.here candidates ⟨1, 7⟩ rfl⟩

end DewyFront
