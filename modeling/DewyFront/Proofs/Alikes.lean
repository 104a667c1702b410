/-
# DewyFront.Proofs.Alikes — digits that are a name as well

In a block whose base has letters for digits, a number and a name may be equally long. A scan that is
refused for that stands in such a block, in front of a letter, and what both take begins with the letter
and holds digits of the base and separators only.

* §1 refused scans;
* §2 what no matcher and no token is refused for;
* §3 numbers that are names.
-/
import DewyFront.Proofs.Rereading

namespace DewyFront

variable {config : LexerConfig} {source rest : Text} {errors : List LexError} {e : LexError}

/-! ## §1 Refused scans -/

namespace Scan

variable {s : Scan}

/-- **A scan is refused at its end, or by a step** that it comes to. -/
theorem Reaches.exists_refused (h : Reaches config source s rest)
    (hrun : run config s rest = refuse errors) :
    (∃ last, Reaches config source last [] ∧ last.finish = refuse errors) ∨
    ∃ last left e, Reaches config source last left ∧ left ≠ [] ∧ last.step config left = refuse e ∧
      errors = last.errors ++ [e] := by
  obtain ⟨last, left, hlast, heq, rfl | ⟨hne, failure, hstep⟩⟩ := h.exists_last
  · rw [heq, run] at hrun
    exact .inl ⟨last, hlast, hrun⟩
  · rw [heq, run_of_failure hne hstep] at hrun
    cases failure with
    | refused e =>
      cases hrun
      exact .inr ⟨last, left, e, hlast, hne, hstep, rfl⟩
    | broken f => cases hrun

end Scan

/-! ## §2 Other causes -/

/-- Causes that are about a number and a name. -/
def LexError.isAlike : LexError → Bool
  | .numberOrName .. => true
  | _ => false

namespace View

variable {v : View} {kind : TokenKind}

theorem numberAt_isAlike {start : Nat} {t : Text} (h : v.numberAt start t = .error e) :
    e.isAlike = false := by
  obtain ⟨base, -, rfl⟩ := exists_of_numberAt_error h
  rfl

theorem heredoc_isAlike {sigil : Text} (h : v.heredoc sigil = .error e) : e.isAlike = false := by
  unfold heredoc at h
  split at h
  · cases h
  · split at h
    · cases h
    · dsimp only at h
      split_ifs at h <;> cases h <;> rfl

/-- No matcher is refused for a number that is a name. -/
theorem matchKind_isAlike (h : v.matchKind kind = .error e) : e.isAlike = false := by
  cases kind with
  | blockComment =>
    have h : v.blockComment = .error e := h
    unfold blockComment at h
    split at h
    · cases h
    · cases h
    · cases h
      rfl
  | stringEscape =>
    have h : v.escape = .error e := h
    unfold escape at h
    split at h
    · cases h
      rfl
    · dsimp only at h
      split_ifs at h
      cases h
      rfl
    · cases h
  | heredocOpener | rawHeredocOpener => exact heredoc_isAlike h
  | number => exact numberAt_isAlike h
  | exponent =>
    obtain ⟨c, t, -, -, hnumber⟩ := exists_of_exponent_error h
    exact numberAt_isAlike hnumber
  | _ => cases h

theorem matchesOf_isAlike {kinds : List TokenKind} (h : v.matchesOf kinds = .error e) :
    e.isAlike = false := by
  induction kinds with
  | nil => cases h
  | cons kind kinds ih =>
    unfold matchesOf at h
    cases hfound : v.matchKind kind with
    | error e' =>
      rw [hfound] at h
      cases h
      exact matchKind_isAlike hfound
    | ok found =>
      rw [hfound] at h
      cases hmore : v.matchesOf kinds with
      | error e' =>
        rw [hmore] at h
        cases h
        exact ih hmore
      | ok more =>
        rw [hmore] at h
        cases h

end View

/-- Tokens are refused for closing what they do not close. -/
theorem Scan.take_isAlike {s : Scan} {kind : TokenKind} {lexeme : Text}
    (h : s.take kind lexeme = refuse e) : e.isAlike = false := by
  have hblock : ∀ {s : Scan} {place : Nat}, s.closeBlock kind place lexeme = refuse e →
      e.isAlike = false := by
    intro s place h
    unfold closeBlock at h
    split at h
    · dsimp only at h
      split at h
      · cases h
      · cases h
        rfl
    · cases h
  cases kind with
  | rightBracket | rightParen | rightBrace => exact hblock h
  | _ => cases h

/-! ## §3 Numbers that are names -/

/-- **`Radix.Alike`** — a letter and more, which are digits of a base and a name alike, up to what neither
goes on with. -/
structure Radix.Alike (b : Radix) (s post : Text) : Prop where
  head : ∃ c more, s = c :: more ∧ c ∈ letters ∧ b.isDigit c = true
  digits : View.digitRun b (s ++ post) = s.length
  name : Lexicon.nameLength (s ++ post) = s.length

/-- **`Scan.Doubts`** — a state in a block of a base, with a number in front that is a name as well. -/
structure Scan.Doubts (s : Scan) (b : Radix) (lexeme post : Text) : Prop where
  block : ∃ opener, s.top = .blockBody opener b
  letters : 10 < b.value
  alike : b.Alike lexeme post

namespace View

variable {v : View} {n : Nat}

/-- **A number that is a name as well** begins with a letter, and has no lead. -/
theorem alike_of_matches (hnumber : v.matchKind .number = .ok (some n))
    (hname : v.matchKind .name = .ok (some n)) :
    v.context.digitBase.Alike (v.rest.take n) (v.rest.drop n) := by
  have hlength : Lexicon.nameLength v.rest = n := by
    have hpos : positive (Lexicon.nameLength v.rest) = some n := Except.ok.inj hname
    unfold positive at hpos
    split at hpos
    · cases hpos
    · exact Option.some.inj hpos
  obtain ⟨hpos, hle⟩ : 0 < n ∧ n ≤ v.rest.length := within_numberAt hnumber n rfl
  have htake : (v.rest.take n).length = n := by rw [List.length_take, Nat.min_eq_left hle]
  have hnumber : v.numberAt v.start v.rest = .ok (some n) := hnumber
  generalize v.rest = t at hnumber hlength hle htake
  have hstart : ∀ c u, t = c :: u → Lexicon.isDecoration c = false → Lexicon.isNameStart c = true := by
    rintro c u rfl hplain
    by_contra hstart
    have hname := Lexicon.nameLength_append (s := []) (List.forall_mem_nil _) hplain u
    rw [if_neg hstart] at hname
    exact absurd (hlength.symm.trans hname) (Nat.ne_of_gt hpos)
  obtain ⟨base, hlead, -⟩ | ⟨-, hdigit, hrun⟩ := cases_of_numberAt hnumber
  · -- No name begins with the zero of a lead.
    obtain ⟨l, u, hzero, -⟩ := Radix.ofLead?_eq_some hlead
    exact absurd (hstart '0' _ hzero rfl) (by decide)
  · cases t with
    | nil => cases hdigit
    | cons c u =>
      have hdigit : v.context.digitBase.isDigit c = true := hdigit
      have hletter := Radix.mem_letters_of_isDigit hdigit
        (hstart c u rfl (Lexicon.isDecoration_of_toNat_lt (Radix.toNat_lt_of_isDigit hdigit)))
      obtain ⟨k, rfl⟩ : ∃ k, n = k + 1 := ⟨n - 1, by omega⟩
      refine ⟨⟨c, u.take k, rfl, hletter, hdigit⟩, ?_, ?_⟩
      · rw [List.take_append_drop, htake]
        exact hrun.symm
      · rw [List.take_append_drop, htake]
        exact hlength

variable {ms : List Match} {m : Match}

theorem length_of_mem_winners (h : m ∈ winners ms) : m ∈ ms ∧ m.length = greatestLength ms :=
  mem_longest.mp (mem_winners.mp h).1

/-- What is left of some matches is as long as the longest. -/
theorem greatestLength_winners (h : m ∈ winners ms) : greatestLength (winners ms) = m.length := by
  refine Nat.le_antisymm (greatestLength_le fun m' hm' => ?_) (length_le_greatestLength h)
  rw [(length_of_mem_winners hm').2, (length_of_mem_winners h).2]

end View

/-- **A step that is refused for a number and a name stands in front of both.** -/
theorem Scan.doubts_of_step {s : Scan} {start : Nat} {lexeme : Text} {b : Radix}
    (h : s.step config rest = refuse (.numberOrName start lexeme b)) :
    start = s.offset ∧ ∃ post, rest = lexeme ++ post ∧ s.Doubts b lexeme post := by
  unfold step at h
  rcases bind_refuse_iff.mp h with hrefused | ⟨ms, hms, h⟩
  · cases hfound : (s.view config rest).allMatches with
    | ok ms =>
      rw [hfound] at hrefused
      cases hrefused
    | error e =>
      rw [hfound] at hrefused
      cases hrefused
      cases View.matchesOf_isAlike hfound
  · obtain ⟨-, hmem⟩ := View.mem_of_matchesOf (mapError_ok_iff.mp hms)
    -- One winner is taken, none is an error of its own, and several are ambiguous.
    split at h
    · rcases bind_refuse_iff.mp h with htake | ⟨taken, -, h⟩
      · cases take_isAlike htake
      · cases h
    · split at h
      · cases h
      · dsimp only at h
        split at h <;> cases h
    · generalize hws : View.winners ms = ws at h
      have h : s.ambiguity rest ws = .numberOrName start lexeme b := by
        injection h with h
        injection h
      unfold ambiguity at h
      dsimp only at h
      split at h
      · next hcond =>
        obtain ⟨hblock, hletters, -, hnumber, hname⟩ := hcond
        have hmatches : ∀ kind, (ws.map (·.kind)).contains kind = true →
            (s.view config rest).matchKind kind = .ok (some (View.greatestLength ws)) := by
          intro kind hkind
          obtain ⟨m, hm, rfl⟩ := List.mem_map.mp (List.contains_iff_mem.mp hkind)
          rw [← hws] at hm ⊢
          rw [View.greatestLength_winners hm]
          exact ((hmem m).mp (View.length_of_mem_winners hm).1).2
        have halike := View.alike_of_matches (hmatches _ hnumber) (hmatches _ hname)
        injection h with hstart hlexeme hbase
        subst hstart hlexeme hbase
        refine ⟨rfl, _, (List.take_append_drop _ rest).symm, ?_, hletters, halike⟩
        generalize s.top = context at hblock
        cases context with
        | blockBody opener base => exact ⟨opener, rfl⟩
        | _ => cases hblock
      · cases h

namespace Scan

/-- Only control characters are met before a scan is refused, and what is open at its end is about no
number. -/
theorem Reaches.errors_isAlike {s : Scan} (h : Reaches config source s rest) :
    ∀ e ∈ s.errors, e.isAlike = false := by
  induction h with
  | start => exact List.forall_mem_nil _
  | step h _ hstep ih =>
    cases steps_of_step hstep with
    | take _ htakes =>
      rw [htakes.errors_eq]
      exact ih
    | skip => exact List.forall_mem_append.mpr ⟨ih, List.forall_mem_singleton.mpr rfl⟩

theorem finish_isAlike {s : Scan} (hs : ∀ e ∈ s.errors, e.isAlike = false)
    (h : s.finish = refuse errors) : ∀ e ∈ errors, e.isAlike = false := by
  have hopen : ∀ e ∈ s.openContexts.filterMap s.openError, e.isAlike = false := by
    intro e he
    obtain ⟨context, -, hopen⟩ := List.mem_filterMap.mp he
    obtain ⟨opener, -, rfl⟩ := Option.map_eq_some_iff.mp hopen
    rfl
  unfold finish at h
  split at h
  · cases h
  · cases h
    exact List.forall_mem_append.mpr ⟨hs, hopen⟩

/-- **A scan that is refused for a number and a name comes to a state that has both in front.** -/
theorem exists_doubts {start : Nat} {lexeme : Text} {b : Radix}
    (h : tokenize config source = refuse (errors ++ [.numberOrName start lexeme b])) :
    ∃ pre post s, source = pre ++ (lexeme ++ post) ∧ width pre = start ∧
      Reaches config source s (lexeme ++ post) ∧ s.offset = start ∧ s.errors = errors ∧
      s.Doubts b lexeme post := by
  have hmem : LexError.numberOrName start lexeme b ∈ errors ++ [.numberOrName start lexeme b] :=
    List.mem_append_right _ (List.mem_singleton_self _)
  rcases Reaches.start.exists_refused h with ⟨last, hlast, hfinish⟩ | ⟨s, rest, e, hs, -, hstep, herrors⟩
  · cases finish_isAlike hlast.errors_isAlike hfinish _ hmem
  · obtain ⟨hearlier, hcause⟩ := List.append_inj' herrors rfl
    cases hcause
    obtain ⟨hstart, post, rfl, hdoubts⟩ := doubts_of_step hstep
    obtain ⟨pre, hpre, hoffset⟩ := hs.grounded.read
    exact ⟨pre, post, s, hpre, hoffset.symm.trans hstart.symm, hs, hstart.symm, hearlier.symm,
      hdoubts⟩

end Scan

end DewyFront
