/-
# DewyFront.Proofs.Spellings — what the texts of tokens look like

A token has a text that a matcher of its kind takes. So a symbol is spelled as in the table of symbols,
an escape begins with two characters of one byte each, and a delimiter is the one of its kind. What is
made of such a token is no fault.

* §1 outcomes of lexing;
* §2 tokens that a matcher takes;
* §3 symbols;
* §4 escapes;
* §5 delimiters.
-/
import DewyFront.Proofs.Outcomes
import DewyFront.Proofs.Bodies

namespace DewyFront

/-! ## §1 Outcomes -/

/-- **`Yields`** — a stage ends with a result of some kind, or refuses an escape that names no
character. -/
def Yields {α : Type} (p : α → Prop) (x : Except (Failure LexError) α) : Prop :=
  (∃ a, x = .ok a ∧ p a) ∨ ∃ span digits, x = refuse (.invalidCodePoint span digits)

section

variable {α β : Type} {p : α → Prop} {q : β → Prop} {x : Except (Failure LexError) α}

theorem yields_ok {a : α} (h : p a) : Yields p (.ok a) := .inl ⟨a, rfl, h⟩

theorem Yields.bind {g : α → Except (Failure LexError) β} (hx : Yields p x)
    (hg : ∀ a, p a → Yields q (g a)) : Yields q (x >>= g) := by
  rcases hx with ⟨a, rfl, ha⟩ | ⟨span, digits, rfl⟩
  · exact hg a ha
  · exact .inr ⟨span, digits, rfl⟩

end

/-! ## §2 Matches -/

/-- **`Lexeme.Matched`** — a matcher of the kind of a lexeme takes its text. -/
def Lexeme.Matched (l : Lexeme) : Prop :=
  ∃ v : View, ∃ n, v.matchKind l.kind = .ok (some n) ∧ l.text = v.rest.take n

namespace View

variable {t : Text} {n : Nat} {c : Char}

theorem eq_of_positive {m : Nat} (h : positive m = some n) : m = n ∧ 0 < n := by
  unfold positive at h
  split at h
  · cases h
  · cases h
    exact ⟨rfl, by omega⟩

theorem take_of_single (h : single c t = some n) : t.take n = [c] := by
  unfold single at h
  split at h
  · next hhead =>
    cases h
    cases t with
    | nil => cases hhead
    | cons d t =>
      cases hhead
      rfl
  · cases h

end View

/-! ## §3 Symbols -/

/-- What the longest spelling of a table takes is in the table. -/
theorem Lexicon.take_longestOf_mem {table : List Text} {t : Text} (h : 0 < longestOf table t) :
    t.take (longestOf table t) ∈ table := by
  -- The search may start from any length: it ends with that one, or with that of a spelling that fits.
  have hfold : ∀ (rest : List Text) (best : Nat),
      rest.foldl (fun best s => if s.isPrefixOf t then max best s.length else best) best = best ∨
      ∃ s ∈ rest, s.isPrefixOf t = true ∧ s.length =
        rest.foldl (fun best s => if s.isPrefixOf t then max best s.length else best) best := by
    intro rest
    induction rest with
    | nil => exact fun _ => .inl rfl
    | cons s rest ih =>
      intro best
      rw [List.foldl_cons]
      rcases ih (if s.isPrefixOf t then max best s.length else best) with heq | ⟨r, hr, hprefix⟩
      · rw [heq]
        by_cases hs : s.isPrefixOf t = true
        · rw [if_pos hs]
          rcases Nat.le_total best s.length with hle | hle
          · exact .inr ⟨s, List.mem_cons_self, hs, (Nat.max_eq_right hle).symm⟩
          · exact .inl (Nat.max_eq_left hle)
        · rw [if_neg hs]
          exact .inl rfl
      · exact .inr ⟨r, List.mem_cons_of_mem _ hr, hprefix⟩
  rcases hfold table 0 with heq | ⟨s, hs, hprefix, hlength⟩
  · have hzero : longestOf table t = 0 := heq
    omega
  · have hlength : s.length = longestOf table t := hlength
    rw [← hlength, ← List.prefix_iff_eq_take.mp (List.isPrefixOf_iff_prefix.mp hprefix)]
    exact hs

namespace Tree

/-- Every spelling of a symbol or a shift is the mark of an item. -/
theorem isSome_markLeaf? {t : Text} (h : t ∈ Lexicon.symbols ++ Lexicon.shifts) :
    (markLeaf? t).isSome = true := by
  have hall : ∀ s ∈ Lexicon.symbols ++ Lexicon.shifts, (markLeaf? s).isSome = true := by
    decide +kernel
  exact hall t h

variable {l opener closer : Lexeme} {source : Text}

/-- **A symbol is an item.** -/
theorem exists_ofMarks (h : l.Matched) (hkind : l.kind = .symbol ∨ l.kind = .shift) :
    ∃ leaf, ofMarks l = .ok (.leaf leaf l.span) := by
  obtain ⟨v, n, hmatch, htext⟩ := h
  have hmem : l.text ∈ Lexicon.symbols ++ Lexicon.shifts := by
    rw [htext]
    rcases hkind with hkind | hkind <;> rw [hkind] at hmatch
    · obtain ⟨rfl, hpos⟩ := View.eq_of_positive (Except.ok.inj hmatch)
      exact List.mem_append_left _ (Lexicon.take_longestOf_mem hpos)
    · obtain ⟨rfl, hpos⟩ := View.eq_of_positive (Except.ok.inj hmatch)
      exact List.mem_append_right _ (Lexicon.take_longestOf_mem hpos)
  obtain ⟨leaf, hleaf⟩ := Option.isSome_iff_exists.mp (isSome_markLeaf? hmem)
  refine ⟨leaf, ?_⟩
  rw [ofMarks, hleaf]

/-! ## §4 Escapes -/

/-- **An escape has a text**, or names no character. -/
theorem escapeText_yields (h : l.Matched) (hkind : l.kind = .stringEscape) :
    Yields (fun _ => True) (escapeText l) := by
  obtain ⟨v, n, hmatch, htext⟩ := h
  rw [hkind] at hmatch
  have hmatch : v.escape = .ok (some n) := hmatch
  -- Both characters in front of the digits take one byte.
  have hfront : ∃ c t, l.text = '\\' :: c :: t := by
    unfold View.escape at hmatch
    split at hmatch
    · cases hmatch
    · next c t heq =>
      have hn : 2 ≤ n := by
        split at hmatch
        · split at hmatch
          · cases hmatch
          · dsimp only at hmatch
            split at hmatch
            · cases hmatch
            · cases hmatch
              omega
        · cases hmatch
          omega
      obtain ⟨k, rfl⟩ : ∃ k, n = k + 2 := ⟨n - 2, by omega⟩
      exact ⟨c, t.take k, by rw [htext, heq]; rfl⟩
    · cases hmatch
  obtain ⟨c, t, hfront⟩ := hfront
  unfold escapeText
  rw [hfront, List.drop_succ_cons, List.drop_zero]
  split
  · exact yields_ok trivial
  · exact yields_ok trivial
  · next d _ _ heq =>
    cases heq
    split
    · next hunicode =>
      refine Yields.bind (p := fun _ => True) ?_ fun _ _ => yields_ok trivial
      have hdrop : dropBytes 2 l.text = some t := by
        rw [hfront]
        rcases hunicode with rfl | rfl
        · exact dropBytes_width ['\\', 'u'] t
        · exact dropBytes_width ['\\', 'U'] t
      unfold codePoint
      rw [hdrop]
      dsimp only
      split
      · exact yields_ok trivial
      · exact .inr ⟨_, _, rfl⟩
    · exact yields_ok trivial

end Tree

/-! ## §5 Delimiters -/

namespace TokenKind

/-- Kinds that begin a block: what they enclose is an expression. -/
def opensBlock : TokenKind → Bool
  | leftBracket | leftParen | leftBrace | leftAngle | basedBlockOpener | holeEscape => true
  | _ => false

/-- The character of a delimiter; behind the lead of a base or the backslash of an escape it is the
last one. -/
def delimiter? : TokenKind → Option Char
  | leftBracket | basedBlockOpener => some '['
  | leftParen => some '('
  | leftBrace | holeEscape => some '\x7b'
  | leftAngle => some '<'
  | rightBracket => some ']'
  | rightParen => some ')'
  | rightBrace => some '\x7d'
  | rightAngle => some '>'
  | _ => none

end TokenKind

namespace Lexeme

variable {l opener closer : Lexeme} {source : Text} {c : Char}

/-- **A delimiter ends with its character.** -/
theorem Matched.getLast?_text (h : l.Matched) (hc : l.kind.delimiter? = some c) :
    l.text.getLast? = some c := by
  obtain ⟨v, n, hmatch, htext⟩ := h
  rw [htext]
  cases hkind : l.kind <;> rw [hkind] at hmatch hc <;> cases hc
  case basedBlockOpener =>
    have hmatch : View.basedBlock v.rest = some n := Except.ok.inj hmatch
    unfold View.basedBlock at hmatch
    split at hmatch
    · next hblock =>
      cases hmatch
      obtain ⟨-, hhead⟩ := hblock
      rw [List.head?_drop] at hhead
      rw [List.take_add_one, hhead]
      simp
    · cases hmatch
  case holeEscape =>
    have hmatch : View.holeEscape v.rest = some n := Except.ok.inj hmatch
    unfold View.holeEscape at hmatch
    split at hmatch
    · next d t heq =>
      split at hmatch
      · cases hmatch
        rw [heq]
        rfl
      · cases hmatch
    · cases hmatch
  all_goals
    rw [View.take_of_single (Except.ok.inj hmatch)]
    rfl

/-- A closer is its character. -/
theorem Matched.head?_text (h : l.Matched) (hcloser : l.kind.isCloser = true)
    (hc : l.kind.delimiter? = some c) : l.text.head? = some c := by
  obtain ⟨v, n, hmatch, htext⟩ := h
  rw [htext]
  cases hkind : l.kind <;> rw [hkind] at hmatch hc hcloser <;> cases hc
  case rightBracket | rightParen | rightBrace | rightAngle =>
    rw [View.take_of_single (Except.ok.inj hmatch)]
    rfl
  all_goals cases hcloser

/-- **The delimiters of a block form a pair.** -/
theorem exists_blockKind (hopener : opener.Matched) (hcloser : closer.Matched)
    (hblock : opener.kind.opensBlock = true)
    (h : opener.token.Encloses source closer.token) :
    ∃ kind, Tree.blockKind opener closer = .ok kind := by
  have hpair : ∀ {o c : Char}, opener.kind.delimiter? = some o → closer.kind.delimiter? = some c →
      closer.kind.isCloser = true → (Delimiters.ofPair? o c).isSome = true →
        ∃ kind, Tree.blockKind opener closer = .ok kind := by
    intro o c ho hc hisCloser hsome
    obtain ⟨kind, hkind⟩ := Option.isSome_iff_exists.mp hsome
    refine ⟨kind, ?_⟩
    have hlast : opener.text.getLastD '[' = o := by
      rw [List.getLastD_eq_getLast?, hopener.getLast?_text ho, Option.getD_some]
    have hhead : closer.text.headD ']' = c := by
      rw [List.headD_eq_head?_getD, hcloser.head?_text hisCloser hc, Option.getD_some]
    rw [Tree.blockKind, hlast, hhead, hkind]
  unfold Token.Encloses at h
  cases hkind : opener.kind <;> rw [hkind] at hblock <;> try cases hblock
  all_goals
    have htoken : opener.token.kind = _ := hkind
    rw [htoken] at h
  case leftBracket | leftParen =>
    rcases h with h | h
    all_goals
      have h : closer.kind = _ := h
      refine hpair (by rw [hkind]; rfl) (by rw [h]; rfl) (by rw [h]; rfl) (by decide)
  all_goals
    have h : closer.kind = _ := h
    refine hpair (by rw [hkind]; rfl) (by rw [h]; rfl) (by rw [h]; rfl) (by decide)

end Lexeme

end DewyFront
