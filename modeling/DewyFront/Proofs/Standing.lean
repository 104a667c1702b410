/-
# DewyFront.Proofs.Standing — the contexts that lexemes stand in

Going over lexemes one by one, openers begin a context and closers end one. Between an opener and its
closer the contexts come back to what they were. Each lexeme of a scan stands in the context that was on
top of the stack of the scan when it was taken.

* §1 going over lexemes;
* §2 lexemes as a scan takes them;
* §3 lexemes that are all taken where they stand.
-/
import DewyFront.Proofs.Rows
import Mathlib.Data.List.Induction

namespace DewyFront

/-! ## §1 Contexts -/

/-- The contexts behind a lexeme. -/
def Lexeme.behind (stack : List Context) (l : Lexeme) : List Context :=
  if l.kind.isCloser then stack.tail
  else (Scan.context? l.kind l.place l.text).elim stack (· :: stack)

/-- **`standing`** — lexemes with the contexts that they stand in. -/
def standing : List Context → List Lexeme → List (Lexeme × Context)
  | _, [] => []
  | stack, l :: ls => (l, stack.headD .root) :: standing (l.behind stack) ls

theorem standing_append (stack : List Context) (xs ys : List Lexeme) :
    standing stack (xs ++ ys) = standing stack xs ++ standing (xs.foldl Lexeme.behind stack) ys := by
  induction xs generalizing stack with
  | nil => rfl
  | cons x xs ih => rw [List.cons_append, standing, ih, standing, List.foldl_cons, List.cons_append]

section

variable {source : Text} {ended : Bool} {kind : ContextKind} {stack : List Context} {c : Context}
  {l opener closer : Lexeme} {ls inner rest : List Lexeme}

theorem Lexeme.behind_plain (stack : List Context) (hopener : l.kind.isOpener = false)
    (hcloser : l.kind.isCloser = false) : l.behind stack = stack := by
  have hnone : Scan.context? l.kind l.place l.text = none := by
    rw [← Option.not_isSome_iff_eq_none, Scan.isSome_context?, hopener]
    exact Bool.false_ne_true
  rw [Lexeme.behind, hcloser, hnone]
  rfl

theorem Lexeme.behind_opener (stack : List Context)
    (hc : Scan.context? l.kind l.place l.text = some c) : l.behind stack = c :: stack := by
  rw [Lexeme.behind, TokenKind.isCloser_eq_false_of_isOpener (Scan.isOpener_of_context? hc), hc]
  rfl

theorem Lexeme.behind_closer (stack : List Context) (hcloser : l.kind.isCloser = true) :
    l.behind stack = stack.tail := by
  rw [Lexeme.behind, hcloser]
  rfl

/-- **A body leaves the contexts as they were.** -/
theorem Body.foldl_behind (h : Body source true kind ls) (stack : List Context) :
    ls.foldl Lexeme.behind stack = stack := by
  generalize hended : true = ended at h
  induction h generalizing stack with
  | nil => rfl
  | plain _ hopener hcloser _ ih =>
    rw [List.foldl_cons, Lexeme.behind_plain stack hopener hcloser, ih stack hended]
  | pair _ hc hencloses _ _ _ _ ihinner ihrest =>
    rw [List.foldl_cons, List.foldl_append, List.foldl_cons, Lexeme.behind_opener stack hc,
      ihinner _ rfl, Lexeme.behind_closer _ hencloses.isCloser, List.tail_cons, ihrest stack hended]
  | unended => cases hended

/-- **What a pair encloses stands in the context that the opener begins**, and what is behind the pair
in the one that the opener stands in. -/
theorem standing_pair (stack : List Context)
    (hc : Scan.context? opener.kind opener.place opener.text = some c)
    (hencloses : opener.token.Encloses source closer.token) (hinner : Body source true c.kind inner) :
    standing stack (opener :: (inner ++ closer :: rest)) =
      (opener, stack.headD .root) :: (standing (c :: stack) inner ++
        (closer, c) :: standing stack rest) := by
  rw [standing, Lexeme.behind_opener stack hc, standing_append, hinner.foldl_behind, standing,
    Lexeme.behind_closer _ hencloses.isCloser]
  rfl

end

/-! ## §2 Scans -/

/-- **`Scan.TakesIn`** — a scan comes to a state in which a context is innermost, and takes a lexeme
there, with more text behind it. -/
def Scan.TakesIn (config : LexerConfig) (source : Text) (x : Lexeme) (context : Context) (more : Text) :
    Prop :=
  ∃ s next : Scan, Reaches config source s (x.text ++ more) ∧ s.top = context ∧
    s.step config (x.text ++ more) = .ok (next, x.text.length) ∧ s.tokens.size = x.place ∧
    next.tokens.pieces = s.tokens.pieces ++ [(x.kind, x.span)]

namespace Scan

variable {config : LexerConfig} {source rest more : Text} {s : Scan} {x : Lexeme} {context : Context}

/-- **Every token of a state has been taken from an earlier one.** -/
theorem Reaches.exists_earlier (h : Reaches config source s rest)
    {earlier later : List (TokenKind × Span)} {piece : TokenKind × Span}
    (hpieces : s.tokens.pieces = earlier ++ piece :: later) :
    ∃ before next : Scan, ∃ n, ∃ left, Reaches config source before left ∧
      before.tokens.pieces = earlier ∧ before.step config left = .ok (next, n) ∧
      next.tokens.pieces = earlier ++ [piece] ∧
      piece.2 = ⟨before.offset, before.offset + width (left.take n)⟩ := by
  induction h generalizing later with
  | start => cases earlier <;> cases hpieces
  | @step s next rest n h hrest hstep ih =>
    cases steps_of_step hstep with
    | skip => exact ih hpieces
    | @take m _ hstands htakes =>
      rcases List.eq_nil_or_concat later with rfl | ⟨inner, last, rfl⟩
      · rw [htakes.pieces_eq] at hpieces
        obtain ⟨hfront, hlast⟩ := List.append_inj' hpieces rfl
        cases hlast
        exact ⟨s, next, m.length, rest, h, hfront, hstep, by rw [htakes.pieces_eq, hfront], rfl⟩
      · rw [htakes.pieces_eq, List.concat_eq_append, ← List.cons_append, ← List.append_assoc] at hpieces
        exact ih (List.append_inj' hpieces rfl).1

/-- **What a scan takes is a match that stands.** -/
theorem TakesIn.exists_stands (h : TakesIn config source x context more) : ∃ s : Scan,
    s.top = context ∧ Stands (s.view config (x.text ++ more)) ⟨x.kind, x.text.length⟩ := by
  obtain ⟨s, next, -, htop, hstep, -, hpieces⟩ := h
  refine ⟨s, htop, ?_⟩
  generalize hn : x.text.length = n at hstep ⊢
  cases steps_of_step hstep with
  | skip => exact absurd (congrArg List.length hpieces) (by simp [Scan.skip])
  | @take m _ hstands htakes =>
    rw [htakes.pieces_eq] at hpieces
    obtain ⟨-, hlast⟩ := List.append_inj' hpieces rfl
    injection hlast with hpiece
    injection hpiece with hkind
    rw [← hkind]
    exact hstands

end Scan

theorem mem_standing {stack : List Context} {ls : List Lexeme} {y : Lexeme × Context}
    (h : y ∈ standing stack ls) : ∃ xs ys, ls = xs ++ y.1 :: ys ∧
      y.2 = (xs.foldl Lexeme.behind stack).headD .root := by
  induction ls generalizing stack with
  | nil => cases h
  | cons l ls ih =>
    rcases List.mem_cons.mp h with rfl | h
    · exact ⟨[], ls, rfl, rfl⟩
    · obtain ⟨xs, ys, rfl, hy⟩ := ih h
      exact ⟨l :: xs, ys, rfl, hy⟩

namespace TokenList

variable {l : TokenList} {source : Text} {xs ys : List Lexeme} {x : Lexeme}

theorem place_of_lexemes (h : l.lexemes source = xs ++ x :: ys) : x.place = xs.length := by
  have hget := congrArg (·[xs.length]?) h
  simp only [getElem?_lexemes, List.getElem?_append_right (Nat.le_refl _), Nat.sub_self,
    List.getElem?_cons_zero] at hget
  obtain ⟨t, -, rfl⟩ := Option.map_eq_some_iff.mp hget
  rfl

theorem text_of_lexemes (h : l.lexemes source = xs ++ x :: ys) : x.text = x.span.slice source := by
  have hmem : x ∈ l.lexemes source := h ▸ List.mem_append_right _ List.mem_cons_self
  exact text_of_mem_lexemes hmem

theorem pieces_of_lexemes (h : l.lexemes source = xs) : l.pieces = xs.map (·.token.piece) := by
  rw [pieces, ← map_token_lexemes l source, h, List.map_map]
  rfl

/-- The contexts behind lexemes are those behind their tokens. -/
theorem foldl_behind (h : l.lexemes source = xs ++ ys) :
    xs.foldl Lexeme.behind [.root] = contextsBehind source (xs.map (·.token.piece)) := by
  induction xs using List.reverseRecOn generalizing ys with
  | nil => rfl
  | append_singleton xs x ih =>
    rw [List.append_assoc] at h
    have hplace := place_of_lexemes h
    have htext := text_of_lexemes h
    rw [List.foldl_append, ih h, List.map_append, List.map_singleton, contextsBehind_concat,
      List.length_map, ← hplace]
    show Lexeme.behind _ x = Context.behind source _ (x.kind, x.span) _
    rw [Lexeme.behind, Context.behind, htext]

end TokenList

/-! ## §3 Lexemes that are taken -/

/-- **`TakesEach`** — every lexeme is taken in the context that it stands in. -/
def TakesEach (config : LexerConfig) (source : Text) (stack : List Context) (ls : List Lexeme) : Prop :=
  ∀ y ∈ standing stack ls, ∃ more, Scan.TakesIn config source y.1 y.2 more

section

variable {config : LexerConfig} {source : Text} {stack : List Context} {c : Context}
  {l opener closer : Lexeme} {xs ys inner rest : List Lexeme}

theorem TakesEach.of_cons_plain (h : TakesEach config source stack (l :: rest))
    (hopener : l.kind.isOpener = false) (hcloser : l.kind.isCloser = false) :
    (∃ more, Scan.TakesIn config source l (stack.headD .root) more) ∧
      TakesEach config source stack rest := by
  have h := List.forall_mem_cons.mp h
  rw [Lexeme.behind_plain stack hopener hcloser] at h
  exact h

theorem TakesEach.of_append_plain (h : TakesEach config source stack (xs ++ ys))
    (hplain : ∀ x ∈ xs, x.kind.isOpener = false ∧ x.kind.isCloser = false) :
    (∀ x ∈ xs, ∃ more, Scan.TakesIn config source x (stack.headD .root) more) ∧
      TakesEach config source stack ys := by
  induction xs with
  | nil => exact ⟨fun x hx => absurd hx List.not_mem_nil, h⟩
  | cons x xs ih =>
    obtain ⟨⟨hopener, hcloser⟩, hplain⟩ := List.forall_mem_cons.mp hplain
    obtain ⟨hx, h⟩ := h.of_cons_plain hopener hcloser
    obtain ⟨hxs, hys⟩ := ih h hplain
    exact ⟨List.forall_mem_cons.mpr ⟨hx, hxs⟩, hys⟩

theorem TakesEach.of_pair (h : TakesEach config source stack (opener :: (inner ++ closer :: rest)))
    (hc : Scan.context? opener.kind opener.place opener.text = some c)
    (hencloses : opener.token.Encloses source closer.token) (hinner : Body source true c.kind inner) :
    TakesEach config source (c :: stack) inner ∧ TakesEach config source stack rest := by
  unfold TakesEach at h
  rw [standing_pair stack hc hencloses hinner] at h
  obtain ⟨hfront, hback⟩ := List.forall_mem_append.mp (List.forall_mem_cons.mp h).2
  exact ⟨hfront, (List.forall_mem_cons.mp hback).2⟩

end

/-- **Every lexeme of a scan is taken in the context that it stands in.** -/
theorem Scan.takesEach_of_tokenize {config : LexerConfig} {source : Text} {out : Tokenized}
    (h : tokenize config source = .ok out) :
    TakesEach config source [.root] (out.tokens.lexemes source) := by
  rintro ⟨x, context⟩ hy
  obtain ⟨xs, ys, heq, hcontext⟩ := mem_standing hy
  obtain ⟨last, hlast, hfinish⟩ := exists_reaches_of_tokenize h
  obtain ⟨-, -, htokens⟩ := errors_eq_nil_of_finish hfinish
  have hpieces := TokenList.pieces_of_lexemes heq
  rw [htokens, List.map_append, List.map_cons] at hpieces
  obtain ⟨s, next, n, left, hreaches, hearlier, hstep, hnext, hspan⟩ := hlast.exists_earlier hpieces
  have hgrounded := hreaches.grounded
  obtain ⟨-, hle⟩ := (steps_of_step hstep).bounds hgrounded
  have htext : x.text = left.take n := by
    have hspan : x.span = ⟨s.offset, s.offset + width (left.take n)⟩ := hspan
    rw [TokenList.text_of_lexemes heq, hspan, hgrounded.slice_eq]
  have hlength : x.text.length = n := by rw [htext, List.length_take, Nat.min_eq_left hle]
  have hleft : left = x.text ++ left.drop n := by rw [htext, List.take_append_drop]
  refine ⟨left.drop n, s, next, hleft ▸ hreaches, ?_, ?_, ?_, ?_⟩
  · rw [hcontext, TokenList.foldl_behind heq, Scan.top, hreaches.told.stack, hearlier]
  · rw [← hleft, hlength]
    exact hstep
  · rw [← TokenList.length_pieces, hearlier, List.length_map, ← TokenList.place_of_lexemes heq]
  · rw [hnext, hearlier]
    rfl

end DewyFront
