/-
# DewyFront.Proofs.Pairing — openers and closers are paired, and pairs are nested

In every state of a scan the openers without a partner are those of the open contexts, from the
outermost to the innermost. A closer is paired with the innermost of them, and it is what closes that
opener. So pairs never cross, and no open context lies inside a pair. At the end of the source only a
string that nothing ends may be left open, and only outside of everything else; any other open context
is an error.

* §1 what closes an opener;
* §2 tokens and their partners;
* §3 pairs and open contexts;
* §4 taking a token;
* §5 the end of the source;
* §6 whole scans.
-/
import DewyFront.Proofs.Scanning

namespace DewyFront

/-! ## §1 Delimiters -/

/-- **`Encloses`** — an opener and what closes it: a bracket for a bracket, a brace for a brace, and for
a string the quotes or the delimiter that its opener holds. -/
def Token.Encloses (source : Text) (t u : Token) : Prop :=
  match t.kind with
  | .leftBracket | .leftParen => u.kind = .rightBracket ∨ u.kind = .rightParen
  | .leftBrace | .holeEscape => u.kind = .rightBrace
  | .basedBlockOpener => u.kind = .rightBracket
  | .leftAngle => u.kind = .rightAngle
  | .stringOpener => u.kind = .stringCloser ∧ u.text source = t.text source
  | .rawStringOpener => u.kind = .stringCloser ∧ u.text source = (t.text source).drop 1
  | .basedStringOpener => u.kind = .stringCloser ∧ u.text source = (t.text source).drop 2
  | .heredocOpener => u.kind = .heredocCloser ∧ u.text source = ((t.text source).drop 2).dropLast
  | .rawHeredocOpener =>
    u.kind = .heredocCloser ∧ u.text source = ((t.text source).drop 3).dropLast
  | _ => False

theorem Token.Encloses.isOpener {source : Text} {t u : Token} (h : t.Encloses source u) :
    t.kind.isOpener = true := by
  unfold Token.Encloses at h
  split at h <;> first | (next heq => rw [heq]; rfl) | exact h.elim

theorem Token.Encloses.isCloser {source : Text} {t u : Token} (h : t.Encloses source u) :
    u.kind.isCloser = true := by
  unfold Token.Encloses at h
  split at h
  case h_1 | h_2 => rcases h with h | h <;> rw [h] <;> rfl
  case h_3 | h_4 | h_5 | h_6 => rw [h]; rfl
  case h_7 | h_8 | h_9 | h_10 | h_11 => rw [h.1]; rfl
  case h_12 => exact h.elim

/-- **What a closer of a string takes is what ends the string.** -/
theorem View.closing?_of_matchKind {v : View} {kind : TokenKind} {n : Nat}
    (hkind : kind = .stringCloser ∨ kind = .heredocCloser) (h : v.matchKind kind = .ok (some n)) :
    v.context.closing? kind = some (v.rest.take n) := by
  rw [matchKind_eq_closed hkind] at h
  obtain ⟨s, hs, hprefix, rfl⟩ := closed_eq_some_iff.mp (Except.ok.inj h)
  rw [hs, ← List.prefix_iff_eq_take.mp (List.isPrefixOf_iff_prefix.mp hprefix)]

namespace Scan

variable {s next : Scan} {kind : TokenKind} {lexeme rest source : Text} {config : LexerConfig}
  {place n : Nat} {c : Context} {t u : Token}

/-- **What ends a context closes its opener.** -/
theorem encloses_of_closes {v : View} {place : Nat}
    (hc : context? t.kind place (t.text source) = some v.context)
    (hcloses : Closes (some t.kind) u.kind v.context)
    (hmatch : v.matchKind u.kind = .ok (some n)) (hu : u.text source = v.rest.take n) :
    t.Encloses source u := by
  have hclosing : u.kind = .stringCloser ∨ u.kind = .heredocCloser →
      v.context.closing? u.kind = some (u.text source) := fun hkind => by
    rw [View.closing?_of_matchKind hkind hmatch, hu]
  -- The context tells what ends it, and the opener tells the context.
  generalize v.context = context at hc hcloses hclosing
  unfold Token.Encloses
  generalize u.text source = taken at hclosing ⊢
  cases hkind : t.kind <;> rw [hkind] at hc hcloses <;> cases hc
  case leftBracket | leftParen | leftBrace | holeEscape | basedBlockOpener =>
    cases hcloses with
    | block h => simpa [expectedCloser, closes] using h
    | string hending => cases hending
  case leftAngle =>
    cases hcloses with
    | angle h => exact h
    | string hending => cases hending
  case restOfFileOpener | rawRestOfFileOpener =>
    cases hcloses with
    | string hending h =>
      rcases Context.cases_of_closing? (hclosing h) with ⟨-, he⟩ | ⟨-, he⟩ <;> cases he
  case stringOpener | rawStringOpener | basedStringOpener | heredocOpener | rawHeredocOpener =>
    cases hcloses with
    | string hending h =>
      rcases Context.cases_of_closing? (hclosing h) with ⟨hcloser, he⟩ | ⟨hcloser, he⟩ <;> cases he
      exact ⟨hcloser, rfl⟩

end Scan

/-! ## §2 Partners -/

namespace TokenList

variable {l : TokenList} {i j opener closer : Nat} {t : Token}

theorem partner?_eq_some_iff : l.partner? i = some j ↔ ∃ t, l.get? i = some t ∧ t.partner = some j :=
  Option.bind_eq_some_iff

/-- Pairing two tokens changes nothing but their partners. -/
theorem get?_pair (h : opener ≠ closer) (i : Nat) : (l.pair opener closer).get? i =
    if i = opener then (l.get? i).map ({ · with partner := some closer })
    else if i = closer then (l.get? i).map ({ · with partner := some opener })
    else l.get? i := by
  rw [pair, get?_setPartner, get?_setPartner]
  by_cases ho : opener = i
  · subst ho
    rw [if_neg h.symm, if_pos rfl, if_pos rfl]
  · rw [if_neg ho, if_neg (Ne.symm ho)]
    by_cases hc : closer = i
    · rw [if_pos hc, if_pos hc.symm]
    · rw [if_neg hc, if_neg (Ne.symm hc)]

/-- The token that is added has no partner, and the others keep theirs. -/
theorem partner?_push (l : TokenList) (kind : TokenKind) (span : Span) (i : Nat) :
    (l.push kind span).partner? i = l.partner? i := by
  rw [partner?, partner?, get?_push]
  split
  · next h =>
    have hnone : l.get? i = none := by
      rw [h]
      exact Array.getElem?_eq_none (Nat.le_refl _)
    rw [hnone]
    rfl
  · rfl

end TokenList

namespace Scan

variable {s next : Scan} {kind : TokenKind} {lexeme rest source : Text} {config : LexerConfig}
  {n opener : Nat} {c : Context}

/-! ## §3 Pairs and open contexts -/

/-- The places of the openers of the open contexts, innermost first. -/
def openers (s : Scan) : List Nat := s.stack.filterMap Context.opener?

/-- **`Paired`** — the tokens and the open contexts of a state agree: the openers of the open contexts
are the ones without a partner, any others are paired with what closes them, and pairs are nested in
each other and in the open contexts. -/
structure Paired (source : Text) (s : Scan) : Prop where
  /-- The root is at the bottom of the stack, and nowhere else. -/
  rooted : ∃ inner, s.stack = inner ++ [.root] ∧ ∀ c ∈ inner, c.kind ≠ .root
  /-- An open context stands before those that it encloses. -/
  sorted : s.openers.Pairwise (· > ·)
  /-- The opener of an open context begins that context, and has no partner. -/
  begun : ∀ c ∈ s.stack, ∀ i, c.opener? = some i → ∃ t, s.tokens.get? i = some t ∧
    t.partner = none ∧ context? t.kind i (t.text source) = some c
  /-- An opener without a partner is that of an open context. -/
  unpaired : ∀ i t, s.tokens.get? i = some t → t.kind.isOpener = true → t.partner = none →
    i ∈ s.openers
  /-- Partners are an opener and, behind it, what closes it. -/
  linked : ∀ i j t, s.tokens.get? i = some t → t.partner = some j → ∃ u, s.tokens.get? j = some u ∧
    u.partner = some i ∧ ((i < j ∧ t.Encloses source u) ∨ (j < i ∧ u.Encloses source t))
  /-- A pair that begins inside another ends inside it. -/
  nested : ∀ i j k l, s.tokens.partner? i = some j → s.tokens.partner? k = some l → i < j → k < l →
    i < k → k < j → l < j
  /-- No open context begins inside a pair. -/
  outside : ∀ o ∈ s.openers, ∀ i j, s.tokens.partner? i = some j → ¬ (i < o ∧ o < j)

theorem mem_openers : n ∈ s.openers ↔ ∃ c ∈ s.stack, c.opener? = some n := List.mem_filterMap

theorem paired_start (source : Text) : Paired source .start where
  rooted := ⟨[], rfl, fun c hc => by cases hc⟩
  sorted := .nil
  begun c hc i hi := by
    rw [List.mem_singleton.mp hc] at hi
    cases hi
  unpaired i t ht := by cases ht
  linked i j t ht := by cases ht
  nested i j k l hi := by cases hi
  outside o ho := by cases ho

namespace Paired

/-- The open contexts begin at tokens. -/
theorem lt_size (h : Paired source s) (hn : n ∈ s.openers) : n < s.tokens.size := by
  obtain ⟨c, hc, hopener⟩ := mem_openers.mp hn
  obtain ⟨t, ht, -⟩ := h.begun c hc n hopener
  exact TokenList.lt_size_of_get? ht

/-- **The openers of the open contexts are those without a partner.** -/
theorem mem_openers_iff (h : Paired source s) : n ∈ s.openers ↔
    ∃ t, s.tokens.get? n = some t ∧ t.kind.isOpener = true ∧ t.partner = none := by
  constructor
  · intro hn
    obtain ⟨c, hc, hopener⟩ := mem_openers.mp hn
    obtain ⟨t, ht, hpartner, hcontext⟩ := h.begun c hc n hopener
    exact ⟨t, ht, isOpener_of_context? hcontext, hpartner⟩
  · rintro ⟨t, ht, hkind, hpartner⟩
    exact h.unpaired n t ht hkind hpartner

/-- Partners are among the tokens. -/
theorem lt_size_of_partner (h : Paired source s) {i j : Nat} (hi : s.tokens.partner? i = some j) :
    i < s.tokens.size ∧ j < s.tokens.size := by
  obtain ⟨t, ht, hpartner⟩ := TokenList.partner?_eq_some_iff.mp hi
  obtain ⟨u, hu, -⟩ := h.linked i j t ht hpartner
  exact ⟨TokenList.lt_size_of_get? ht, TokenList.lt_size_of_get? hu⟩

end Paired

/-! ## §4 Taking a token -/

theorem get?_record (s : Scan) (kind : TokenKind) (lexeme : Text) (i : Nat) :
    (s.record kind lexeme).tokens.get? i =
      if i = s.tokens.size then some ⟨kind, ⟨s.offset, s.offset + width lexeme⟩, none⟩
      else s.tokens.get? i :=
  TokenList.get?_push _ _ _ _

theorem get?_record_of_lt (s : Scan) (kind : TokenKind) (lexeme : Text) {i : Nat}
    (h : i < s.tokens.size) : (s.record kind lexeme).tokens.get? i = s.tokens.get? i := by
  rw [get?_record, if_neg (Nat.ne_of_lt h)]

/-- A token that has a partner is none that was just recorded. -/
theorem get?_of_partner {i j : Nat} {t : Token}
    (h : (s.record kind lexeme).tokens.get? i = some t) (ht : t.partner = some j) :
    s.tokens.get? i = some t := by
  rw [get?_record] at h
  split at h
  · cases h
    cases ht
  · exact h

/-- **Recording a token keeps the pairs**, whatever its kind, as far as no context begins. -/
theorem Paired.record (h : Paired source s) (hkind : kind.isOpener = false) (lexeme : Text) :
    Paired source (s.record kind lexeme) where
  rooted := h.rooted
  sorted := h.sorted
  begun c hc i hi := by
    obtain ⟨t, ht, hrest⟩ := h.begun c hc i hi
    refine ⟨t, ?_, hrest⟩
    rw [get?_record_of_lt _ _ _ (TokenList.lt_size_of_get? ht), ht]
  unpaired i t ht hopener hpartner := by
    rw [get?_record] at ht
    split at ht
    · cases ht
      rw [hkind] at hopener
      cases hopener
    · exact h.unpaired i t ht hopener hpartner
  linked i j t ht hpartner := by
    obtain ⟨u, hu, hrest⟩ := h.linked i j t (get?_of_partner ht hpartner) hpartner
    refine ⟨u, ?_, hrest⟩
    rw [get?_record_of_lt _ _ _ (TokenList.lt_size_of_get? hu), hu]
  nested i j k l hi hk := by
    have hpush := TokenList.partner?_push s.tokens kind ⟨s.offset, s.offset + width lexeme⟩
    exact h.nested i j k l (hpush i ▸ hi) (hpush k ▸ hk)
  outside o ho i j hi := by
    have hpush := TokenList.partner?_push s.tokens kind ⟨s.offset, s.offset + width lexeme⟩
    exact h.outside o ho i j (hpush i ▸ hi)

/-- **An opener keeps the pairs.** -/
theorem Paired.enter (h : Paired source s)
    (hslice : (Span.mk s.offset (s.offset + width lexeme)).slice source = lexeme)
    (hc : context? kind s.tokens.size lexeme = some c) :
    Paired source ((s.record kind lexeme).enter c) := by
  have hopener := opener?_of_context? hc
  have hopeners : ((s.record kind lexeme).enter c).openers = s.tokens.size :: s.openers := by
    show (c :: s.stack).filterMap Context.opener? = _
    rw [List.filterMap_cons_some hopener]
    rfl
  have hpush := TokenList.partner?_push s.tokens kind ⟨s.offset, s.offset + width lexeme⟩
  constructor
  case rooted =>
    obtain ⟨inner, hinner, hroot⟩ := h.rooted
    refine ⟨c :: inner, ?_, List.forall_mem_cons.mpr ⟨kind_ne_root_of_context? hc, hroot⟩⟩
    show c :: s.stack = _
    rw [hinner, List.cons_append]
  case sorted =>
    rw [hopeners]
    exact .cons (fun i hi => h.lt_size hi) h.sorted
  case begun =>
    intro d hd i hi
    rcases List.mem_cons.mp hd with rfl | hd
    · obtain rfl : s.tokens.size = i := Option.some.inj (hopener.symm.trans hi)
      refine ⟨_, (get?_record _ _ _ _).trans (if_pos rfl), rfl, ?_⟩
      show context? kind s.tokens.size ((Span.mk s.offset (s.offset + width lexeme)).slice source) = _
      rw [hslice, hc]
    · obtain ⟨t, ht, hrest⟩ := h.begun d hd i hi
      refine ⟨t, ?_, hrest⟩
      exact (get?_record_of_lt _ _ _ (TokenList.lt_size_of_get? ht)).trans ht
  case unpaired =>
    intro i t ht hkind hpartner
    rw [hopeners]
    have ht : (s.record kind lexeme).tokens.get? i = some t := ht
    rw [get?_record] at ht
    split at ht
    · next heq =>
      rw [heq]
      exact List.mem_cons_self
    · exact List.mem_cons_of_mem _ (h.unpaired i t ht hkind hpartner)
  case linked =>
    intro i j t ht hpartner
    obtain ⟨u, hu, hrest⟩ := h.linked i j t (get?_of_partner ht hpartner) hpartner
    refine ⟨u, ?_, hrest⟩
    exact (get?_record_of_lt _ _ _ (TokenList.lt_size_of_get? hu)).trans hu
  case nested =>
    intro i j k l hi hk
    exact h.nested i j k l (hpush i ▸ hi) (hpush k ▸ hk)
  case outside =>
    intro o ho i j hi hbetween
    have hi : s.tokens.partner? i = some j := hpush i ▸ hi
    rw [hopeners] at ho
    rcases List.mem_cons.mp ho with rfl | ho
    · have hlt := (h.lt_size_of_partner hi).2
      omega
    · exact h.outside o ho i j hi hbetween

/-- **What a closer does to the tokens**: it is recorded, and the opener and it become partners. -/
theorem get?_leave (s : Scan) (kind : TokenKind) (lexeme : Text) (hlt : opener < s.tokens.size)
    (i : Nat) : ((s.record kind lexeme).leave opener s.tokens.size).tokens.get? i =
      if i = opener then (s.tokens.get? i).map ({ · with partner := some s.tokens.size })
      else if i = s.tokens.size then
        some ⟨kind, ⟨s.offset, s.offset + width lexeme⟩, some opener⟩
      else s.tokens.get? i := by
  refine (TokenList.get?_pair (Nat.ne_of_lt hlt) i).trans ?_
  rw [get?_record]
  by_cases ho : i = opener
  · rw [if_pos ho, if_pos ho, if_neg (by omega)]
  · rw [if_neg ho, if_neg ho]
    by_cases hc : i = s.tokens.size
    · rw [if_pos hc, if_pos hc, if_pos hc, Option.map_some]
    · rw [if_neg hc, if_neg hc, if_neg hc]

/-- The closer is a partner of the opener, and others keep theirs. -/
theorem partner?_leave (hlt : opener < s.tokens.size) {i j : Nat}
    (h : ((s.record kind lexeme).leave opener s.tokens.size).tokens.partner? i = some j) :
    (i = opener ∧ j = s.tokens.size) ∨ (i = s.tokens.size ∧ j = opener) ∨
      s.tokens.partner? i = some j := by
  rw [TokenList.partner?, get?_leave s kind lexeme hlt] at h
  split at h
  · next hi =>
    obtain ⟨t, ht, hpartner⟩ := Option.bind_eq_some_iff.mp h
    obtain ⟨u, -, rfl⟩ := Option.map_eq_some_iff.mp ht
    exact .inl ⟨hi, (Option.some.inj hpartner).symm⟩
  · split at h
    · next hi => exact .inr (.inl ⟨hi, (Option.some.inj h).symm⟩)
    · exact .inr (.inr h)

/-- A closer takes the innermost of the openers without a partner. -/
theorem openers_eq_cons (hs : Grounded source s rest) (hopener : s.top.opener? = some opener)
    (kind : TokenKind) (lexeme : Text) : s.openers =
      opener :: ((s.record kind lexeme).leave opener s.tokens.size).openers := by
  obtain ⟨inner, hinner, -⟩ := hs.exists_inner hopener
  show s.stack.filterMap Context.opener? = opener :: s.stack.tail.filterMap Context.opener?
  rw [hinner, List.filterMap_cons_some hopener, List.tail_cons]

/-- With a closer, partners are an opener and what closes it as before. -/
theorem Paired.linked_leave (h : Paired source s) {t : Token} (ht : s.tokens.get? opener = some t)
    (hnone : t.partner = none)
    (hencloses : t.Encloses source ⟨kind, ⟨s.offset, s.offset + width lexeme⟩, none⟩)
    {i j : Nat} {v : Token}
    (hv : ((s.record kind lexeme).leave opener s.tokens.size).tokens.get? i = some v)
    (hvpartner : v.partner = some j) :
    ∃ w, ((s.record kind lexeme).leave opener s.tokens.size).tokens.get? j = some w ∧
      w.partner = some i ∧ ((i < j ∧ v.Encloses source w) ∨ (j < i ∧ w.Encloses source v)) := by
  have hlt : opener < s.tokens.size := TokenList.lt_size_of_get? ht
  have hget := get?_leave s kind lexeme hlt
  rw [hget] at hv
  split at hv
  · next hi =>
    -- The opener that was paired: its partner is the closer.
    rw [hi, ht] at hv
    cases hv
    cases hvpartner
    refine ⟨_, (hget _).trans ((if_neg (Nat.ne_of_gt hlt)).trans (if_pos rfl)), ?_,
      .inl ⟨hi ▸ hlt, hencloses⟩⟩
    rw [hi]
  · split at hv
    · next hi =>
      -- The closer: its partner is the opener.
      cases hv
      cases hvpartner
      refine ⟨{ t with partner := some s.tokens.size }, (hget _).trans ((if_pos rfl).trans ?_), ?_,
        .inr ⟨hi ▸ hlt, hencloses⟩⟩
      · rw [ht, Option.map_some]
      · rw [hi]
    · obtain ⟨w, hw, hwpartner, hwencloses⟩ := h.linked i j v hv hvpartner
      have hjlt := TokenList.lt_size_of_get? hw
      have hjne : j ≠ opener := by
        rintro rfl
        rw [ht] at hw
        cases hw
        rw [hnone] at hwpartner
        cases hwpartner
      refine ⟨w, ?_, hwpartner, hwencloses⟩
      rw [hget, if_neg hjne, if_neg (Nat.ne_of_lt hjlt), hw]

/-- **A closer keeps the pairs**: it is paired with the innermost opener that has no partner. -/
theorem Paired.leave (h : Paired source s) (hs : Grounded source s rest)
    (hopener : s.top.opener? = some opener)
    (hencloses : ∀ t, s.tokens.get? opener = some t →
      t.Encloses source ⟨kind, ⟨s.offset, s.offset + width lexeme⟩, none⟩) :
    Paired source ((s.record kind lexeme).leave opener s.tokens.size) := by
  obtain ⟨inner, hinner, hroot⟩ := hs.exists_inner hopener
  have hopeners := openers_eq_cons hs hopener kind lexeme
  have hsorted := h.sorted
  rw [hopeners, List.pairwise_cons] at hsorted
  have hlt : opener < s.tokens.size := h.lt_size (hopeners ▸ List.mem_cons_self)
  have hget := get?_leave s kind lexeme hlt
  obtain ⟨t, ht, htpartner, -⟩ := h.begun s.top (hinner ▸ List.mem_cons_self) opener hopener
  constructor
  case rooted =>
    refine ⟨inner, ?_, hroot⟩
    show s.stack.tail = _
    rw [hinner, List.tail_cons]
  case sorted => exact hsorted.2
  case begun =>
    intro c hc i hi
    obtain ⟨v, hv, hrest⟩ := h.begun c (List.mem_of_mem_tail hc) i hi
    have hbelow := hsorted.1 i (mem_openers.mpr ⟨c, hc, hi⟩)
    refine ⟨v, ?_, hrest⟩
    rw [hget, if_neg (by omega), if_neg (by omega), hv]
  case unpaired =>
    intro i v hv hvopener hvpartner
    rw [hget] at hv
    split at hv
    · obtain ⟨u, -, rfl⟩ := Option.map_eq_some_iff.mp hv
      cases hvpartner
    · next hi =>
      split at hv
      · cases hv
        cases hvpartner
      · have hmem := h.unpaired i v hv hvopener hvpartner
        rw [hopeners] at hmem
        exact (List.mem_cons.mp hmem).resolve_left hi
  case linked => exact fun i j v hv => h.linked_leave ht htpartner (hencloses t ht) hv
  case nested =>
    intro i j k l hij hkl hi hk hik hkj
    rcases partner?_leave hlt hij with ⟨rfl, rfl⟩ | ⟨rfl, rfl⟩ | houter
    · rcases partner?_leave hlt hkl with ⟨rfl, rfl⟩ | ⟨rfl, rfl⟩ | hinside
      · omega
      · omega
      · exact (h.lt_size_of_partner hinside).2
    · omega
    · rcases partner?_leave hlt hkl with ⟨rfl, rfl⟩ | ⟨rfl, rfl⟩ | hinside
      · -- No open context begins inside a pair, and this one was open.
        exact absurd ⟨hik, hkj⟩ (h.outside _ (hopeners ▸ List.mem_cons_self) i j houter)
      · omega
      · exact h.nested i j k l houter hinside hi hk hik hkj
  case outside =>
    intro o ho i j hij hbetween
    have hbelow := hsorted.1 o ho
    rcases partner?_leave hlt hij with ⟨rfl, rfl⟩ | ⟨rfl, rfl⟩ | hij
    · omega
    · omega
    · exact h.outside o (hopeners ▸ List.mem_cons_of_mem _ ho) i j hij hbetween

/-- **A token that ends a context closes its opener.** -/
theorem Paired.encloses {m : View.Match} (h : Paired source s) (hs : Grounded source s rest)
    (hstands : Stands (s.view config rest) m) (hopener : s.top.opener? = some opener)
    (hcloses : Closes (((s.record m.kind (rest.take m.length)).tokens.get? opener).map (·.kind))
      m.kind s.top) :
    ∀ t, s.tokens.get? opener = some t → t.Encloses source
      ⟨m.kind, ⟨s.offset, s.offset + width (rest.take m.length)⟩, none⟩ := by
  intro t ht
  obtain ⟨inner, hinner, -⟩ := hs.exists_inner hopener
  obtain ⟨u, hu, -, hcontext⟩ := h.begun s.top (hinner ▸ List.mem_cons_self) opener hopener
  obtain rfl : u = t := Option.some.inj (hu.symm.trans ht)
  rw [get?_record_of_lt _ _ _ (TokenList.lt_size_of_get? ht), ht] at hcloses
  exact encloses_of_closes (v := s.view config rest) hcontext hcloses hstands.taken
    (hs.slice_eq m.length)

/-- **A step keeps the pairs.** -/
theorem Steps.paired (h : Steps config s rest next n) (hs : Grounded source s rest)
    (hp : Paired source s) : Paired source next := by
  cases h with
  | skip =>
    exact ⟨hp.rooted, hp.sorted, hp.begun, hp.unpaired, hp.linked, hp.nested, hp.outside⟩
  | @take m next hstands htakes =>
    have hslice := hs.slice_eq m.length
    cases htakes with
    | plain hopener =>
      have hr := hp.record hopener (rest.take m.length)
      exact ⟨hr.rooted, hr.sorted, hr.begun, hr.unpaired, hr.linked, hr.nested, hr.outside⟩
    | enter hc => exact hp.enter hslice hc
    | leave _ hopener hcloses =>
      exact hp.leave hs hopener (hp.encloses hs hstands hopener hcloses)

/-- **Every state that a scan comes to has its pairs.** -/
theorem Reaches.paired (h : Reaches config source s rest) : Paired source s := by
  induction h with
  | start => exact paired_start source
  | step h _ hstep ih => exact (steps_of_step hstep).paired h.grounded ih

/-! ## §5 The end of the source -/

/-- Nothing is open but a string that nothing ends. -/
def Spared (s : Scan) : Prop := ∃ c, s.stack = [c, .root] ∧ c.ending? = some .endOfSource

/-- **`Reports`** — an error says of an open context what it is, where it begins and what would end
it. -/
def Reports (s : Scan) (c : Context) (e : LexError) : Prop := ∃ i t, c.opener? = some i ∧
  s.tokens.get? i = some t ∧ e = .unterminated c.kind t.span (awaited s.tokens c) s.offset

theorem kind_of_endOfSource {place : Nat} (h : context? kind place lexeme = some c)
    (hending : c.ending? = some .endOfSource) :
    kind = .restOfFileOpener ∨ kind = .rawRestOfFileOpener := by
  cases kind <;> cases h
  case restOfFileOpener => exact .inl rfl
  case rawRestOfFileOpener => exact .inr rfl
  all_goals cases hending

/-- Below a single open context is the root. -/
theorem Paired.bottom_eq (h : Paired source s) {bottom : Context} (hstack : s.stack = [c, bottom]) :
    bottom = .root := by
  obtain ⟨inner, hinner, -⟩ := h.rooted
  have hlast := congrArg List.getLast? (hstack.symm.trans hinner)
  rw [List.getLast?_concat] at hlast
  exact Option.some.inj hlast

/-- Where no open context is an error, nothing is open or a string that nothing ends. -/
theorem Paired.spared (h : Paired source s) (hn : n ∈ s.openers)
    (hopen : s.openContexts.filterMap s.openError = []) : s.Spared := by
  obtain ⟨c, hc, hopener⟩ := mem_openers.mp hn
  unfold openContexts at hopen
  split at hopen
  · next context bottom hstack =>
    split at hopen
    · next hending => exact ⟨context, h.bottom_eq hstack ▸ hstack, hending⟩
    · have hnone := List.filterMap_eq_nil_iff.mp hopen c hc
      rw [openError, hopener] at hnone
      cases hnone
  · have hnone := List.filterMap_eq_nil_iff.mp hopen c hc
    rw [openError, hopener] at hnone
    cases hnone

/-- **A string that nothing ends is alone**: it lies in no pair, and no other opener lacks a partner. -/
theorem Paired.of_spared (h : Paired source s) (hspared : s.Spared) (hn : n ∈ s.openers) :
    (∃ t, s.tokens.get? n = some t ∧
      (t.kind = .restOfFileOpener ∨ t.kind = .rawRestOfFileOpener)) ∧
    ∀ i ∈ s.openers, i = n := by
  obtain ⟨c, hstack, hending⟩ := hspared
  have hmem : ∀ i ∈ s.openers, c.opener? = some i := by
    intro i hi
    obtain ⟨d, hd, hopener⟩ := mem_openers.mp hi
    rw [hstack] at hd
    rcases List.mem_cons.mp hd with rfl | hd
    · exact hopener
    · rw [List.mem_singleton.mp hd] at hopener
      cases hopener
  obtain ⟨t, ht, -, hcontext⟩ := h.begun c (hstack ▸ List.mem_cons_self) n (hmem n hn)
  refine ⟨⟨t, ht, kind_of_endOfSource hcontext hending⟩, fun i hi => ?_⟩
  exact Option.some.inj ((hmem i hi).symm.trans (hmem n hn))

/-- **Every open context is reported**, innermost first. -/
theorem Paired.exists_reports (h : Paired source s) (hspared : ¬ s.Spared) :
    ∃ reports, List.Forall₂ s.Reports s.stack.dropLast reports ∧
      s.openContexts.filterMap s.openError = reports := by
  obtain ⟨inner, hinner, hroot⟩ := h.rooted
  have hcontexts : s.openContexts = inner ++ [.root] := by
    unfold openContexts
    split
    · next context bottom hstack =>
      split
      · next hending =>
        exact absurd ⟨context, h.bottom_eq hstack ▸ hstack, hending⟩ hspared
      · exact hinner
    · exact hinner
  have hbegun : ∀ c ∈ inner, ∃ i t, c.opener? = some i ∧ s.tokens.get? i = some t := by
    intro c hc
    obtain ⟨i, hi⟩ := Context.exists_opener_of_ne_root (hroot c hc)
    obtain ⟨t, ht, -⟩ := h.begun c (hinner ▸ List.mem_append_left _ hc) i hi
    exact ⟨i, t, hi, ht⟩
  refine ⟨_, ?_, rfl⟩
  rw [hinner, hcontexts, List.dropLast_concat, List.filterMap_append]
  show List.Forall₂ s.Reports inner (inner.filterMap s.openError ++ [])
  rw [List.append_nil]
  clear hinner hcontexts hroot
  induction inner with
  | nil => exact .nil
  | cons c inner ih =>
    obtain ⟨i, t, hi, ht⟩ := hbegun c List.mem_cons_self
    have herror : s.openError c =
        some (.unterminated c.kind t.span (awaited s.tokens c) s.offset) := by
      rw [openError, hi, Option.map_some, TokenList.span, ht]
      rfl
    rw [List.filterMap_cons_some herror]
    exact .cons ⟨i, t, hi, ht, rfl⟩ (ih fun d hd => hbegun d (List.mem_cons_of_mem _ hd))

/-! ## §6 Whole scans -/

/-- **Openers and closers are paired, and pairs are nested.** In every state of a scan the tokens agree
with the open contexts, also behind a closer that is refused. If the scan ends with tokens, the only
opener that may lack a partner is that of a string that nothing ends, and it lies in no pair. If it ends
inside of anything else, every open context is reported, innermost first. -/
theorem tokenize_paired (config : LexerConfig) (source : Text) :
    (∀ s rest, Reaches config source s rest → Paired source s ∧
      (∀ n, n ∈ s.openers ↔
        ∃ t, s.tokens.get? n = some t ∧ t.kind.isOpener = true ∧ t.partner = none) ∧
      ∀ kind lexeme, kind.isOpener = false → Paired source (s.record kind lexeme)) ∧
    (∀ out, tokenize config source = .ok out → ∀ i t, out.tokens.get? i = some t →
      t.kind.isOpener = true → t.partner = none →
      (t.kind = .restOfFileOpener ∨ t.kind = .rawRestOfFileOpener) ∧
      (∀ j u, out.tokens.get? j = some u → u.kind.isOpener = true → u.partner = none → j = i) ∧
      ∀ j k, out.tokens.partner? j = some k → ¬ (j < i ∧ i < k)) ∧
    ∀ s, Reaches config source s [] → s.stack ≠ [.root] → ¬ s.Spared →
      ∃ reports, List.Forall₂ s.Reports s.stack.dropLast reports ∧
        tokenize config source = refuse (s.errors ++ reports) := by
  refine ⟨fun s rest h => ?_, fun out hout => ?_, fun s h hstack hspared => ?_⟩
  · exact ⟨h.paired, fun n => h.paired.mem_openers_iff,
      fun kind lexeme hkind => h.paired.record hkind lexeme⟩
  · obtain ⟨s, hreaches, hfinish⟩ := exists_reaches_of_tokenize hout
    obtain ⟨-, hopen, htokens⟩ := errors_eq_nil_of_finish hfinish
    have hpaired := hreaches.paired
    rw [htokens]
    intro i t ht hkind hpartner
    have hi : i ∈ s.openers := hpaired.unpaired i t ht hkind hpartner
    obtain ⟨⟨u, hu, hrest⟩, halone⟩ := hpaired.of_spared (hpaired.spared hi hopen) hi
    obtain rfl : u = t := Option.some.inj (hu.symm.trans ht)
    exact ⟨hrest, fun j u hu hkind hpartner => halone j (hpaired.unpaired j u hu hkind hpartner),
      hpaired.outside i hi⟩
  · obtain ⟨reports, hreports, heq⟩ := h.paired.exists_reports hspared
    obtain ⟨inner, hinner, -⟩ := h.paired.rooted
    refine ⟨reports, hreports, ?_⟩
    have hne : s.errors ++ reports ≠ [] := by
      intro hnil
      rw [(List.append_eq_nil_iff.mp hnil).2, hinner, List.dropLast_concat] at hreports
      cases hreports
      exact hstack hinner
    rw [h.tokenize_eq, run, finish, heq]
    split
    · next hnil => exact absurd hnil hne
    · rfl

/-- A pair and a string that nothing ends behind it; and a string in a bracket, both left open. -/
theorem tokenize_paired_of_strings :
    let whole : Text := ['(', 'a', ')', '#', '"', '"', '"', 'b']
    let cut : Text := ['[', '"']
    (∃ out t, tokenize default whole = .ok out ∧ out.tokens.partner? 0 = some 2 ∧
      out.tokens.get? 3 = some t ∧ t.kind.isOpener = true ∧ t.partner = none ∧
      (t.kind = .restOfFileOpener ∨ t.kind = .rawRestOfFileOpener) ∧
      ∀ j k, out.tokens.partner? j = some k → ¬ (j < 3 ∧ 3 < k)) ∧
    ∃ s reports, Reaches default cut s [] ∧ Paired cut s ∧ Paired cut (s.record .rightBrace ['\x7d']) ∧
      s.openers = [1, 0] ∧ List.Forall₂ s.Reports s.stack.dropLast reports ∧
      tokenize default cut = refuse reports := by
  intro whole cut
  constructor
  · have hrun : ((tokenize default whole).toOption.bind fun out => (out.tokens.get? 3).map fun t =>
        (out.tokens.partner? 0, t.kind, t.partner)) = some (some 2, .restOfFileOpener, none) := by
      decide +kernel
    obtain ⟨out, hout, hrun⟩ := Option.bind_eq_some_iff.mp hrun
    have hout := toOption_eq_some_iff.mp hout
    obtain ⟨t, ht, hrun⟩ := Option.map_eq_some_iff.mp hrun
    injection hrun with hpair hrun
    injection hrun with hkind hpartner
    have hopener : t.kind.isOpener = true := by rw [hkind]; rfl
    obtain ⟨hrest, -, houtside⟩ := (tokenize_paired default whole).2.1 out hout 3 t ht hopener hpartner
    exact ⟨out, t, hout, hpair, ht, hopener, hpartner, hrest, houtside⟩
  · let bracket : Scan := ⟨1, ⟨#[⟨.leftBracket, ⟨0, 1⟩, none⟩]⟩, [.blockBody 0 .decimal, .root], none,
      [], []⟩
    let quote : Scan := ⟨2, ⟨#[⟨.leftBracket, ⟨0, 1⟩, none⟩, ⟨.stringOpener, ⟨1, 2⟩, none⟩]⟩,
      [.stringBody 1 (.quotes ['"']), .blockBody 0 .decimal, .root], none, [], []⟩
    have hbracket : (Scan.start.step default cut).toOption = some (bracket, 1) := by decide +kernel
    have hquote : (bracket.step default ['"']).toOption = some (quote, 1) := by decide +kernel
    have hreaches : Reaches default cut quote [] :=
      .step (.step .start (List.cons_ne_nil _ _) (toOption_eq_some_iff.mp hbracket))
        (List.cons_ne_nil _ _) (toOption_eq_some_iff.mp hquote)
    have hspared : ¬ quote.Spared := by
      rintro ⟨c, hstack, -⟩
      cases hstack
    obtain ⟨hstates, -, hreports⟩ := tokenize_paired default cut
    obtain ⟨hpaired, -, hrecord⟩ := hstates quote [] hreaches
    obtain ⟨reports, hall, hrefused⟩ :=
      hreports quote hreaches (fun h => by cases h) hspared
    exact ⟨quote, reports, hreaches, hpaired, hrecord _ _ rfl, rfl, hall, hrefused⟩

end Scan

end DewyFront
