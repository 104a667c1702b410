/-
# DewyFront.Proofs.Bodies — what stands in each context

The tokens of a scan are nested: in every context stand tokens that may stand there, and between an
opener and its closer stands the body of the context that the opener begins. While a scan goes on, the
open contexts cut the tokens into the bodies begun so far. At the end they are the body of the root,
in which only a string that nothing ends may lack its closer.

* §1 tokens with their texts;
* §2 bodies;
* §3 bodies of open contexts;
* §4 what every state keeps;
* §5 whole scans.
-/
import DewyFront.Proofs.Pairing
import DewyFront.Tree.OfTokens

namespace DewyFront

/-! ## §1 Lexemes -/

namespace TokenList

/-- A token at a place, with its text. -/
def lexeme (source : Text) (place : Nat) (t : Token) : Lexeme :=
  ⟨place, t.kind, t.span, t.partner, t.text source⟩

variable {l : TokenList} {source : Text} {xs ys : List Lexeme} {x : Lexeme}

theorem getElem?_lexemes (l : TokenList) (source : Text) (i : Nat) :
    (l.lexemes source)[i]? = (l.get? i).map (lexeme source i) := by
  rw [lexemes, List.getElem?_map, List.getElem?_zipIdx, getElem?_toList, Option.map_map, Nat.zero_add]
  rfl

@[simp] theorem length_lexemes (l : TokenList) (source : Text) :
    (l.lexemes source).length = l.size := by
  rw [lexemes, List.length_map, List.length_zipIdx, length_toList]

theorem lexemes_push (l : TokenList) (source : Text) (kind : TokenKind) (span : Span) :
    (l.push kind span).lexemes source =
      l.lexemes source ++ [⟨l.size, kind, span, none, span.slice source⟩] := by
  rw [lexemes, lexemes, toList_push, List.zipIdx_append, List.map_append, Nat.zero_add, length_toList]
  rfl

/-- Naming a partner changes one lexeme. -/
theorem lexemes_setPartner (partner : Nat) (h : l.lexemes source = xs ++ x :: ys) :
    (l.setPartner xs.length partner).lexemes source =
      xs ++ { x with partner := some partner } :: ys := by
  apply List.ext_getElem?
  intro i
  have hi := congrArg (·[i]?) h
  simp only [getElem?_lexemes] at hi
  rw [getElem?_lexemes, get?_setPartner]
  by_cases heq : xs.length = i
  · subst heq
    rw [List.getElem?_append_right (Nat.le_refl _), Nat.sub_self, List.getElem?_cons_zero] at hi ⊢
    obtain ⟨t, ht, rfl⟩ := Option.map_eq_some_iff.mp hi
    rw [if_pos rfl, ht]
    rfl
  · rw [if_neg heq, hi]
    rcases Nat.lt_or_gt_of_ne heq with hlt | hlt
    · obtain ⟨k, hk⟩ : ∃ k, i - xs.length = k + 1 := ⟨i - xs.length - 1, by omega⟩
      rw [List.getElem?_append_right (Nat.le_of_lt hlt),
        List.getElem?_append_right (Nat.le_of_lt hlt), hk, List.getElem?_cons_succ,
        List.getElem?_cons_succ]
    · rw [List.getElem?_append_left hlt, List.getElem?_append_left hlt]

end TokenList

/-! ## §2 Bodies -/

/-- The token of a lexeme. -/
def Lexeme.token (l : Lexeme) : Token := ⟨l.kind, l.span, l.partner⟩

/-- **`Body`** — lexemes that may stand in a context, pairs with the body that they enclose. Unless the
body has ended, a string that nothing ends may stand last in the root. -/
inductive Body (source : Text) : Bool → ContextKind → List Lexeme → Prop
  | nil {ended : Bool} {context : ContextKind} : Body source ended context []
  | plain {ended : Bool} {context : ContextKind} {l : Lexeme} {rest : List Lexeme}
      (hlegal : l.kind.isLegalIn context = true) (hopener : l.kind.isOpener = false)
      (hcloser : l.kind.isCloser = false) (hrest : Body source ended context rest) :
      Body source ended context (l :: rest)
  | pair {ended : Bool} {context : ContextKind} {opener closer : Lexeme} {inner rest : List Lexeme}
      {c : Context} (hlegal : opener.kind.isLegalIn context = true)
      (hc : Scan.context? opener.kind opener.place opener.text = some c)
      (hencloses : opener.token.Encloses source closer.token)
      (hpartner : opener.partner = some closer.place)
      (hplace : closer.place = opener.place + inner.length + 1)
      (hinner : Body source true c.kind inner) (hrest : Body source ended context rest) :
      Body source ended context (opener :: (inner ++ closer :: rest))
  | unended {opener : Lexeme} {inner : List Lexeme} {c : Context}
      (hkind : opener.kind = .restOfFileOpener ∨ opener.kind = .rawRestOfFileOpener)
      (hc : Scan.context? opener.kind opener.place opener.text = some c)
      (hpartner : opener.partner = none) (hinner : Body source true c.kind inner) :
      Body source false .root (opener :: inner)

namespace Body

variable {source : Text} {ended : Bool} {context : ContextKind} {xs ys : List Lexeme} {l : Lexeme}

/-- What stands behind a body that has ended goes on with it. -/
theorem append (hxs : Body source true context xs) (hys : Body source ended context ys) :
    Body source ended context (xs ++ ys) := by
  -- The flag is a variable of the induction; only a body that has not ended holds an open string.
  generalize hall : true = all at hxs
  induction hxs with
  | nil => exact hys
  | plain hlegal hopener hcloser _ ih => exact .plain hlegal hopener hcloser (ih hys hall)
  | pair hlegal hc hencloses hpartner hplace hinner _ _ ih =>
    rw [List.cons_append, List.append_assoc, List.cons_append]
    exact .pair hlegal hc hencloses hpartner hplace hinner (ih hys hall)
  | unended => cases hall

/-- Behind a lexeme that is no opener the body goes on. -/
theorem of_cons (h : Body source ended context (l :: xs)) (hopener : l.kind.isOpener = false) :
    Body source ended context xs := by
  cases h with
  | plain _ _ _ hrest => exact hrest
  | pair _ hc =>
    rw [Scan.isOpener_of_context? hc] at hopener
    cases hopener
  | unended _ hc =>
    rw [Scan.isOpener_of_context? hc] at hopener
    cases hopener

end Body

namespace Scan

variable {s next : Scan} {kind : TokenKind} {lexeme rest source : Text} {config : LexerConfig}
  {n : Nat} {c : Context} {stack : List Context} {ls xs : List Lexeme}

/-! ## §3 Open contexts -/

/-- **`Stacked`** — open contexts cut lexemes into the body of the root and, behind the opener of each,
the body of that context. -/
inductive Stacked (source : Text) : List Context → List Lexeme → Prop
  | root {ls : List Lexeme} (h : Body source true .root ls) : Stacked source [.root] ls
  | enter {stack : List Context} {ls inner : List Lexeme} {opener : Lexeme} {c : Context}
      (hbelow : Stacked source stack ls)
      (hlegal : opener.kind.isLegalIn (stack.headD .root).kind = true)
      (hc : context? opener.kind opener.place opener.text = some c)
      (hpartner : opener.partner = none) (hplace : opener.place = ls.length)
      (hinner : Body source true c.kind inner) : Stacked source (c :: stack) (ls ++ opener :: inner)

/-- The innermost body goes on. -/
theorem Stacked.append (h : Stacked source stack ls)
    (hxs : Body source true (stack.headD .root).kind xs) : Stacked source stack (ls ++ xs) := by
  cases h with
  | root h => exact .root (h.append hxs)
  | enter hbelow hlegal hc hpartner hplace hinner =>
    rw [List.append_assoc, List.cons_append]
    exact .enter hbelow hlegal hc hpartner hplace (hinner.append hxs)

/-! ## §4 What every state keeps -/

theorem lexemes_record (s : Scan) (kind : TokenKind)
    (hslice : (Span.mk s.offset (s.offset + width lexeme)).slice source = lexeme) :
    (s.record kind lexeme).tokens.lexemes source = s.tokens.lexemes source ++
      [⟨s.tokens.size, kind, ⟨s.offset, s.offset + width lexeme⟩, none, lexeme⟩] := by
  show (s.tokens.push kind _).lexemes source = _
  rw [TokenList.lexemes_push, hslice]

/-- **A closer ends the innermost body**, which becomes a part of the one around it. -/
theorem Stacked.leave {opener : Nat} (h : Stacked source s.stack (s.tokens.lexemes source))
    (hslice : (Span.mk s.offset (s.offset + width lexeme)).slice source = lexeme)
    (hopener : s.top.opener? = some opener)
    (hencloses : ∀ t, s.tokens.get? opener = some t →
      t.Encloses source ⟨kind, ⟨s.offset, s.offset + width lexeme⟩, none⟩) :
    Stacked source ((s.record kind lexeme).leave opener s.tokens.size).stack
      (((s.record kind lexeme).leave opener s.tokens.size).tokens.lexemes source) := by
  have hrecord := lexemes_record s kind hslice
  have hsize := TokenList.length_lexemes s.tokens source
  show Stacked source s.stack.tail (((s.record kind lexeme).tokens.pair opener s.tokens.size).lexemes
    source)
  generalize htokens : s.tokens.lexemes source = all at h hrecord hsize
  generalize hstack : s.stack = stack at h
  have htop : s.top = stack.headD .root := by rw [top, hstack]
  rw [htop] at hopener
  cases h with
  | root => cases hopener
  | @enter stack ls inner o c hbelow hlegal hc hpartner hplace hinner =>
    have hplace' : o.place = opener := Option.some.inj ((opener?_of_context? hc).symm.trans hopener)
    have hopens : opener = ls.length := hplace'.symm.trans hplace
    -- The opener is the lexeme that the innermost body stands behind.
    have hget := congrArg (·[opener]?) htokens
    simp only [TokenList.getElem?_lexemes, hopens, List.getElem?_append_right (Nat.le_refl _),
      Nat.sub_self, List.getElem?_cons_zero] at hget
    obtain ⟨t, ht, htoken⟩ := Option.map_eq_some_iff.mp hget
    have hencloses := hencloses t (hopens ▸ ht)
    rw [List.append_assoc, List.cons_append] at hrecord
    have hpaired := TokenList.lexemes_setPartner s.tokens.size hrecord
    rw [← List.cons_append, ← List.append_assoc] at hpaired
    have hcloser : (ls ++ { o with partner := some s.tokens.size } :: inner).length =
        s.tokens.size := by
      rw [← hsize]
      simp
    have hpaired := TokenList.lexemes_setPartner opener hpaired
    rw [hcloser, ← hopens] at hpaired
    rw [TokenList.pair, hpaired, List.tail_cons, List.append_assoc, List.cons_append]
    refine hbelow.append (.pair hlegal hc ?_ rfl ?_ hinner .nil)
    · rw [← htoken]
      exact hencloses
    · show s.tokens.size = o.place + inner.length + 1
      rw [← hsize, hplace, List.length_append, List.length_cons]
      omega

/-- **A step keeps the bodies.** -/
theorem Steps.stacked (h : Steps config s rest next n) (hs : Grounded source s rest)
    (hp : Paired source s) (hstacked : Stacked source s.stack (s.tokens.lexemes source)) :
    Stacked source next.stack (next.tokens.lexemes source) := by
  cases h with
  | skip => exact hstacked
  | @take m next hstands htakes =>
    have hslice := hs.slice_eq m.length
    have hrecord := lexemes_record s m.kind hslice
    cases htakes with
    | plain hopener hcloser =>
      show Stacked source s.stack ((s.record m.kind (rest.take m.length)).tokens.lexemes source)
      rw [hrecord]
      exact hstacked.append (.plain hstands.legal hopener hcloser .nil)
    | @enter c hc =>
      show Stacked source (c :: s.stack)
        ((s.record m.kind (rest.take m.length)).tokens.lexemes source)
      rw [hrecord]
      exact .enter hstacked hstands.legal hc rfl (TokenList.length_lexemes _ _).symm .nil
    | leave _ hopener hcloses =>
      exact hstacked.leave hslice hopener (hp.encloses hs hstands hopener hcloses)

/-- **Every state that a scan comes to has its bodies.** -/
theorem Reaches.stacked (h : Reaches config source s rest) :
    Stacked source s.stack (s.tokens.lexemes source) := by
  induction h with
  | start => exact .root .nil
  | step h _ hstep ih => exact (steps_of_step hstep).stacked h.grounded h.paired ih

/-! ## §5 Whole scans -/

/-- Where no context has an opener, nothing is open. -/
theorem Paired.stack_eq_of_openers (h : Paired source s) (hopeners : s.openers = []) :
    s.stack = [.root] := by
  obtain ⟨inner, hinner, hroot⟩ := h.rooted
  cases inner with
  | nil => exact hinner
  | cons c inner =>
    obtain ⟨i, hi⟩ := Context.exists_opener_of_ne_root (hroot c List.mem_cons_self)
    have hmem : i ∈ s.openers :=
      mem_openers.mpr ⟨c, hinner ▸ List.mem_append_left _ List.mem_cons_self, hi⟩
    rw [hopeners] at hmem
    cases hmem

/-- **The tokens of a scan are the body of the root.** -/
theorem body_of_tokenize {out : Tokenized} (h : tokenize config source = .ok out) :
    Body source false .root (out.tokens.lexemes source) := by
  obtain ⟨s, hreaches, hfinish⟩ := exists_reaches_of_tokenize h
  obtain ⟨-, hopen, htokens⟩ := errors_eq_nil_of_finish hfinish
  have hstacked := hreaches.stacked
  rw [htokens]
  generalize s.tokens.lexemes source = ls at hstacked
  rcases List.eq_nil_or_concat s.openers with hnil | ⟨_, i, hopeners⟩
  · rw [hreaches.paired.stack_eq_of_openers hnil] at hstacked
    cases hstacked with
    | root hbody =>
      have hwhole : Body source false .root (ls ++ []) := hbody.append .nil
      rw [List.append_nil] at hwhole
      exact hwhole
    | enter _ _ hc => exact absurd rfl (kind_ne_root_of_context? hc)
  · have hi : i ∈ s.openers := by
      rw [hopeners, List.concat_eq_append]
      exact List.mem_append_right _ List.mem_cons_self
    obtain ⟨c, hstack, hending⟩ := hreaches.paired.spared hi hopen
    rw [hstack] at hstacked
    cases hstacked with
    | enter hbelow _ hc hpartner _ hinner =>
      cases hbelow with
      | root hbody => exact hbody.append (.unended (kind_of_endOfSource hc hending) hc hpartner hinner)
      | enter _ _ hroot => exact absurd rfl (kind_ne_root_of_context? hroot)

end Scan

end DewyFront
