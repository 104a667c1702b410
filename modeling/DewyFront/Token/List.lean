/-
# DewyFront.Token.List — tokens in source order, with openers and closers paired

A token knows the place in the list of the token that it is paired with. Both tokens of a pair know
each other.
-/
import DewyFront.Span
import DewyFront.Token.Kind

namespace DewyFront

/-- **`Token`** — a kind, where it stands, and the place of its partner in the list. -/
structure Token where
  kind : TokenKind
  span : Span
  partner : Option Nat
deriving DecidableEq, Repr

/-- The text of a token. -/
def Token.text (t : Token) (source : Text) : Text := t.span.slice source

/-- **`TokenList`** — the tokens of a source so far. -/
structure TokenList where
  toArray : Array Token
deriving DecidableEq, Repr

namespace TokenList

/-- No tokens. -/
def empty : TokenList := ⟨#[]⟩

/-- How many tokens there are. -/
def size (l : TokenList) : Nat := l.toArray.size

/-- The tokens as a list. -/
def toList (l : TokenList) : List Token := l.toArray.toList

/-- The token at a place. -/
def get? (l : TokenList) (i : Nat) : Option Token := l.toArray[i]?

/-- The last token. -/
def last? (l : TokenList) : Option Token := l.toArray.back?

/-- **`push`** — adds a token that has no partner yet; its place is the former size. -/
def push (l : TokenList) (kind : TokenKind) (span : Span) : TokenList :=
  ⟨l.toArray.push ⟨kind, span, none⟩⟩

/-- Names the partner of the token at a place. -/
def setPartner (l : TokenList) (i partner : Nat) : TokenList :=
  ⟨l.toArray.modify i fun t => { t with partner := some partner }⟩

/-- **`pair`** — makes two tokens partners of each other. -/
def pair (l : TokenList) (opener closer : Nat) : TokenList :=
  (l.setPartner opener closer).setPartner closer opener

/-- The place of the partner of the token at a place. -/
def partner? (l : TokenList) (i : Nat) : Option Nat := (l.get? i).bind (·.partner)

/-- Where the token at a place stands. -/
def span (l : TokenList) (i : Nat) : Span := (l.get? i).elim .nowhere (·.span)

@[simp] theorem size_push (l : TokenList) (kind : TokenKind) (span : Span) :
    (l.push kind span).size = l.size + 1 := by
  simp [size, push]

@[simp] theorem toList_push (l : TokenList) (kind : TokenKind) (span : Span) :
    (l.push kind span).toList = l.toList ++ [⟨kind, span, none⟩] := by
  simp [toList, push]

theorem getElem?_toList (l : TokenList) (i : Nat) : l.toList[i]? = l.get? i := by
  simp [toList, get?]

theorem length_toList (l : TokenList) : l.toList.length = l.size := by
  simp [toList, size]

/-- The token that is added stands at the former size. -/
theorem get?_push (l : TokenList) (kind : TokenKind) (span : Span) (i : Nat) :
    (l.push kind span).get? i = if i = l.size then some ⟨kind, span, none⟩ else l.get? i :=
  Array.getElem?_push

theorem lt_size_of_get? {l : TokenList} {i : Nat} {t : Token} (h : l.get? i = some t) :
    i < l.size := by
  obtain ⟨hlt, -⟩ := Array.getElem?_eq_some_iff.mp h
  exact hlt

/-- Naming a partner changes no other token. -/
theorem get?_setPartner (l : TokenList) (i partner j : Nat) :
    (l.setPartner i partner).get? j =
      if i = j then (l.get? j).map ({ · with partner := some partner }) else l.get? j := by
  simp only [get?, setPartner, Array.getElem?_modify]

end TokenList

end DewyFront
