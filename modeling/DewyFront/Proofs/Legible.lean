/-
# DewyFront.Proofs.Legible — the labels of a tree are free of control characters

A label has a word for the kind of its node in front, so it begins with a letter. What an operator, a
keyword or a base puts into it is spelled with marks and letters, and a text is quoted. Only names, tags
and digits are taken out of the source as they are; the tokens they are cut out of take no control
characters, and no step from the tokens to the tree puts anything else into an atom.

* §1 spellings;
* §2 quoted texts;
* §3 atoms;
* §4 what lexemes become;
* §5 sources.
-/
import DewyFront.Expr.Outline
import DewyFront.Proofs.Admission
import DewyFront.Proofs.Atoms
import DewyFront.Proofs.Controls
import DewyFront.Proofs.Numerals

namespace DewyFront

variable {t : Text} {c : Char}

/-! ## §1 Spellings -/

theorem Symbol.clean_spelling (s : Symbol) : IsClean s.spelling.toList := by
  cases s <;> exact .of_all (by decide)

theorem Keyword.clean_spelling (k : Keyword) : IsClean k.spelling.toList := by
  cases k <;> exact .of_all (by decide)

theorem Radix.clean_lead (r : Radix) : IsClean r.lead := by
  cases r <;> exact .of_all (by decide)

theorem Delimiters.clean_text (d : Delimiters) : IsClean d.text.toList := by
  cases d <;> exact .of_all (by decide)

theorem Meanings.clean_label (m : Meanings) : IsClean m.label.toList := by
  obtain ⟨call, index, multiply⟩ := m
  cases call <;> cases index <;> cases multiply <;> exact .of_all (by decide)

theorem Bond.clean_label (b : Bond) : IsClean b.label.toList := by
  cases b <;> exact .of_all (by decide)

theorem IsClean.append_string {s t : String} (hs : IsClean s.toList) (ht : IsClean t.toList) :
    IsClean (s ++ t).toList := by
  rw [String.toList_append]
  exact hs.append ht

theorem IsClean.ofList (h : IsClean t) : IsClean (String.ofList t).toList := by
  rwa [String.toList_ofList]

mutual
/-- **An operator is spelled without control characters.** -/
theorem Op.clean_spelled : ∀ op : Op, IsClean op.spelled.toList
  | .symbol s => s.clean_spelling
  | .backtick side => show IsClean "`".toList from .of_all (by decide)
  | .juxtapose m => m.clean_label
  | .bond b => b.clean_label
  | .inverted s => IsClean.append_string (.of_all (by decide)) s.clean_spelling
  | .chain head tail => IsClean.append_string head.clean_spelling (Op.clean_spelledAll tail)
  | .broadcast inner => IsClean.append_string (.of_all (by decide)) (Op.clean_spelled inner)
  | .assign inner => IsClean.append_string (Op.clean_spelled inner) (.of_all (by decide))
theorem Op.clean_spelledAll : ∀ ops : List Op, IsClean (Op.spelledAll ops).toList
  | [] => .of_all (by decide)
  | op :: ops => IsClean.append_string (Op.clean_spelled op) (Op.clean_spelledAll ops)
end

/-! ## §2 Quoted texts -/

/-- What can be shown is no control character. -/
theorem Printable.isControl_of_isShown (h : isShown c = true) : Lexicon.isControl c = false := by
  unfold isShown at h
  split at h
  · next hascii => exact Lexicon.isControl_of_bounds (of_decide_eq_true h) (Nat.ne_of_lt hascii)
  · next hbeyond =>
    refine Lexicon.isControl_of_bounds (by omega) fun hdelete => ?_
    rw [hdelete] at h
    exact absurd h (by decide +kernel)

theorem Lexicon.isControl_digitChar {n : Nat} (h : n < 16) : isControl n.digitChar = false := by
  revert n
  decide

/-- In lower case a character is one as little as before. -/
theorem Lexicon.isControl_toLower (h : isControl c = false) : isControl c.toLower = false := by
  unfold Char.toLower
  split
  · next hupper =>
    have hlow : 65 ≤ c.toNat := UInt32.le_iff_toNat_le.mp hupper.1
    have hhigh : c.toNat ≤ 90 := UInt32.le_iff_toNat_le.mp hupper.2
    have hsum : (c.val + 32).toNat = c.toNat + 32 := by
      rw [UInt32.toNat_add]
      show (c.toNat + 32) % _ = _
      omega
    apply isControl_of_bounds
    · show 32 ≤ (c.val + 32).toNat
      omega
    · show (c.val + 32).toNat ≠ 127
      omega
  · exact h

theorem Quoted.clean_hexDigits (n : Nat) : IsClean (hexDigits n) := by
  unfold hexDigits
  induction n using Nat.strong_induction_on with
  | _ n ih =>
    rw [Nat.toDigits_eq_if (by decide)]
    split
    · next hlt => exact IsClean.cons (Lexicon.isControl_digitChar hlt) .nil
    · have hlast : n % 16 < 16 := Nat.mod_lt n (by decide)
      exact (ih (n / 16) (by omega)).append (IsClean.cons (Lexicon.isControl_digitChar hlast) .nil)

theorem Quoted.clean_character (c : Char) : IsClean (character c) := by
  unfold character
  -- Six characters have a letter or themselves behind the backslash.
  iterate 6 (split; · exact .of_all (by decide))
  split
  · next hshown => exact IsClean.cons (Printable.isControl_of_isShown hshown) .nil
  · exact ((IsClean.of_all (by decide)).append (clean_hexDigits _)).append (.of_all (by decide))

/-- **A text in quotes has no control characters**, whatever the text has. -/
theorem Quoted.clean_quote (t : Text) : IsClean (quote t).toList := by
  have hbody : IsClean (body t) := by
    intro d hd
    obtain ⟨c, -, hc⟩ := List.mem_flatMap.mp hd
    exact clean_character c d hc
  exact (IsClean.cons (by decide) (hbody.append (.of_all (by decide)))).ofList

/-! ## §3 Atoms -/

/-- A text between two others. -/
theorem IsClean.between {lead inner close : String} (hlead : IsClean lead.toList)
    (hclose : IsClean close.toList) (h : IsClean inner.toList) :
    IsClean (lead ++ inner ++ close).toList :=
  (hlead.append_string h).append_string hclose

theorem IntegerLit.clean_text {i : IntegerLit} (h : IsClean i.digits) : IsClean i.text := by
  unfold text
  split
  · exact h
  · exact i.base.clean_lead.append h

theorem RealLit.clean_text {r : RealLit} (hwhole : IsClean r.whole.digits)
    (hfraction : ∀ digits ∈ r.fraction, IsClean digits)
    (hexponent : ∀ e ∈ r.exponent, Lexicon.isControl e.marker = false ∧ IsClean e.power.digits) :
    IsClean r.text := by
  obtain ⟨whole, fraction, exponent⟩ := r
  refine ((IntegerLit.clean_text hwhole).append ?_).append ?_
  · cases fraction with
    | none => exact .nil
    | some digits => exact IsClean.cons (by decide) (hfraction digits rfl)
  · cases exponent with
    | none => exact .nil
    | some e => exact IsClean.cons (hexponent e rfl).1 (IntegerLit.clean_text (hexponent e rfl).2)

namespace Atom

/-- **`IsLegible`** — the label of an atom has no control characters. -/
def IsLegible (a : Atom) : Prop := IsClean a.label.toList

theorem legible_identifier (h : IsClean t) : (identifier t).IsLegible :=
  IsClean.between (.of_all (by decide)) (.of_all (by decide)) h.ofList

theorem legible_hashtag (h : IsClean t) : (hashtag t).IsLegible :=
  IsClean.between (.of_all (by decide)) (.of_all (by decide)) h.ofList

theorem legible_integer {i : IntegerLit} (h : IsClean i.digits) : (integer i).IsLegible :=
  IsClean.between (.of_all (by decide)) (.of_all (by decide)) (IntegerLit.clean_text h).ofList

theorem legible_real {r : RealLit} (h : IsClean r.text) : (real r).IsLegible :=
  IsClean.between (.of_all (by decide)) (.of_all (by decide)) h.ofList

theorem legible_string (t : Text) : (string t).IsLegible :=
  IsClean.between (.of_all (by decide)) (.of_all (by decide)) (Quoted.clean_quote t)

theorem legible_basedString (base : Radix) (h : IsClean t) : (basedString base t).IsLegible :=
  IsClean.between (.of_all (by decide)) (.of_all (by decide))
    (base.clean_lead.append (IsClean.cons (by decide) h)).ofList

theorem legible_operator (op : Op) : (operator op).IsLegible :=
  IsClean.between (.of_all (by decide)) (.of_all (by decide)) op.clean_spelled

theorem legible_undefined : undefined.IsLegible := legible_identifier (.of_all (by decide))

end Atom

/-! ## §4 Lexemes -/

/-- **`Lexeme.IsConfined`** — a lexeme that is neither free nor layout has no control characters. -/
def Lexeme.IsConfined (l : Lexeme) : Prop := l.kind.isFree = false → l.kind ≠ .blank → IsClean l.text

namespace Tree

variable {l : Lexeme} {ls rest : List Lexeme} {base : Radix} {previous : Option Lexeme}
  {item : Tree} {items : List Tree}

theorem holds_leaf_atom {a : Atom} (h : a.IsLegible) (span : Span) :
    ∀ sign ∈ signs (.leaf (.atom a) span), sign.Holds Atom.IsLegible := by
  rw [signs]
  cases a with
  | operator op => exact fun sign hsign => Op.holds_of_mem hsign
  | _ => exact List.forall_mem_singleton.mpr h

theorem holds_ofWord (h : IsClean l.text) : ∀ sign ∈ (ofWord l).signs, sign.Holds Atom.IsLegible := by
  unfold ofWord
  split
  · exact fun sign hsign => Op.holds_of_mem hsign
  · exact List.forall_mem_singleton.mpr trivial
  · exact holds_leaf_atom (Atom.legible_identifier h) _

theorem holds_ofMarks (h : ofMarks l = .ok item) : ∀ sign ∈ item.signs, sign.Holds Atom.IsLegible := by
  unfold ofMarks at h
  split at h
  case h_2 => cases h
  case h_1 found hfound =>
    cases h
    unfold markLeaf? at hfound
    split at hfound
    · cases hfound
      exact holds_leaf_atom (.of_all (by decide)) _
    split at hfound
    · cases hfound
      exact holds_leaf_atom (.of_all (by decide)) _
    split at hfound
    · cases hfound
      exact List.forall_mem_singleton.mpr trivial
    split at hfound
    · cases hfound
      exact holds_leaf_atom (.of_all (by decide)) _
    split at hfound
    · next htext =>
      cases hfound
      refine holds_leaf_atom (Atom.legible_identifier ?_) _
      rcases htext with htext | htext <;> rw [htext] <;> exact .of_all (by decide)
    · obtain ⟨s, -, rfl⟩ := Option.map_eq_some_iff.mp hfound
      exact fun sign hsign => Op.holds_of_mem hsign

theorem clean_withoutSeparators (h : IsClean t) : IsClean (withoutSeparators t) :=
  h.of_sublist List.filter_sublist

theorem clean_integerLit (base : Radix) (h : IsClean t) : IsClean (integerLit base t).digits := by
  unfold integerLit
  split
  · exact clean_withoutSeparators (h.of_sublist (List.drop_sublist 2 t))
  · exact clean_withoutSeparators h

theorem clean_fraction? {digits : Text} {span : Span} {back : List Lexeme}
    (hrest : ∀ x ∈ rest, x.IsConfined) (h : fraction? previous l rest = some (digits, span, back)) :
    IsClean digits := by
  obtain ⟨dot, x, rfl, -, hkind, rfl⟩ := eq_of_fraction? h
  have hx : x.IsConfined := hrest x (List.mem_cons_of_mem _ List.mem_cons_self)
  exact clean_withoutSeparators (hx (by rw [hkind]; rfl) (by rw [hkind]; decide))

theorem clean_exponent? {e : Exponent} {span : Span} {back : List Lexeme}
    (hrest : ∀ x ∈ rest, x.IsConfined) (h : exponent? base rest = some (e, span, back)) :
    Lexicon.isControl e.marker = false ∧ IsClean e.power.digits := by
  unfold exponent? at h
  split at h
  case h_2 => cases h
  case h_1 x more =>
    split at h
    · next hkind =>
      cases h
      have hkind : x.kind = .exponent := eq_of_beq hkind
      have hx : IsClean x.text :=
        hrest x List.mem_cons_self (by rw [hkind]; rfl) (by rw [hkind]; decide)
      refine ⟨Lexicon.isControl_toLower ?_, clean_integerLit base (hx.of_sublist (List.drop_sublist 1 _))⟩
      cases htext : x.text with
      | nil => decide
      | cons c t => exact hx c (htext ▸ List.mem_cons_self)
    · cases h

/-- **A number is legible.** -/
theorem holds_number (base : Radix) (previous : Option Lexeme) (hl : IsClean l.text)
    (hrest : ∀ x ∈ rest, x.IsConfined) :
    ∀ sign ∈ (number base previous l rest).1.signs, sign.Holds Atom.IsLegible := by
  have hwhole := clean_integerLit base hl
  have hreal : ∀ {fraction exponent}, (∀ digits ∈ fraction, IsClean digits) →
      (∀ e ∈ exponent, Lexicon.isControl e.marker = false ∧ IsClean e.power.digits) →
      (Atom.real ⟨integerLit base l.text, fraction, exponent⟩).IsLegible := fun hfraction hexponent =>
    Atom.legible_real (RealLit.clean_text hwhole hfraction hexponent)
  unfold number
  cases hfraction : fraction? previous l rest with
  | none =>
    dsimp only
    cases hexponent : exponent? base rest with
    | none => exact holds_leaf_atom (Atom.legible_integer hwhole) _
    | some found =>
      obtain ⟨e, span, back⟩ := found
      refine holds_leaf_atom (hreal (fun _ h => by cases h) ?_) _
      rintro e ⟨⟩
      exact clean_exponent? hrest hexponent
  | some found =>
    obtain ⟨digits, span, middle⟩ := found
    have hdigits := clean_fraction? hrest hfraction
    have hmiddle : ∀ x ∈ middle, x.IsConfined := fun x hx =>
      hrest x ((fraction?_sublist hfraction).subset hx)
    dsimp only
    cases hexponent : exponent? base middle with
    | none =>
      refine holds_leaf_atom (hreal ?_ fun _ h => by cases h) _
      rintro _ ⟨⟩
      exact hdigits
    | some found =>
      obtain ⟨e, span, back⟩ := found
      refine holds_leaf_atom (hreal ?_ ?_) _
      · rintro _ ⟨⟩
        exact hdigits
      · rintro _ ⟨⟩
        exact clean_exponent? hmiddle hexponent

theorem holds_ofBasedString {e : Enclosed} (hinner : ∀ x ∈ e.inner, x.IsConfined) :
    ∀ sign ∈ (ofBasedString l e).signs, sign.Holds Atom.IsLegible := by
  refine holds_leaf_atom (Atom.legible_basedString _ (clean_withoutSeparators fun c hc => ?_)) _
  obtain ⟨x, hx, hc⟩ := List.mem_flatMap.mp hc
  obtain ⟨hx, hkind⟩ := List.mem_filter.mp hx
  have hkind : x.kind = .basedStringText := eq_of_beq hkind
  exact hinner x hx (by rw [hkind]; rfl) (by rw [hkind]; decide) c hc

theorem pieceSigns_append (front back : List Piece) :
    pieceSigns (front ++ back) = pieceSigns front ++ pieceSigns back := by
  induction front with
  | nil => rfl
  | cons piece front ih => cases piece <;> simp [pieceSigns, ih]

theorem holds_textPiece (t : Text) : ∀ sign ∈ pieceSigns (textPiece t), sign.Holds Atom.IsLegible := by
  unfold textPiece
  split
  · exact List.forall_mem_nil _
  · exact List.forall_mem_singleton.mpr trivial

/-- Putting texts together keeps the holes. -/
theorem holds_joinTexts {pieces : List Piece} (h : ∀ sign ∈ pieceSigns pieces, sign.Holds Atom.IsLegible) :
    ∀ sign ∈ pieceSigns (joinTexts pieces).2, sign.Holds Atom.IsLegible := by
  induction pieces with
  | nil => exact h
  | cons piece pieces ih =>
    cases piece with
    | text t =>
      rw [pieceSigns] at h
      exact ih (List.forall_mem_cons.mp h).2
    | block kind base inner | escape kind base inner =>
      rw [pieceSigns] at h
      obtain ⟨hopener, h⟩ := List.forall_mem_cons.mp h
      obtain ⟨hinner, h⟩ := List.forall_mem_append.mp h
      obtain ⟨hcloser, hrest⟩ := List.forall_mem_cons.mp h
      rw [joinTexts_hole (fun _ h => by cases h), List.cons_append, pieceSigns, pieceSigns_append]
      exact List.forall_mem_cons.mpr ⟨hopener, List.forall_mem_append.mpr ⟨hinner,
        List.forall_mem_cons.mpr ⟨hcloser, List.forall_mem_append.mpr ⟨holds_textPiece _, ih hrest⟩⟩⟩⟩

/-- **A string is legible**, whatever its text is. -/
theorem holds_ofPieces {pieces : List Piece} (h : ∀ sign ∈ pieceSigns pieces, sign.Holds Atom.IsLegible)
    (span : Span) : ∀ sign ∈ (ofPieces pieces span).signs, sign.Holds Atom.IsLegible := by
  unfold ofPieces
  split
  · exact holds_leaf_atom (Atom.legible_string _) _
  · next lead holes _ heq =>
    have hholes := holds_joinTexts h
    rw [heq] at hholes
    rw [signs, pieceSigns_append]
    exact List.forall_mem_cons.mpr ⟨trivial, List.forall_mem_append.mpr
      ⟨List.forall_mem_append.mpr ⟨holds_textPiece lead, hholes⟩, List.forall_mem_singleton.mpr trivial⟩⟩

/-- **`LexesLegibly`** — at most so many lexemes become legible items. -/
def LexesLegibly (n : Nat) : Prop :=
  (∀ {ls : List Lexeme} {base : Radix} {previous : Option Lexeme} {items : List Tree}, ls.length ≤ n →
    (∀ l ∈ ls, l.IsConfined) → ofLexemes base previous ls = .ok items →
      ∀ sign ∈ signsAll items, sign.Holds Atom.IsLegible) ∧
  ∀ {ls : List Lexeme} {pieces : List Piece}, ls.length ≤ n → (∀ l ∈ ls, l.IsConfined) →
    piecesOf ls = .ok pieces → ∀ sign ∈ pieceSigns pieces, sign.Holds Atom.IsLegible

theorem holds_cons {more : List Tree} (hitem : ∀ sign ∈ item.signs, sign.Holds Atom.IsLegible)
    (hmore : ∀ sign ∈ signsAll more, sign.Holds Atom.IsLegible) :
    ∀ sign ∈ signsAll (item :: more), sign.Holds Atom.IsLegible := by
  rw [signsAll]
  exact List.forall_mem_append.mpr ⟨hitem, hmore⟩

theorem holds_ofLexemes_cons {n : Nat} (ih : LexesLegibly n) (hlen : ls.length ≤ n)
    (hconfined : ∀ x ∈ l :: ls, x.IsConfined) (h : ofLexemes base previous (l :: ls) = .ok items) :
    ∀ sign ∈ signsAll items, sign.Holds Atom.IsLegible := by
  obtain ⟨hl, hrest⟩ := List.forall_mem_cons.mp hconfined
  have hitems : ∀ {base previous ls' more}, ls'.Sublist ls → ofLexemes base previous ls' = .ok more →
      ∀ sign ∈ signsAll more, sign.Holds Atom.IsLegible := fun hs h =>
    ih.1 (hs.length_le.trans hlen) (fun x hx => hrest x (hs.subset hx)) h
  have hpieces : ∀ {ls' pieces}, ls'.Sublist ls → piecesOf ls' = .ok pieces →
      ∀ sign ∈ pieceSigns pieces, sign.Holds Atom.IsLegible := fun hs h =>
    ih.2 (hs.length_le.trans hlen) (fun x hx => hrest x (hs.subset hx)) h
  have hclean : ∀ {kind}, l.kind = kind → kind.isFree = false → kind ≠ .blank → IsClean l.text := by
    rintro _ rfl
    exact hl
  -- One case for each kind of lexeme, in the order of the definition.
  unfold ofLexemes at h
  split at h
  case h_1 | h_2 | h_3 =>
    obtain ⟨more, hmore, h⟩ := bind_ok_iff.mp h
    cases h
    exact holds_cons (List.forall_mem_nil _) (hitems (.refl ls) hmore)
  case h_4 hkind =>
    obtain ⟨more, hmore, h⟩ := bind_ok_iff.mp h
    cases h
    exact holds_cons (holds_ofWord (hclean hkind rfl (by decide))) (hitems (.refl ls) hmore)
  case h_5 | h_6 =>
    obtain ⟨item, hitem, h⟩ := bind_ok_iff.mp h
    obtain ⟨more, hmore, h⟩ := bind_ok_iff.mp h
    cases h
    exact holds_cons (holds_ofMarks hitem) (hitems (.refl ls) hmore)
  case h_7 hkind =>
    obtain ⟨more, hmore, h⟩ := bind_ok_iff.mp h
    cases h
    have htext := hclean hkind rfl (by decide)
    exact holds_cons (holds_leaf_atom (Atom.legible_hashtag (htext.of_sublist (List.drop_sublist 1 _))) _)
      (hitems (.refl ls) hmore)
  case h_8 hkind =>
    obtain ⟨more, hmore, h⟩ := bind_ok_iff.mp h
    cases h
    exact holds_cons (holds_number base previous (hclean hkind rfl (by decide)) hrest)
      (hitems (number_sublist ..) hmore)
  -- Blocks hold items and strings hold pieces, and both are made of fewer lexemes.
  case h_9 | h_10 | h_11 | h_12 | h_13 =>
    split at h
    · cases h
    · next e he =>
      obtain ⟨hinner, hafter⟩ := Lexeme.enclosed?_sublists he
      obtain ⟨kind, -, h⟩ := bind_ok_iff.mp h
      obtain ⟨inner, hok, h⟩ := bind_ok_iff.mp h
      obtain ⟨more, hmore, h⟩ := bind_ok_iff.mp h
      cases h
      refine holds_cons ?_ (hitems hafter hmore)
      rw [signs]
      exact List.forall_mem_cons.mpr ⟨trivial, List.forall_mem_append.mpr
        ⟨hitems hinner hok, List.forall_mem_singleton.mpr trivial⟩⟩
  case h_14 | h_15 | h_16 | h_17 | h_18 | h_19 =>
    obtain ⟨hinner, hafter⟩ := stringBody_sublists l ls
    obtain ⟨pieces, hok, h⟩ := bind_ok_iff.mp h
    obtain ⟨more, hmore, h⟩ := bind_ok_iff.mp h
    cases h
    exact holds_cons (holds_ofPieces (hpieces hinner hok) _) (hitems hafter hmore)
  case h_20 =>
    split at h
    · cases h
    · next e he =>
      obtain ⟨hinner, hafter⟩ := Lexeme.enclosed?_sublists he
      obtain ⟨more, hmore, h⟩ := bind_ok_iff.mp h
      cases h
      exact holds_cons (holds_ofBasedString fun x hx => hrest x (hinner.subset hx)) (hitems hafter hmore)
  case h_21 => cases h

theorem holds_piecesOf_cons {n : Nat} {pieces : List Piece} (ih : LexesLegibly n) (hlen : ls.length ≤ n)
    (hconfined : ∀ x ∈ l :: ls, x.IsConfined) (h : piecesOf (l :: ls) = .ok pieces) :
    ∀ sign ∈ pieceSigns pieces, sign.Holds Atom.IsLegible := by
  obtain ⟨-, hrest⟩ := List.forall_mem_cons.mp hconfined
  have hpieces : ∀ {ls' more}, ls'.Sublist ls → piecesOf ls' = .ok more →
      ∀ sign ∈ pieceSigns more, sign.Holds Atom.IsLegible := fun hs h =>
    ih.2 (hs.length_le.trans hlen) (fun x hx => hrest x (hs.subset hx)) h
  unfold piecesOf at h
  split at h
  case h_1 | h_2 =>
    obtain ⟨more, hmore, h⟩ := bind_ok_iff.mp h
    cases h
    rw [pieceSigns]
    exact List.forall_mem_cons.mpr ⟨trivial, hpieces (.refl ls) hmore⟩
  case h_3 =>
    obtain ⟨t, -, h⟩ := bind_ok_iff.mp h
    obtain ⟨more, hmore, h⟩ := bind_ok_iff.mp h
    cases h
    rw [pieceSigns]
    exact List.forall_mem_cons.mpr ⟨trivial, hpieces (.refl ls) hmore⟩
  case h_4 | h_5 =>
    split at h
    · cases h
    · next e he =>
      obtain ⟨hinner, hafter⟩ := Lexeme.enclosed?_sublists he
      obtain ⟨kind, -, h⟩ := bind_ok_iff.mp h
      obtain ⟨inner, hok, h⟩ := bind_ok_iff.mp h
      obtain ⟨more, hmore, h⟩ := bind_ok_iff.mp h
      cases h
      have hall := ih.1 (hinner.length_le.trans hlen) (fun x hx => hrest x (hinner.subset hx)) hok
      have hbehind := hpieces hafter hmore
      by_cases hk : l.kind = .holeEscape
      · rw [if_pos hk, pieceSigns]
        exact List.forall_mem_cons.mpr ⟨trivial, List.forall_mem_append.mpr
          ⟨hall, List.forall_mem_cons.mpr ⟨trivial, hbehind⟩⟩⟩
      · rw [if_neg hk, pieceSigns]
        exact List.forall_mem_cons.mpr ⟨trivial, List.forall_mem_append.mpr
          ⟨hall, List.forall_mem_cons.mpr ⟨trivial, hbehind⟩⟩⟩
  case h_6 => cases h

/-- **Lexemes that keep control characters to strings and comments become legible items.** -/
theorem lexesLegibly (n : Nat) : LexesLegibly n := by
  have hnoItems {base : Radix} {previous : Option Lexeme} {items : List Tree}
      (h : ofLexemes base previous [] = .ok items) : ∀ sign ∈ signsAll items, sign.Holds Atom.IsLegible := by
    rw [ofLexemes] at h
    cases h
    exact List.forall_mem_nil _
  have hnoPieces {pieces : List Piece} (h : piecesOf [] = .ok pieces) :
      ∀ sign ∈ pieceSigns pieces, sign.Holds Atom.IsLegible := by
    rw [piecesOf] at h
    cases h
    exact List.forall_mem_nil _
  induction n with
  | zero =>
    refine ⟨fun {ls} _ _ _ hlen _ h => ?_, fun {ls} _ hlen _ h => ?_⟩
    · obtain rfl : ls = [] := List.length_eq_zero_iff.mp (Nat.le_zero.mp hlen)
      exact hnoItems h
    · obtain rfl : ls = [] := List.length_eq_zero_iff.mp (Nat.le_zero.mp hlen)
      exact hnoPieces h
  | succ n ih =>
    refine ⟨fun {ls} _ _ _ hlen hconfined h => ?_, fun {ls} _ hlen hconfined h => ?_⟩
    · cases ls with
      | nil => exact hnoItems h
      | cons l ls => exact holds_ofLexemes_cons ih (Nat.le_of_succ_le_succ hlen) hconfined h
    · cases ls with
      | nil => exact hnoPieces h
      | cons l ls => exact holds_piecesOf_cons ih (Nat.le_of_succ_le_succ hlen) hconfined h

end Tree

/-! ## §5 Sources -/

/-- The lexemes of a source keep control characters to strings, comments and layout. -/
theorem Scan.confined_of_tokenize {config : LexerConfig} {source : Text} {out : Tokenized}
    (h : tokenize config source = .ok out) : ∀ l ∈ out.tokens.lexemes source, l.IsConfined := by
  obtain ⟨last, hreaches, hfinish⟩ := exists_reaches_of_tokenize h
  obtain ⟨-, -, htokens⟩ := errors_eq_nil_of_finish hfinish
  intro l hl hfree hblank
  obtain ⟨⟨token, i⟩, hmem, rfl⟩ := List.mem_map.mp hl
  have hpiece : token.piece ∈ last.tokens.pieces :=
    List.mem_map_of_mem (htokens ▸ List.fst_mem_of_mem_zipIdx hmem)
  exact hreaches.confined.tokens token.piece hpiece hfree hblank

/-- **The atoms of a source are legible.** -/
theorem Lexed.holds_isLegible {lexer : LexerConfig} {s : Source} {l : Lexed} (h : s.lex lexer = .ok l) :
    ∀ sign ∈ Tree.signsAll l.trees, sign.Holds Atom.IsLegible := by
  obtain ⟨-, out, trees, hout, htrees, rfl⟩ := Source.lex_ok_iff.mp h
  exact (Tree.lexesLegibly _).1 le_rfl (Scan.confined_of_tokenize hout) htrees

/-- **So are those of its expressions**, at any depth. -/
theorem Source.legible_of_parse {config : ParseConfig} {s : Source} {parsed : Parsed}
    (h : s.parse config = .ok parsed) :
    ∀ e ∈ parsed.items, e.Throughout (Expr.Holds Atom.IsLegible) :=
  Source.throughout_of_parse h Atom.legible_operator Atom.legible_undefined fun _ hl =>
    Lexed.holds_isLegible hl

end DewyFront
