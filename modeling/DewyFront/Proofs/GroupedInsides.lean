/-
# DewyFront.Proofs.GroupedInsides — what grouping makes of words it makes at every depth

The chains inside of an operand are grouped as the chain around it is: those of a flow expression or a
declaration from the words behind the keyword, those of a block or a hole from items of their own. So what
holds of every chain that is grouped from words of some kind holds of the chains inside as well, if the
words are of that kind at every level.

* §1 words;
* §2 derivations;
* §3 items.
-/
import DewyFront.Proofs.Derivations
import DewyFront.Proofs.Insides
import DewyFront.Proofs.Readiness

namespace DewyFront

namespace Chain

/-! ## §1 Words -/

/-- **`Provides`** — words that satisfy `r` are grouped to chains of which `q` holds, and satisfy it when
some of them are taken. -/
structure Provides (r : List Word → Prop) (q : Chain → Prop) : Prop where
  left : ∀ {words left : List Word}, left <:+ words → r words → r left
  chain : ∀ {c : Cursor} {chain : Chain} {c' : Cursor}, Groups c chain c' → r c.words → q chain

/-- `p` holds of every chain that is inside of a word already, and `h` of every hole. -/
def Word.Within (p : Chain → Prop) (h : Operand → Prop) : Word → Prop
  | operand content _ => ∀ o, content = .ok o → o.Within p h
  | _ => True

/-- `q` holds of every chain that is inside of a word already. -/
abbrev Word.Inside (q : Chain → Prop) (word : Word) : Prop := word.Within q fun _ => True

/-- **`Offers`** — words satisfy `r`, and `q` holds inside of each. -/
structure Offers (r : List Word → Prop) (q : Chain → Prop) (words : List Word) : Prop where
  kind : r words
  inside : ∀ word ∈ words, word.Inside q

variable {r : List Word → Prop} {q : Chain → Prop} {c c' : Cursor} {chains : List Chain}
  {words left : List Word}

theorem Offers.of_suffix (hq : Provides r q) (h : Offers r q words) (hleft : left <:+ words) :
    Offers r q left :=
  ⟨hq.left hleft h.kind, fun word hword => h.inside word (hleft.subset hword)⟩

theorem Offers.of_spends {written : (Op → List Sign) → List Sign} (hq : Provides r q)
    (h : Offers r q words) (hspends : Spends words left written) : Offers r q left := by
  obtain ⟨taken, heq, -⟩ := hspends
  exact h.of_suffix hq ⟨taken, heq.symm⟩

theorem Offers.of_cons {word : Word} (hq : Provides r q) (h : Offers r q words)
    (hwords : words = word :: left) : word.Inside q ∧ Offers r q left := by
  subst hwords
  exact ⟨h.inside word List.mem_cons_self, h.of_suffix hq (List.suffix_cons word left)⟩

theorem Offers.of_arm {k : Keyword} {arm : Arm} (hq : Provides r q) (h : Offers r q c.words)
    (harm : GroupsArm k c arm c') : Offers r q c'.words := by
  obtain ⟨condition, clause, -, hparts⟩ := harm.spends
  exact h.of_spends hq hparts

/-! ## §2 Derivations -/

theorem inside_takeSemicolon (c : Cursor) : Inside q (takeSemicolon c).1 := by
  unfold takeSemicolon
  split
  · rw [semicolonLinks]
    exact inside_operator_iff.mpr (inside_operand_iff.mpr ⟨Operand.within_atom _, inside_nil⟩)
  · exact inside_nil

mutual
/-- **What holds of every chain that is grouped holds inside of it.** -/
theorem Groups.filled (hq : Provides r q) : ∀ {c : Cursor} {chain : Chain} {c' : Cursor},
    Groups c chain c' → Offers r q c.words → chain.Filled q fun _ => True
  | _, _, _, .alone, hc =>
    ⟨hq.chain .alone hc.kind, inside_operand_iff.mpr ⟨Operand.within_atom _, inside_nil⟩⟩
  | _, _, _, .chunks hlone hfirst hmore, hc =>
    have hinside := inside_append (hfirst.inside hq hc)
      (hmore.inside hq (hc.of_spends hq hfirst.spends))
    ⟨hq.chain (.chunks hlone hfirst hmore) hc.kind, inside_append hinside (inside_takeSemicolon _)⟩
theorem GroupsMore.inside (hq : Provides r q) : ∀ {c : Cursor} {chain : Chain} {c' : Cursor},
    GroupsMore c chain c' → Offers r q c.words → Inside q chain
  | _, _, _, .stop _, _ => inside_nil
  | _, _, _, .more hwords _ _ hnext hmore, hc => by
    have hrest := (hc.of_cons hq hwords).2
    exact inside_append (inside_operator_iff.mpr (hnext.inside hq hrest))
      (hmore.inside hq (hrest.of_spends hq hnext.spends))
theorem GroupsChunk.inside (hq : Provides r q) : ∀ {c : Cursor} {chain : Chain} {c' : Cursor},
    GroupsChunk c chain c' → Offers r q c.words → Inside q chain
  | c, _, _, .around hwords hoperand, hc => by
    have hleft := hc.of_spends hq (Spends.operators Op.isBefore c.stop c.words)
    obtain ⟨hword, hrest⟩ := hleft.of_cons hq hwords
    exact inside_append (inside_operators _)
      (inside_operand_iff.mpr ⟨hoperand.inside hq hword hrest, inside_operators _⟩)
theorem GroupsOperand.inside (hq : Provides r q) : ∀ {word : Word} {c : Cursor} {content : Operand}
    {span : Span} {c' : Cursor}, GroupsOperand word c content span c' → word.Inside q →
    Offers r q c.words → InsideOperand q content
  | _, _, _, _, _, .content, hword, _ => hword _ rfl
  | _, _, _, _, _, .flow _ harm harms, _, hc => by
    refine Operand.within_of_chains rfl ?_
    rw [Operand.chains, List.flatMap_cons, List.append_assoc]
    exact List.forall_mem_append.mpr ⟨harm.everyChain hq hc, harms.everyChain hq (hc.of_arm hq harm)⟩
  | _, _, _, _, _, .declare _ _ htarget, _, hc =>
    Operand.within_of_chains rfl (List.forall_mem_singleton.mpr (htarget.filled hq hc))
  | _, _, _, _, _, .bare .., _, _ => Operand.within_of_chains rfl (List.forall_mem_nil _)
  | _, _, _, _, _, .keyword _ _ _ _ htarget, _, hc =>
    Operand.within_of_chains rfl (List.forall_mem_singleton.mpr (htarget.filled hq hc))
theorem GroupsArm.everyChain (hq : Provides r q) : ∀ {k : Keyword} {c : Cursor} {arm : Arm} {c' : Cursor},
    GroupsArm k c arm c' → Offers r q c.words → EveryChain q arm.chains
  | _, _, _, _, .parts _ hcondition _ hclause, hc =>
    List.forall_mem_cons.mpr ⟨hcondition.filled hq hc, List.forall_mem_singleton.mpr
      (hclause.filled hq (hc.of_spends hq hcondition.spends))⟩
theorem GroupsArms.everyChain (hq : Provides r q) : ∀ {c : Cursor} {arms : List Arm}
    {otherwise : Option Chain} {c' : Cursor}, GroupsArms c arms otherwise c' → Offers r q c.words →
    EveryChain q (arms.flatMap Arm.chains ++ otherwise.toList)
  | _, _, _, _, .stop _, _ => List.forall_mem_nil _
  | _, _, _, _, .arm hwords _ harm harms, hc => by
    have hrest := ((hc.of_cons hq hwords).2.of_cons hq rfl).2
    unfold EveryChain
    rw [List.flatMap_cons, List.append_assoc]
    exact List.forall_mem_append.mpr
      ⟨harm.everyChain hq hrest, harms.everyChain hq (hrest.of_arm hq harm)⟩
  | _, _, _, _, .otherwise hwords _ _ _ hchain, hc =>
    List.forall_mem_singleton.mpr (hchain.filled hq (hc.of_cons hq hwords).2)
end

theorem GroupsAll.everyChain (hq : Provides r q) (h : GroupsAll c chains) (hc : Offers r q c.words) :
    EveryChain q chains := by
  induction h with
  | nil => exact List.forall_mem_nil _
  | cons hchain hrest ih =>
    exact List.forall_mem_cons.mpr ⟨hchain.filled hq hc, ih (hc.of_spends hq hchain.spends)⟩

/-! ## §3 Items -/

/-- **`Grants`** — items that satisfy `r` are grouped to chains of which `p` holds at every depth, as `h`
does of their holes, if that is so inside of their words. -/
structure Grants (r : List Tree → Prop) (p : Chain → Prop) (h : Operand → Prop) : Prop where
  chains : ∀ {items : List Tree} {chains : List Chain}, r items →
    (∀ word ∈ wordsOf items, word.Within p h) → ofTrees items = .ok chains →
      ∀ chain ∈ chains, chain.Filled p h
  holes : ∀ {content : Operand}, content.Encloses → h content

theorem Provides.grants (hq : Provides r q) :
    Grants (fun items => r (wordsOf items)) q fun _ => True where
  chains hr hwords h := (groupsAll_of_ofWords .nowhere h).everyChain hq ⟨hr, hwords⟩
  holes _ := trivial

variable {s : List Tree → Prop} {p : Chain → Prop} {h : Operand → Prop}

theorem within_leafWord (l : Leaf) (span : Span) : (leafWord l span).Within p h := by
  cases l with
  | atom a =>
    cases a with
    | semicolon => trivial
    | _ =>
      intro o ho
      cases ho
      exact Operand.within_atom _
  | _ => trivial

mutual
/-- What is granted by items holds inside of the word of an item, if the items inside satisfy `s` at
every level. -/
theorem within_wordOf (hs : Grants s p h) : ∀ {item : Tree}, Tree.Inside s item → (wordOf item).Within p h
  | .leaf l span, _ => by
    rw [wordOf]
    exact within_leafWord l span
  | .block kind base inner span, hitem => by
    rw [Tree.Inside] at hitem
    rw [wordOf]
    intro o ho
    obtain ⟨chains, hchains, rfl⟩ := map_ok_iff.mp ho
    exact Operand.within_of_chains rfl (hs.chains hitem.1 (within_wordsOf hs hitem.2) hchains)
  | .istring pieces span, hitem => by
    rw [Tree.Inside] at hitem
    rw [wordOf]
    intro o ho
    obtain ⟨found, hfound, rfl⟩ := map_ok_iff.mp ho
    exact Operand.within_of_filled (List.forall_mem_nil _) (within_piecesOf hs span hitem hfound)
theorem within_wordsOf (hs : Grants s p h) : ∀ {items : List Tree}, Tree.InsideAll s items →
    ∀ word ∈ wordsOf items, word.Within p h
  | [], _ => by
    rw [wordsOf]
    exact List.forall_mem_nil _
  | item :: rest, hitems => by
    rw [Tree.InsideAll] at hitems
    rw [wordsOf]
    exact List.forall_mem_cons.mpr ⟨within_wordOf hs hitems.1, within_wordsOf hs hitems.2⟩
theorem within_piecesOf (hs : Grants s p h) (span : Span) : ∀ {pieces : List Tree.Piece}
    {found : List Piece}, Tree.InsidePieces s pieces → piecesOf span pieces = .ok found →
      ∀ content ∈ found.filterMap Piece.content?, h content ∧ content.Within p h
  | [], found, _, hfound => by
    rw [piecesOf] at hfound
    cases hfound
    exact List.forall_mem_nil _
  | .text t :: rest, found, hpieces, hfound => by
    rw [Tree.InsidePieces] at hpieces
    rw [piecesOf] at hfound
    obtain ⟨more, hmore, hfound⟩ := bind_ok_iff.mp hfound
    cases hfound
    exact fun content hcontent => within_piecesOf hs span hpieces hmore content hcontent
  | .block kind base inner :: rest, found, hpieces, hfound
  | .escape kind base inner :: rest, found, hpieces, hfound => by
    rw [Tree.InsidePieces] at hpieces
    rw [piecesOf] at hfound
    obtain ⟨chains, hchains, hfound⟩ := bind_ok_iff.mp hfound
    obtain ⟨more, hmore, hfound⟩ := bind_ok_iff.mp hfound
    cases hfound
    have hhole := hs.chains hpieces.1.1 (within_wordsOf hs hpieces.1.2) hchains
    exact List.forall_mem_cons.mpr
      ⟨⟨hs.holes fun _ heq => (nomatch heq), Operand.within_of_chains rfl hhole⟩,
        within_piecesOf hs span hpieces.2 hmore⟩
end

/-- **What items of a kind grant holds of their chains at every depth**, if the items are of that kind at
every level. -/
theorem filled_of_ofTrees {items : List Tree} (hs : Grants s p h) (hitems : Tree.EveryLevel s items)
    (hok : ofTrees items = .ok chains) : ∀ chain ∈ chains, chain.Filled p h :=
  hs.chains hitems.1 (within_wordsOf hs hitems.2) hok

end Chain

end DewyFront
