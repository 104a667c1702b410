/-
# DewyFront.Proofs.Moves — the same text somewhere else

A map of offsets moves whatever carries spans: items, chains, expressions and the causes of refusals. A
map that keeps the order of offsets keeps which spans touch and what covers two of them. It loses
nothing, so what was different stays different.

* §1 spans and operators;
* §2 items;
* §3 chains;
* §4 expressions;
* §5 refusals and outcomes.
-/
import DewyFront.Chain
import DewyFront.Expr
import DewyFront.Proofs.Outcomes
import DewyFront.ParseError
import DewyFront.Tree
import Mathlib.Order.MinMax

namespace DewyFront

variable {f g : Nat → Nat}

/-! ## §1 Spans -/

namespace Span

/-- **`move`** — a span with both ends moved. -/
def move (f : Nat → Nat) (s : Span) : Span := ⟨f s.start, f s.stop⟩

@[simp] theorem start_move (f : Nat → Nat) (s : Span) : (s.move f).start = f s.start := rfl

@[simp] theorem stop_move (f : Nat → Nat) (s : Span) : (s.move f).stop = f s.stop := rfl

@[simp] theorem move_point (f : Nat → Nat) (offset : Nat) : (point offset).move f = point (f offset) := rfl

@[simp] theorem move_endPoint (f : Nat → Nat) (s : Span) : s.endPoint.move f = (s.move f).endPoint := rfl

theorem move_merge (hf : StrictMono f) (s t : Span) :
    (s.merge t).move f = (s.move f).merge (t.move f) := by
  rw [merge, merge, move, hf.monotone.map_min, hf.monotone.map_max]
  rfl

theorem move_mergeAll (hf : StrictMono f) (s : Span) (ts : List Span) :
    (s.mergeAll ts).move f = (s.move f).mergeAll (ts.map (move f)) := by
  induction ts generalizing s with
  | nil => rfl
  | cons t ts ih =>
    rw [mergeAll, List.foldl_cons, ← mergeAll, ih, move_merge hf]
    rfl

/-- Spans touch wherever they are moved to. -/
theorem touches_move (hf : StrictMono f) (s t : Span) : (s.move f).touches (t.move f) = s.touches t := by
  rw [touches, touches, Bool.eq_iff_iff, beq_iff_eq, beq_iff_eq]
  exact hf.injective.eq_iff

theorem move_of_leftInverse (h : Function.LeftInverse g f) (s : Span) : (s.move f).move g = s := by
  rw [move, move, h, h]

end Span

/-- An operator somewhere else. -/
def Operator.move (f : Nat → Nat) (o : Operator) : Operator := ⟨o.op, o.span.move f⟩

@[simp] theorem Operator.op_move (f : Nat → Nat) (o : Operator) : (o.move f).op = o.op := rfl

@[simp] theorem Operator.span_move (f : Nat → Nat) (o : Operator) :
    (o.move f).span = o.span.move f := rfl

theorem Operator.move_of_leftInverse (h : Function.LeftInverse g f) (o : Operator) :
    (o.move f).move g = o := by
  rw [move, move, Span.move_of_leftInverse h]

/-! ## §2 Items -/

namespace Tree

mutual
/-- **`move`** — an item somewhere else, with all that is inside. -/
def move (f : Nat → Nat) : Tree → Tree
  | .leaf l span => .leaf l (span.move f)
  | .block kind base inner span => .block kind base (moveAll f inner) (span.move f)
  | .istring pieces span => .istring (movePieces f pieces) (span.move f)
/-- Items somewhere else. -/
def moveAll (f : Nat → Nat) : List Tree → List Tree
  | [] => []
  | item :: rest => move f item :: moveAll f rest
/-- The pieces of a string somewhere else. -/
def movePieces (f : Nat → Nat) : List Piece → List Piece
  | [] => []
  | .text t :: rest => .text t :: movePieces f rest
  | .block kind base inner :: rest => .block kind base (moveAll f inner) :: movePieces f rest
  | .escape kind base inner :: rest => .escape kind base (moveAll f inner) :: movePieces f rest
end

attribute [local simp] move moveAll movePieces

theorem moveAll_eq_map (f : Nat → Nat) (items : List Tree) : moveAll f items = items.map (move f) := by
  induction items with
  | nil => rw [moveAll, List.map_nil]
  | cons item rest ih => rw [moveAll, List.map_cons, ih]

@[simp] theorem span_move (f : Nat → Nat) (item : Tree) : (item.move f).span = item.span.move f := by
  cases item <;> simp [span]

/-! What an item is does not depend on where it stands. -/

@[simp] theorem atom?_move (f : Nat → Nat) (item : Tree) : (item.move f).atom? = item.atom? := by
  cases item with
  | leaf l span => rw [move]; cases l <;> rfl
  | _ => simp [atom?]

@[simp] theorem operator?_move (f : Nat → Nat) (item : Tree) :
    (item.move f).operator? = item.operator? := by
  cases item with
  | leaf l span => rw [move]; cases l <;> rfl
  | _ => simp [operator?]

@[simp] theorem symbol?_move (f : Nat → Nat) (item : Tree) : (item.move f).symbol? = item.symbol? := by
  cases item with
  | leaf l span =>
    rw [move]
    cases l with
    | operator op => cases op <;> rfl
    | _ => rfl
  | _ => simp [symbol?]

@[simp] theorem keyword?_move (f : Nat → Nat) (item : Tree) :
    (item.move f).keyword? = item.keyword? := by
  cases item with
  | leaf l span => rw [move]; cases l <;> rfl
  | _ => simp [keyword?]

@[simp] theorem marker?_move (f : Nat → Nat) (item : Tree) : (item.move f).marker? = item.marker? := by
  cases item with
  | leaf l span => rw [move]; cases l <;> rfl
  | _ => simp [marker?]

@[simp] theorem isTrivia_move (f : Nat → Nat) (item : Tree) : (item.move f).isTrivia = item.isTrivia := by
  cases item with
  | leaf l span => rw [move]; cases l <;> rfl
  | _ => simp [isTrivia]

@[simp] theorem isBacktick_move (f : Nat → Nat) (item : Tree) :
    (item.move f).isBacktick = item.isBacktick := by
  cases item with
  | leaf l span => rw [move]; cases l <;> rfl
  | _ => simp [isBacktick]

@[simp] theorem isAngle_move (f : Nat → Nat) (item : Tree) : (item.move f).isAngle = item.isAngle := by
  cases item with
  | block kind base inner span => rw [move]; cases kind <;> rfl
  | _ => simp [isAngle]

@[simp] theorem isJuxtaposable_move (f : Nat → Nat) (item : Tree) :
    (item.move f).isJuxtaposable = item.isJuxtaposable := by
  cases item with
  | leaf l span =>
    rw [move]
    cases l with
    | atom a => cases a <;> rfl
    | _ => rfl
  | _ => simp [isJuxtaposable]

end Tree

/-! ## §3 Chains -/

namespace Chain

mutual
/-- **`move`** — the links of a chain somewhere else, with all that is inside. -/
def move (f : Nat → Nat) : List Link → List Link
  | [] => []
  | .operator o :: rest => .operator (o.move f) :: move f rest
  | .operand content span :: rest => .operand (moveOperand f content) (span.move f) :: move f rest
/-- An operand somewhere else. -/
def moveOperand (f : Nat → Nat) : Operand → Operand
  | .atom a => .atom a
  | .block kind base inner => .block kind base (moveAll f inner)
  | .escape inner => .escape (moveAll f inner)
  | .istring pieces => .istring (movePieces f pieces)
  | .flow arms none => .flow (moveArms f arms) none
  | .flow arms (some otherwise) => .flow (moveArms f arms) (some (move f otherwise))
  | .declare k target => .declare k (move f target)
  | .keyword k none => .keyword k none
  | .keyword k (some operand) => .keyword k (some (move f operand))
/-- Chains somewhere else. -/
def moveAll (f : Nat → Nat) : List (List Link) → List (List Link)
  | [] => []
  | chain :: chains => move f chain :: moveAll f chains
/-- The pieces of a string somewhere else. -/
def movePieces (f : Nat → Nat) : List Piece → List Piece
  | [] => []
  | .text t :: rest => .text t :: movePieces f rest
  | .hole content span :: rest => .hole (moveOperand f content) (span.move f) :: movePieces f rest
/-- Arms somewhere else. -/
def moveArms (f : Nat → Nat) : List Arm → List Arm
  | [] => []
  | .mk k condition clause :: rest => .mk k (move f condition) (move f clause) :: moveArms f rest
end

attribute [local simp] move moveOperand moveAll movePieces moveArms

/-- An arm somewhere else. -/
def Arm.move (f : Nat → Nat) : Arm → Arm
  | mk k condition clause => mk k (Chain.move f condition) (Chain.move f clause)

theorem moveArms_cons (f : Nat → Nat) (arm : Arm) (arms : List Arm) :
    moveArms f (arm :: arms) = arm.move f :: moveArms f arms := by
  cases arm
  rw [moveArms, Arm.move]

/-- A link somewhere else. -/
def Link.move (f : Nat → Nat) : Link → Link
  | operator o => operator (o.move f)
  | operand content span => operand (moveOperand f content) (span.move f)

@[simp] theorem Link.span_move (f : Nat → Nat) (link : Link) : (link.move f).span = link.span.move f := by
  cases link <;> rfl

theorem move_eq_map (f : Nat → Nat) (chain : Chain) : move f chain = chain.map (Link.move f) := by
  induction chain with
  | nil => rw [move, List.map_nil]
  | cons link chain ih => cases link <;> rw [move, List.map_cons, ih] <;> rfl

theorem move_append (f : Nat → Nat) (front back : Chain) :
    move f (front ++ back) = move f front ++ move f back := by
  rw [move_eq_map, move_eq_map, move_eq_map, List.map_append]

theorem move_operators (f : Nat → Nat) (os : List Operator) :
    move f (os.map .operator) = (os.map (Operator.move f)).map .operator := by
  rw [move_eq_map, List.map_map, List.map_map]
  rfl

theorem moveAll_eq_map (f : Nat → Nat) (chains : List Chain) :
    moveAll f chains = chains.map (move f) := by
  induction chains with
  | nil => rw [moveAll, List.map_nil]
  | cons chain chains ih => rw [moveAll, List.map_cons, ih]

theorem moveOperand_flow (f : Nat → Nat) (arms : List Arm) (otherwise : Option Chain) :
    moveOperand f (.flow arms otherwise) = .flow (moveArms f arms) (otherwise.map (move f)) := by
  cases otherwise <;> rw [moveOperand] <;> rfl

end Chain

/-! ## §4 Expressions -/

namespace Expr

mutual
/-- **`move`** — an expression somewhere else, with all its parts. -/
def move (f : Nat → Nat) : Expr → Expr
  | .atom a s => .atom a (s.move f)
  | .binary o l r s => .binary (o.move f) (move f l) (move f r) (s.move f)
  | .before o e s => .before (o.move f) (move f e) (s.move f)
  | .after o e s => .after (o.move f) (move f e) (s.move f)
  | .flat o es s => .flat (o.move f) (moveAll f es) (s.move f)
  | .ambiguous es s => .ambiguous (moveAll f es) (s.move f)
  | .block k b es s => .block k b (moveAll f es) (s.move f)
  | .escape es s => .escape (moveAll f es) (s.move f)
  | .istring ps s => .istring (movePieces f ps) (s.move f)
  | .flow xs none s => .flow (moveArms f xs) none (s.move f)
  | .flow xs (some e) s => .flow (moveArms f xs) (some (move f e)) (s.move f)
  | .declare k e s => .declare k (move f e) (s.move f)
  | .keyword k none s => .keyword k none (s.move f)
  | .keyword k (some e) s => .keyword k (some (move f e)) (s.move f)
/-- Expressions somewhere else. -/
def moveAll (f : Nat → Nat) : List Expr → List Expr
  | [] => []
  | e :: es => move f e :: moveAll f es
/-- The pieces of a string somewhere else. -/
def movePieces (f : Nat → Nat) : List Piece → List Piece
  | [] => []
  | .text t :: ps => .text t :: movePieces f ps
  | .hole e :: ps => .hole (move f e) :: movePieces f ps
/-- Arms somewhere else. -/
def moveArms (f : Nat → Nat) : List Arm → List Arm
  | [] => []
  | .mk k c e :: xs => .mk k (move f c) (move f e) :: moveArms f xs
end

attribute [local simp] move moveAll movePieces moveArms

theorem moveAll_eq_map (f : Nat → Nat) (es : List Expr) : moveAll f es = es.map (move f) := by
  induction es with
  | nil => rw [moveAll, List.map_nil]
  | cons e es ih => rw [moveAll, List.map_cons, ih]

mutual
/-- What is moved there and back is where it was. -/
theorem move_of_leftInverse (h : Function.LeftInverse g f) : ∀ e : Expr, (e.move f).move g = e
  | .atom _ s => by rw [move, move, s.move_of_leftInverse h]
  | .binary o l r s => by
    rw [move, move, o.move_of_leftInverse h, move_of_leftInverse h l, move_of_leftInverse h r,
      s.move_of_leftInverse h]
  | .before o e s => by
    rw [move, move, o.move_of_leftInverse h, move_of_leftInverse h e, s.move_of_leftInverse h]
  | .after o e s => by
    rw [move, move, o.move_of_leftInverse h, move_of_leftInverse h e, s.move_of_leftInverse h]
  | .flat o es s => by
    rw [move, move, o.move_of_leftInverse h, moveAll_of_leftInverse h es, s.move_of_leftInverse h]
  | .ambiguous es s => by
    rw [move, move, moveAll_of_leftInverse h es, s.move_of_leftInverse h]
  | .block _ _ es s => by rw [move, move, moveAll_of_leftInverse h es, s.move_of_leftInverse h]
  | .escape es s => by rw [move, move, moveAll_of_leftInverse h es, s.move_of_leftInverse h]
  | .istring ps s => by rw [move, move, movePieces_of_leftInverse h ps, s.move_of_leftInverse h]
  | .flow xs none s => by rw [move, move, moveArms_of_leftInverse h xs, s.move_of_leftInverse h]
  | .flow xs (some e) s => by
    rw [move, move, moveArms_of_leftInverse h xs, move_of_leftInverse h e, s.move_of_leftInverse h]
  | .declare _ e s => by rw [move, move, move_of_leftInverse h e, s.move_of_leftInverse h]
  | .keyword _ none s => by rw [move, move, s.move_of_leftInverse h]
  | .keyword _ (some e) s => by rw [move, move, move_of_leftInverse h e, s.move_of_leftInverse h]
theorem moveAll_of_leftInverse (h : Function.LeftInverse g f) :
    ∀ es : List Expr, moveAll g (moveAll f es) = es
  | [] => by rw [moveAll, moveAll]
  | e :: es => by rw [moveAll, moveAll, move_of_leftInverse h e, moveAll_of_leftInverse h es]
theorem movePieces_of_leftInverse (h : Function.LeftInverse g f) :
    ∀ ps : List Piece, movePieces g (movePieces f ps) = ps
  | [] => by rw [movePieces, movePieces]
  | .text _ :: ps => by rw [movePieces, movePieces, movePieces_of_leftInverse h ps]
  | .hole e :: ps => by
    rw [movePieces, movePieces, move_of_leftInverse h e, movePieces_of_leftInverse h ps]
theorem moveArms_of_leftInverse (h : Function.LeftInverse g f) :
    ∀ xs : List Arm, moveArms g (moveArms f xs) = xs
  | [] => by rw [moveArms, moveArms]
  | .mk _ c e :: xs => by
    rw [moveArms, moveArms, move_of_leftInverse h c, move_of_leftInverse h e,
      moveArms_of_leftInverse h xs]
end

/-- **Expressions that are different stay different.** -/
theorem move_injective (hf : StrictMono f) : Function.Injective (move f) := by
  -- The map back need not keep the order of offsets.
  obtain ⟨g, hg⟩ := hf.injective.hasLeftInverse
  exact Function.LeftInverse.injective (move_of_leftInverse hg)

@[simp] theorem span_move (f : Nat → Nat) : ∀ e : Expr, (e.move f).span = e.span.move f
  | .flow _ none _ | .flow _ (some _) _ | .keyword _ none _ | .keyword _ (some _) _ => by
    rw [move, span, span]
  | .atom .. | .binary .. | .before .. | .after .. | .flat .. | .ambiguous .. | .block ..
  | .escape .. | .istring .. | .declare .. => by rw [move, span, span]

@[simp] theorem atom?_move (f : Nat → Nat) : ∀ e : Expr, (e.move f).atom? = e.atom?
  | .flow _ none _ | .flow _ (some _) _ | .keyword _ none _ | .keyword _ (some _) _ => by
    rw [move, atom?, atom?] <;> exact fun _ _ h => by cases h
  | .atom .. => by rw [move, atom?, atom?]
  | .binary .. | .before .. | .after .. | .flat .. | .ambiguous .. | .block ..
  | .escape .. | .istring .. | .declare .. => by
    rw [move, atom?, atom?] <;> exact fun _ _ h => by cases h

end Expr

/-! ## §5 Outcomes -/

namespace ParseError

/-- A range mark somewhere else. -/
def moveMark (f : Nat → Nat) (mark : RangeMark) : RangeMark := { mark with span := mark.span.move f }

/-- **`move`** — a cause somewhere else. -/
def move (f : Nat → Nat) : ParseError → ParseError
  | ellipsisBothSides span => ellipsisBothSides (span.move f)
  | backtickSides span both => backtickSides (span.move f) both
  | expectedExpression place => expectedExpression (place.move f)
  | operatorWithoutOperand operator => operatorWithoutOperand (operator.move f)
  | missingOperator place => missingOperator (place.move f)
  | elseWithoutFlow span => elseWithoutFlow (span.move f)
  | incompleteFlow keyword span part => incompleteFlow keyword (span.move f) part
  | nestedOperator outer inner => nestedOperator (outer.move f) (inner.move f)
  | missingFlatOperand operator => missingFlatOperand (operator.move f)
  | severalRangeMarks marks => severalRangeMarks (marks.map (moveMark f))
  | tooManyReadings span limit => tooManyReadings (span.move f) limit

theorem move_missingOperand (f : Nat → Nat) (o : Operator) :
    (missingOperand o).move f = missingOperand (o.move f) := by
  unfold missingOperand
  rw [Operator.op_move]
  split <;> rfl

end ParseError

/-- A label somewhere else. -/
def Label.move (f : Nat → Nat) (l : Label) : Label := { l with span := l.span.move f }

/-- **`Diagnostic.move`** — what is said, about somewhere else. -/
def Diagnostic.move (f : Nat → Nat) (d : Diagnostic) : Diagnostic :=
  { d with labels := d.labels.map (Label.move f) }

theorem Diagnostic.move_attach (f : Nat → Nat) (d : Diagnostic) (name : Option String) :
    (d.attach name).move f = (d.move f).attach name := by
  cases name <;> rfl

section Carry

variable {α β γ δ : Type}

/-- **`carry`** — an outcome with its result carried over by `h`, and the cause of a refusal moved. -/
def carry (f : Nat → Nat) (h : α → β) :
    Except (Failure ParseError) α → Except (Failure ParseError) β
  | .ok a => .ok (h a)
  | .error (.refused cause) => refuse (cause.move f)
  | .error (.broken b) => fault b

variable {h : α → β} {k : γ → δ} {x : Except (Failure ParseError) α}

@[simp] theorem carry_ok (a : α) : carry f h (.ok a) = .ok (h a) := rfl

@[simp] theorem carry_pure (a : α) : carry f h (pure a) = pure (h a) := rfl

/-- **Stages one after the other carry over one by one.** -/
theorem carry_bind {next : α → Except (Failure ParseError) γ}
    {next' : β → Except (Failure ParseError) δ} (hnext : ∀ a, next' (h a) = carry f k (next a)) :
    (carry f h x >>= next') = carry f k (x >>= next) := by
  rcases x with (cause | b) | a
  · rfl
  · rfl
  · exact hnext a

theorem carry_map {q : α → γ} {q' : β → δ} (hq : ∀ a, q' (h a) = k (q a)) :
    (carry f h x).map q' = carry f k (x.map q) := by
  rcases x with (cause | b) | a
  · rfl
  · rfl
  · exact congrArg Except.ok (hq a)

theorem carry_foldlM {step : α → γ → Except (Failure ParseError) α}
    {step' : β → δ → Except (Failure ParseError) β}
    (hstep : ∀ a c, step' (h a) (k c) = carry f h (step a c)) (cs : List γ) (a : α) :
    (cs.map k).foldlM step' (h a) = carry f h (cs.foldlM step a) := by
  induction cs generalizing a with
  | nil => rfl
  | cons c cs ih =>
    rw [List.map_cons, List.foldlM_cons, List.foldlM_cons, hstep]
    exact carry_bind ih

end Carry

end DewyFront
