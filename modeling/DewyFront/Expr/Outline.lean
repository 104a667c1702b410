/-
# DewyFront.Expr.Outline — expressions as outlines

A label says what a node is, and its parts stand below it. The arms of a flow expression, and what
it takes when no arm is, have labels of their own; so have the texts in a string with holes.
-/
import DewyFront.Expr
import DewyFront.Outline

namespace DewyFront
namespace Expr

/-- The label of a node that an operator makes. -/
def operatorLabel (form : String) (o : Operator) : String := form ++ "(" ++ o.op.spelled ++ ")"

/-- The label of a block: the lead of its base, if it has one, and its delimiters. -/
def blockLabel (kind : Delimiters) (base : Option Radix) : String :=
  "Block(" ++ String.ofList (base.elim [] Radix.lead) ++ kind.text ++ ")"

/-- The label of a node that a keyword makes. -/
def keywordLabel (form : String) (k : Keyword) : String := form ++ "(" ++ k.spelling ++ ")"

mutual
/-- **`outline`** — an expression as an outline. -/
def outline : Expr → Outline
  | .atom a _ => .leaf a.label
  | .binary o l r _ => .mk (operatorLabel "BinOp" o) [outline l, outline r]
  | .before o e _ => .mk (operatorLabel "Prefix" o) [outline e]
  | .after o e _ => .mk (operatorLabel "Postfix" o) [outline e]
  | .flat o es _ => .mk (operatorLabel "Flat" o) (outlines es)
  | .ambiguous es _ => .mk "Ambiguous" (outlines es)
  | .block kind base inner _ => .mk (blockLabel kind base) (outlines inner)
  | .escape inner _ => .mk "ParametricEscape" (outlines inner)
  | .istring pieces _ => .mk "IString" (pieceOutlines pieces)
  | .flow arms none _ => .mk "Flow" (armOutlines arms)
  | .flow arms (some e) _ => .mk "Flow" (armOutlines arms ++ [.mk "Else" [outline e]])
  | .declare k e _ => .mk (keywordLabel "Declare" k) [outline e]
  | .keyword k none _ => .leaf (keywordLabel "Keyword" k)
  | .keyword k (some e) _ => .mk (keywordLabel "Keyword" k) [outline e]
/-- Some expressions as outlines. -/
def outlines : List Expr → List Outline
  | [] => []
  | e :: es => outline e :: outlines es
/-- The pieces of a string as outlines. -/
def pieceOutlines : List Piece → List Outline
  | [] => []
  | .text t :: rest => .leaf ("Text(" ++ Quoted.quote t ++ ")") :: pieceOutlines rest
  | .hole e :: rest => outline e :: pieceOutlines rest
/-- The arms of a flow expression as outlines. -/
def armOutlines : List Arm → List Outline
  | [] => []
  | .mk k condition clause :: rest =>
    .mk (keywordLabel "Arm" k) [outline condition, outline clause] :: armOutlines rest
end

/-- **`draw`** — an expression drawn as a tree. -/
def draw (e : Expr) : String := e.outline.draw

end Expr
end DewyFront
