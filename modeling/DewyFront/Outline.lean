/-
# DewyFront.Outline — labelled trees drawn with lines

An outline is drawn with one label on each line. A connector stands in front of every label but the
first: it is four characters wide, and rules run down from a label to the last one directly below.
-/

namespace DewyFront

/-- **`Outline`** — a label, and what stands below it. -/
inductive Outline where
  | mk (label : String) (below : List Outline)

namespace Outline

/-- A label with nothing below. -/
def leaf (label : String) : Outline := mk label []

/-- The connector in front of a label; `closing` says that it is the last one below its parent. -/
def connector (closing : Bool) : String := if closing then "└── " else "├── "

/-- What continues a connector on the lines below its label. -/
def rule (closing : Bool) : String := if closing then "    " else "│   "

mutual
/-- The line of an outline and the lines below, behind the rules that run past them. -/
def branch (rules : String) (closing : Bool) : Outline → List String
  | mk label below => (rules ++ connector closing ++ label) :: branches (rules ++ rule closing) below
/-- The lines of the outlines directly below one label. -/
def branches (rules : String) : List Outline → List String
  | [] => []
  | o :: rest => branch rules rest.isEmpty o ++ branches rules rest
end

/-- **`lines`** — an outline line by line. -/
def lines : Outline → List String
  | mk label below => label :: branches "" below

/-- **`draw`** — an outline as text. -/
def draw (o : Outline) : String := "\n".intercalate o.lines

end Outline

end DewyFront
