/-
# DewyFront.Diagnostic.Report — diagnostics shown with rows and columns

Labels point at the row and column where their span begins. A diagnostic that names no file is shown
under the name of the source.
-/
import DewyFront.Diagnostic
import DewyFront.Source

namespace DewyFront
namespace Diagnostic

/-- The name for sources that have none. -/
def unnamed : String := "<input>"

/-- The file that a diagnostic about a source is shown under. -/
def shownFile (d : Diagnostic) (s : Source) : String := (d.file <|> s.name).getD unnamed

/-- The line of a label. An empty message leaves the place alone. -/
def placeLine (file : String) (s : Source) (l : Label) : String :=
  let p := s.position l.span.start
  let place := s!"  --> {file}:{p.row}:{p.column}"
  if l.message.isEmpty then place else s!"{place}: {l.message}"

/-- **`report`** — a diagnostic about a source. -/
def report (d : Diagnostic) (s : Source) : String :=
  "\n".intercalate (d.title :: d.labels.map (placeLine (d.shownFile s) s) ++ d.remarks)

end Diagnostic
end DewyFront
