/-
# DewyFront.Command — the command line

A command reads one file and prints its tokens or its expressions, or only what is wrong with it.
What a command prints depends on its arguments and on the file alone; reading the file is left to
the caller.

* §1 requests;
* §2 files that cannot be read;
* §3 outcomes;
* §4 listings;
* §5 answers.
-/
import DewyFront.Diagnostic.Report
import DewyFront.Expr.Outline
import DewyFront.Source.Parsed

namespace DewyFront

/-! ## §1 Requests -/

/-- **`Command`** — what is done with a file. -/
inductive Command where
  /-- Prints the tokens. -/
  | tokens
  /-- Prints the expressions. -/
  | parse
  /-- Prints only diagnostics. -/
  | check
deriving DecidableEq, Repr

/-- The command a word names. -/
def Command.ofWord? : String → Option Command
  | "tokens" | "lex" => some .tokens
  | "parse" => some .parse
  | "check" => some .check
  | _ => none

/-- **`Request`** — what the arguments ask for. -/
inductive Request where
  | nothing
  | help
  | version
  | unknown (word : String)
  /-- A command without a path, as it was written. -/
  | pathless (word : String)
  | run (command : Command) (path : String)
deriving DecidableEq, Repr

/-- **`ofArguments`** — reads the arguments. Whatever follows the path is passed over. -/
def Request.ofArguments : List String → Request
  | [] => nothing
  | "help" :: _ | "--help" :: _ | "-h" :: _ => help
  | "version" :: _ | "--version" :: _ | "-V" :: _ => version
  | word :: rest =>
    match Command.ofWord? word, rest with
    | none, _ => unknown word
    | some _, [] => pathless word
    | some command, path :: _ => run command path

/-! ## §2 Unreadable files -/

/-- **`ReadError`** — why a file cannot be read. -/
inductive ReadError where
  /-- The system refuses, with a number and a text. -/
  | system (number : Nat) (text : String)
  /-- The bytes of the file are not UTF-8. -/
  | notText
deriving DecidableEq, Repr

namespace ReadError

/-- There is no such file. -/
def notFound : ReadError := system 2 "No such file or directory"

/-- The device fails. -/
def deviceFailure : ReadError := system 5 "Input/output error"

/-- The file may not be read. -/
def noPermission : ReadError := system 13 "Permission denied"

/-- A part of the path is a file, and more follows. -/
def notDirectory : ReadError := system 20 "Not a directory"

/-- The path leads to a directory. -/
def isDirectory : ReadError := system 21 "Is a directory"

/-- A name in the path is too long. -/
def nameTooLong : ReadError := system 36 "File name too long"

/-- The number of a refusal by the system. -/
def number? : ReadError → Option Nat
  | system number _ => some number
  | notText => none

/-- **`ofNumber`** — the refusal with a number. The usual ones have their own texts. -/
def ofNumber (number : Nat) (text : String) : ReadError :=
  ([notFound, deviceFailure, noPermission, notDirectory, isDirectory, nameTooLong].find?
    (·.number? == some number)).getD (system number text)

/-- The wording of a reason. -/
def message : ReadError → String
  | system number text => s!"{text} (os error {number})"
  | notText => "stream did not contain valid UTF-8"

end ReadError

/-- What is known of a file: its bytes, or why it cannot be read. -/
abbrev FileContent := Except ReadError ByteArray

/-- The text of a file. -/
def FileContent.text (content : FileContent) : Except ReadError Text := do
  match String.fromUTF8? (← content) with
  | some s => return s.toList
  | none => .error .notText

/-! ## §3 Outcomes -/

/-- **`Outcome`** — what is printed, and the status a command ends with. -/
structure Outcome where
  stdout : String
  stderr : String
  status : Nat
deriving DecidableEq, Repr

/-- Lines as text: a newline ends each. -/
def endedLines (lines : List String) : String := String.join (lines.map (· ++ "\n"))

/-- A command that does what it was asked to. -/
def Outcome.success (stdout stderr : List String) : Outcome :=
  ⟨endedLines stdout, endedLines stderr, 0⟩

/-- A command that does not. -/
def Outcome.failure (stdout stderr : List String) : Outcome :=
  ⟨endedLines stdout, endedLines stderr, 1⟩

/-- How the commands are used. -/
def usage : List String :=
  ["Dewy front-end driver",
   "",
   "Usage: dewyc <command> <file.dewy>",
   "",
   "Commands:",
   "  tokens <file>   Print every non-trivia token as `row:col Kind \"text\"`",
   "  parse <file>    Print the syntax tree of every top-level expression",
   "  check <file>    Run the whole front end and print only diagnostics",
   "  help            Show this help message",
   "  version         Show version information",
   "",
   "Set RUST_LOG (e.g. RUST_LOG=dewy_parse=debug) for stage tracing on stderr."]

/-- The version that is shown. -/
def versionLine : String := "dewyc 0.1.0-alpha.1"

/-! ## §4 Listings -/

/-- The line of a token. -/
def Token.listed (t : Token) (s : Source) : String :=
  let p := s.position t.span.start
  s!"{p.row}:{p.column} {t.kind.label} " ++ Quoted.quote (t.text s.text)

/-- **`Listing`** — what a command that succeeds prints: the lines of its result, and the offsets of
lone carriage returns it warns about. -/
structure Listing where
  lines : List String
  loneReturns : List Nat

/-- The tokens of a source, layout and comments apart. -/
def Lexed.listing (l : Lexed) (s : Source) : Listing :=
  ⟨(l.tokens.toList.filter (!·.kind.isTrivia)).map (·.listed s), l.loneReturns⟩

/-- **`listing`** — what a command makes of a source. -/
def Command.listing (s : Source) : Command → Except (Failure Refusal) Listing
  | tokens => do return (← s.lex default).listing s
  | parse => do
    let parsed ← s.parse default
    return ⟨parsed.items.map Expr.draw, parsed.loneReturns⟩
  | check => do return ⟨[], (← s.parse default).loneReturns⟩

/-! ## §5 Answers -/

/-- The last line about a source that is refused. -/
def abortLine (path : String) (ds : List Diagnostic) : String :=
  s!"{path}: aborting due to {ds.countP (·.isError)} previous error(s)"

/-- **`outcome`** — the outcome of a command on the text of a file. -/
def Command.outcome (command : Command) (path : String) (text : Text) : Outcome :=
  let s : Source := ⟨text, some path⟩
  match command.listing s with
  | .ok listing =>
    .success listing.lines ((loneReturnWarnings s.name listing.loneReturns).map (·.report s))
  | .error (.refused refusal) =>
    let ds := refusal.diagnostics s.name
    .failure [] (ds.map (·.report s) ++ [abortLine path ds])
  | .error (.broken _) => .failure [] []

/-- **`answer`** — answers a request. A file is read only if the request is about one. -/
def Request.answer {m : Type → Type} [Monad m] (read : String → m FileContent) :
    Request → m Outcome
  | nothing => return .failure usage []
  | help => return .success usage []
  | version => return .success [versionLine] []
  | unknown word => return .failure usage [s!"Unknown command: {word}", ""]
  | pathless word => return .failure [] [s!"Usage: dewyc {word} <file.dewy>"]
  | run command path => do
    match (← read path).text with
    | .ok text => return command.outcome path text
    | .error e => return .failure [] [s!"cannot read '{path}': {e.message}"]

end DewyFront
