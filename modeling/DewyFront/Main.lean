/-
# DewyFront.Main — the program

Reads the arguments and the file they name, and prints the answer.
-/
import DewyFront.Command

open DewyFront

/-- The number of a refusal. Some system calls give it as a negative number in 32 bits. -/
def refusalNumber (code : UInt32) : Nat :=
  if code.toNat < 0x80000000 then code.toNat else UInt32.size - code.toNat

/-- Why the system refuses to read a file. -/
def readErrorOf : IO.Error → ReadError
  | .noFileOrDirectory _ code text | .inappropriateType _ code text
  | .permissionDenied _ code text | .invalidArgument _ code text
  | .resourceExhausted _ code text | .noSuchThing _ code text =>
    .ofNumber (refusalNumber code) text
  | _ => .deviceFailure

/-- Reads a file. -/
def readContent (path : String) : IO FileContent := do
  try
    return .ok (← IO.FS.readBinFile path)
  catch e =>
    return .error (readErrorOf e)

/-- Runs the program. -/
def main (arguments : List String) : IO UInt32 := do
  let outcome ← (Request.ofArguments arguments).answer readContent
  (← IO.getStdout).putStr outcome.stdout
  (← IO.getStderr).putStr outcome.stderr
  return outcome.status.toUInt32
