/-
  MuxHoist.Main

  The program: reads the file that the arguments name, if they name one, and
  prints the answer.
-/
import MuxHoist.CommandLine

namespace MuxHoist

namespace CommandLine

/-- The size of an error number; systems report it with either sign. -/
def errorNumber (n : UInt32) : Nat := n.toInt32.toInt.natAbs

/-- The failure behind an error of reading. -/
def readFailure : IO.Error → ReadFailure
  | .noFileOrDirectory _ n details => .ofNumber (errorNumber n) details
  | .permissionDenied _ n details => .ofNumber (errorNumber n) details
  | .inappropriateType _ n details => .ofNumber (errorNumber n) details
  | .invalidArgument _ n details => .ofNumber (errorNumber n) details
  | .resourceExhausted _ n details => .ofNumber (errorNumber n) details
  | .otherError n details => .ofNumber (errorNumber n) details
  | e => .ofNumber 5 (toString e)

/-- The bytes of a file. -/
def readBytes (file : String) : IO (Except ReadFailure ByteArray) := do
  try
    return .ok (← IO.FS.readBinFile file)
  catch e =>
    return .error (readFailure e)

/-- Answers the arguments: reads the one file that counts, prints, and gives the
    exit status. -/
def runProgram (w : Words) (args : List String) : IO UInt32 := do
  let contents ← match (Request.ofArguments args).file? with
    | some file => readBytes file
    | none => pure (.ok ByteArray.empty)
  let outcome := answer w (fun _ => contents) args
  (← IO.getStdout).putStr outcome.stdout
  (← IO.getStderr).putStr outcome.stderr
  return UInt32.ofNat outcome.status

end CommandLine

end MuxHoist

/-- The program, with nothing of what libraries would have to say. -/
def main (args : List String) : IO UInt32 :=
  MuxHoist.CommandLine.runProgram .silent args
