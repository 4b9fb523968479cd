import Zpl.CommandLine.Answer

/-! The program: it reads the source that a request names and prints the answer. -/

namespace Zpl.CommandLine

/-- The number of a system error, which some systems report as negative. -/
def errorNumber (n : UInt32) : Nat :=
  if n < 0x80000000 then n.toNat else 0x100000000 - n.toNat

def ReadFailure.ofError : IO.Error → ReadFailure
  | .noFileOrDirectory _ _ _ => .noSuchFile
  | .inappropriateType _ number reason | .permissionDenied _ number reason =>
    .refused reason.capitalize (errorNumber number)
  | e => .refused (toString e) 5

/-- The text of a file, or of standard input if the name is a dash. -/
def readSource (file : String) : IO (Except ReadFailure String) := do
  try
    let bytes ← if file = "-" then (← IO.getStdin).readBinToEnd else IO.FS.readBinFile file
    return (String.fromUTF8? bytes).elim (.error .notUtf8) .ok
  catch e => return .error (.ofError e)

/-- The answer to a request whose source is read from the outside. -/
def Request.answerInput (format : Format) (request : Request) : IO Answer := do
  match request with
  | .label _ source _ =>
    let text ← readSource source.file
    return request.answer (fun _ => text) format
  | .explain _ _ => return request.answer (fun _ => .error .noSuchFile) format

end Zpl.CommandLine

open Zpl.CommandLine in
def main (args : List String) : IO UInt32 := do
  let out ← IO.getStdout
  let format : Format := if ← out.isTty then .pretty else .json
  let answer ← match Request.ofArguments args with
    | .error stop => pure (.stopped stop)
    | .ok request => request.answerInput format
  out.putStr answer.stdout
  (← IO.getStderr).putStr answer.stderr
  return answer.exitCode.toUInt32
