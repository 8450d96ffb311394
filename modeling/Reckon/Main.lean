import Reckon.Console

/-! # The program

Connects the console to the arguments, files and streams of the process.
-/

namespace Reckon.Console

/-- The reason of a failed access. Its number may be reported negated in two's complement. -/
def reason (e : IO.Error) : String :=
  let numbered (code : UInt32) (details : String) : String :=
    systemReason (if code < 0x80000000 then code else -code).toNat details
  match e with
  | .noFileOrDirectory _ code details => numbered code details
  | .permissionDenied _ code details => numbered code details
  | .inappropriateType _ code details => numbered code details
  | .invalidArgument _ code details => numbered code details
  | .resourceExhausted _ code details => numbered code details
  | .noSuchThing _ code details => numbered code details
  | .otherError code details => numbered code details
  | e => toString e

def readContents (path : String) : IO (Except String (List UInt8)) := do
  try
    return .ok (← IO.FS.readBinFile path).toList
  catch e => return .error (reason e)

def emit (o : Outcome) : IO UInt32 := do
  IO.print o.stdout
  IO.eprint o.stderr
  return .ofNat o.status

/-- The bytes up to a line feed and with it, or all that are left. -/
partial def readLine (input : IO.FS.Stream) (bytes : List UInt8) : IO (List UInt8) := do
  let next ← input.read 1
  match next.toList with
  | [] => return bytes.reverse
  | byte :: _ =>
    if byte = 10 then return (byte :: bytes).reverse
    else readLine input (byte :: bytes)

partial def interact (s : Session) (input output : IO.FS.Stream) : IO UInt32 := do
  output.putStr prompt
  output.flush
  match turn s (← readLine input []) with
  | .ended outcome => emit outcome
  | .answered next answer =>
    output.putStr answer
    interact next input output

end Reckon.Console

open Reckon.Console in
def main (arguments : List String) : IO UInt32 := do
  match parseArguments arguments with
  | .ok (.converse options) =>
    interact (.start options []) (← IO.getStdin) (← IO.getStdout)
  | .ok (.script path _ _) =>
    let contents ← readContents path
    emit (run arguments (fun _ => contents) [])
  | _ => emit (run arguments (fun _ => .error "") [])
