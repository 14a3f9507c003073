import Litmus.CommandLine

/-!
# The program

Reads what the command asks for, and prints its response.
-/

namespace Litmus.CommandLine

/-- The fault behind an error of the system. -/
def readFault : IO.Error → ReadFault
  | .alreadyExists _ code details | .otherError code details | .resourceBusy code details
  | .resourceVanished code details | .unsupportedOperation code details
  | .hardwareFault code details | .unsatisfiedConstraints code details
  | .illegalOperation code details | .protocolError code details | .timeExpired code details
  | .interrupted _ code details | .noFileOrDirectory _ code details
  | .invalidArgument _ code details | .permissionDenied _ code details
  | .resourceExhausted _ code details | .inappropriateType _ code details
  | .noSuchThing _ code details => ⟨code.toNat, details⟩
  | .unexpectedEof => ⟨0, "unexpected end of file"⟩
  | .userError reason => ⟨0, reason⟩

/-- The bytes of the file at a path, or of the standard input if there is no path. -/
def readBytes (path : Option String) : IO Reading := do
  try
    let bytes ← match path with
      | none => (← IO.getStdin).readBinToEnd
      | some path => IO.FS.readBinFile path
    return .ok bytes.toList
  catch e => return .error (readFault e)

/-- Prints a response and gives the code with which the program exits. -/
def Response.deliver (r : Response) : IO UInt32 := do
  IO.print r.stdout
  IO.eprint r.stderr
  match r.ending with
  | .returned code | .left code => return code.toUInt32
  | .broken f =>
    IO.eprintln f.message
    return 1

end Litmus.CommandLine

open Litmus.CommandLine in
/-- The program. -/
def main (arguments : List String) : IO UInt32 := do
  let names := [threadsVariable, instructionsVariable, columnsVariable]
  let environment ← names.mapM fun name ↦ return (name, ← IO.getEnv name)
  let response ← perform arguments (fun name ↦ (environment.lookup name).join) .unlimited readBytes
  response.deliver
