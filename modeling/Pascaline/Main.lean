/-
  Pascaline.Main — the command line.

  Arguments, files and streams of the real system, and nothing else: what to do with them
  is said in `Pascaline.Command.Outcome`.
-/

import Pascaline.Command.Outcome

namespace Pascaline.Command

/-- The operating system's own text and number of an error. -/
def SystemError.ofError : IO.Error → SystemError
  | .noFileOrDirectory _ code text | .inappropriateType _ code text | .permissionDenied _ code text
  | .resourceExhausted _ code text | .invalidArgument _ code text | .alreadyExists _ code text
  | .noSuchThing _ code text | .interrupted _ code text => ⟨text, code.toNat⟩
  | .otherError code text | .resourceBusy code text | .hardwareFault code text | .illegalOperation code text
  | .protocolError code text | .timeExpired code text | .unsupportedOperation code text
  | .unsatisfiedConstraints code text | .resourceVanished code text => ⟨text, code.toNat⟩
  | .unexpectedEof => ⟨"unexpected end of file", 0⟩
  | .userError text => ⟨text, 0⟩

instance : FileAccess IO where
  read path := return (← (IO.FS.readBinFile path).toBaseIO).mapError SystemError.ofError
  write path bytes := return (← (IO.FS.writeBinFile path bytes).toBaseIO).mapError SystemError.ofError

end Pascaline.Command

open Pascaline.Command

def main (args : List String) : IO UInt32 := do
  match Request.ofArgs? args with
  | none =>
    (← IO.getStderr).putStr "Usage: minipas [OPTIONS] <CONTENTS>\n"
    return 2
  | some request =>
    let outcome ← (request.carryOut : IO Outcome)
    (← IO.getStdout).putStr outcome.stdout
    (← IO.getStderr).putStr outcome.stderr
    return outcome.status.toUInt32
