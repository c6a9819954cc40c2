import Tablature.CommandLine.Run

/-!
The program: words from the command line, files from the disk. -/
namespace Tablature.CommandLine

def systemError : IO.Error → SystemError
  | .noFileOrDirectory _ number text => ⟨number.toNat, text⟩
  | .inappropriateType _ number text => ⟨number.toNat, text⟩
  | .permissionDenied _ number text => ⟨number.toNat, text⟩
  | .invalidArgument _ number text => ⟨number.toNat, text⟩
  | .resourceExhausted _ number text => ⟨number.toNat, text⟩
  | .alreadyExists _ number text => ⟨number.toNat, text⟩
  | .otherError number text => ⟨number.toNat, text⟩
  | other => ⟨5, toString other⟩

def diskFiles : Files IO where
  read path := do
    match ← (IO.FS.readBinFile path).toBaseIO with
    | .ok bytes => pure (.ok bytes.toList)
    | .error e => pure (.error (systemError e))
  write path bytes := do
    match ← (IO.FS.writeBinFile path ⟨bytes.toArray⟩).toBaseIO with
    | .ok () => pure none
    | .error e => pure (some (systemError e))

end Tablature.CommandLine

def main (words : List String) : IO UInt32 := do
  let report ← Tablature.CommandLine.run Tablature.CommandLine.diskFiles words
  IO.print report.out
  IO.eprint report.err
  if report.crash.isSome then IO.eprintln "The run broke off."
  pure report.exitCode.toUInt32
