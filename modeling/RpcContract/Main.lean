import RpcContract.CommandLine

/-!
# The executable

The command on the file system and the standard streams of the process.
-/

namespace RpcContract.CommandLine

open Text

/-- The words for a denial by the operating system. -/
def denialText : IO.Error → String
  | .noFileOrDirectory _ code details | .inappropriateType _ code details
  | .invalidArgument _ code details | .permissionDenied _ code details =>
    details ++ " (os error " ++ toString code ++ ")"
  | e => toString e

/-- The outcome of an action that the operating system may deny. -/
def attempt {α : Type} (action : IO α) : IO (Except String α) := do
  try return .ok (← action)
  catch e => return .error (denialText e)

/-- The process as a host. -/
def Host.process : Host IO where
  readText path := do
    let contents ← attempt (IO.FS.withFile (Utf8.lossy path) .read (·.readBinToEnd))
    return contents.bind fun bytes => (textOf bytes).mapError (·.message)
  write name contents := attempt (IO.FS.writeBinFile (Utf8.lossy name) contents)
  print text := IO.print text
  printError text := IO.eprint text

end RpcContract.CommandLine

open RpcContract CommandLine in
/-- The command `bazc`. -/
def main (args : List String) : IO UInt32 := do
  let status ← command .process (fun _ => usageLine) (args.map Text.Utf8.encode)
  return status.toUInt32
