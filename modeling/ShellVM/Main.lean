import ShellVM.Cli.Command

/-!
# The program

Reads the file that the arguments name and prints what the command leaves behind.
-/

open ShellVM

/-- Why a file cannot be read. -/
def readFailure : IO.Error → String
  | .noFileOrDirectory _ code details | .permissionDenied _ code details
  | .inappropriateType _ code details =>
    details ++ " (os error " ++ code.toNat.repr ++ ")"
  | e => toString e

def contentsOf (path : String) : IO (Except String ByteArray) := do
  try return .ok (← IO.FS.readBinFile path)
  catch e => return .error (readFailure e)

def main (arguments : List String) : IO UInt32 := do
  let outcome ← match Cli.request arguments with
    | .error outcome => pure outcome
    | .ok r => do pure (Cli.answer .standard r (← contentsOf r.file))
  (← IO.getStdout).write outcome.output
  (← IO.getStderr).write outcome.errors
  return outcome.exit.toUInt32
