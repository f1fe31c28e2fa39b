import StackCompiler.CommandLine

/-!
# The program

Carries out what the command line asks for. All decisions are made in `CommandLine`.
-/

namespace StackCompiler

namespace CommandLine

/-- The reason why a file could not be written, in the words of the operating system. -/
def ioReason (e : IO.Error) : String :=
  match e with
  | .noFileOrDirectory _ code words
  | .inappropriateType _ code words
  | .invalidArgument _ code words
  | .permissionDenied _ code words
  | .resourceExhausted _ code words
  | .noSuchThing _ code words
  | .resourceBusy code words
  | .hardwareFault code words
  | .otherError code words => faultReason words code.toNat
  | e => toString e

/-- Carries out an action and gives the exit code. -/
def perform (action : Action) : IO UInt32 := do
  match action with
  | .usage =>
    IO.eprint ("error: invalid arguments\n\n" ++ helpText)
    return 2
  | .print text =>
    IO.print text
    return 0
  | .refuse report =>
    IO.eprint report
    return 1
  | .save file text =>
    try
      IO.FS.withFile file .write fun handle => do
        handle.putStr text
        handle.flush
      return 0
    catch e =>
      IO.eprint (writeReport (ioReason e))
      return 1

end CommandLine

end StackCompiler

def main (args : List String) : IO UInt32 :=
  StackCompiler.CommandLine.perform (StackCompiler.CommandLine.action args)
