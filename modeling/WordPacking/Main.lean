/-
# The program

Reads the schema file that the arguments name, if any, and prints the outcome of the run.
-/
import WordPacking.CommandLine

namespace WordPacking

open CommandLine

/-- What is found at a path of the file system. -/
def readContents (path : String) : IO FileContents := do
  try
    return .bytes (← IO.FS.readBinFile path)
  catch
    | .noFileOrDirectory .. => return .missing
    | .inappropriateType .. => return .directory
    | e => return .unreadable (toString e)

end WordPacking

/-- Runs the program on its arguments. -/
def main (arguments : List String) : IO UInt32 := do
  let contents ← match WordPacking.CommandLine.pathRead? arguments with
    | some path => WordPacking.readContents path
    | none => pure .missing
  let outcome := WordPacking.CommandLine.run { files := fun _ => contents } arguments
  (← IO.getStdout).putStr outcome.stdout
  (← IO.getStderr).putStr outcome.stderr
  return UInt32.ofNat outcome.exitCode
