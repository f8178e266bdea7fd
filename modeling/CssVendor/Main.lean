import CssVendor.CommandLine

/-!
# The program

The command line, run in the system itself.
-/

namespace CssVendor.Program

open CommandLine

/-- How the program is called. -/
def usage : String :=
  "Usage: prefixly [--options FILE] [--minify] INPUT [OUTPUT]\n"

/-- The system's words for a failure. -/
def reasonOf : IO.Error → String
  | .noFileOrDirectory .. => Entry.nothingThere
  | .inappropriateType .. => Entry.directoryThere
  | .permissionDenied .. => "Permission denied (os error 13)"
  | e => e.toString

/-- What is found at a path. -/
def readEntry (path : String) : IO Entry := do
  try
    return .file (← IO.FS.readBinFile path)
  catch e =>
    return .unavailable (reasonOf e)

/-- Makes a file of a text, or gives a reason why it cannot. -/
def writeFile (path text : String) : IO (Option String) := do
  try
    IO.FS.writeBinFile path text.toUTF8
    return none
  catch e =>
    return some (reasonOf e)

/-- The system that the program runs in. -/
def system : System IO where
  read := readEntry
  write := writeFile
  print text := do (← IO.getStdout).putStr text
  complain text := do (← IO.getStderr).putStr text

end CssVendor.Program

open CssVendor CommandLine Program

/-- Runs the program on the files that its arguments name. -/
def main (arguments : List String) : IO UInt32 := do
  match Arguments.read arguments with
  | none =>
      system.complain usage
      return 2
  | some a => return UInt32.ofNat (← system.run a)
