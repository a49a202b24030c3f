import Pegboard.Command.Run
import Pegboard.Regex.Engine

/-!
# The program

Reads the files that a command names, runs the command and prints its report.  A string
has no surrogates, so a name with one names no file here, and a surrogate that is to be
printed is shown by its escape.
-/

namespace Pegboard

attribute [local instance] Platform.builtIn

/-- A code point as it is printed. -/
def Codepoint.shown : Codepoint → List Char
  | char c => [c]
  | surrogate index => '\\' :: 'u' :: Nat.toDigits 16 (0xd800 + index)

/-- A text as it is printed. -/
def Text.shown (text : Text) : String := String.ofList (text.flatMap Codepoint.shown)

/-- What is found under a path on disk. -/
def readFile (path : Text) : IO Command.File := do
  try
    let content ← IO.FS.readBinFile path.shown
    return .bytes (content.toList.map UInt8.toNat)
  catch
    | .noFileOrDirectory _ _ _ => return .missing
    | .inappropriateType _ 20 _ => return .notDirectory
    | .inappropriateType _ _ _ => return .directory
    | e => return .refused e.toString.toText

/-- Prints a report and gives its exit code. -/
def printReport (report : Command.Report) : IO UInt32 := do
  (← IO.getStdout).putStr report.out.shown
  (← IO.getStderr).putStr report.err.shown
  match report.exit with
  | .ok code => return code.toUInt32
  | .error e =>
    (← IO.getStderr).putStrLn e.message.shown
    return 1

/-- Runs a command line. -/
def runMain (args : List String) : IO UInt32 := do
  match Command.ofArgs (args.map String.toText) with
  | .error .help =>
    IO.println "usage: pegboard (check | parse) [options] file"
    return 0
  | .error .wrong =>
    IO.eprintln "usage: pegboard (check | parse) [options] file"
    return 2
  | .ok command =>
    let files ← command.paths.mapM fun path => do return (path, ← readFile path)
    printReport (command.run fun path => (files.lookup path).getD .missing)

end Pegboard

/-- The entry point. -/
def main (args : List String) : IO UInt32 := Pegboard.runMain args
