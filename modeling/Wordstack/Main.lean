import Wordstack.CommandLine

/-!
# The program

Reads the files, the lines and the environment, and prints what `CommandLine` says.
-/

namespace Wordstack.CommandLine

/-- Reads a file. -/
def readFile (path : String) : IO File := do
  try
    let text ← IO.FS.readFile path
    return { path, contents := .ok text }
  catch
    | .noFileOrDirectory .. => return { path, contents := .error .notFound }
    | .inappropriateType .. => return { path, contents := .error .isDirectory }
    | _ => return { path, contents := .error .notDirectory }

/-- Prints what a machine has written, and forgets it. -/
def printOutput (m : Interpreter) : IO Interpreter := do
  let out ← IO.getStdout
  out.putStr m.output
  out.flush
  return { m with output := "" }

/-- Reads and runs lines up to the end of the input. -/
partial def readLines (m : Interpreter) : IO Unit := do
  let m ← printOutput { m with output := m.output ++ prompt }
  let line ← (← IO.getStdin).getLine
  if line.isEmpty then
    let _ ← printOutput { m with output := "\n" }
  else
    let (m, errors) := runLine line m
    let m ← printOutput m
    IO.eprint errors
    readLines m

/-- Prints a report and gives its exit code. -/
def print (report : Report) : IO UInt32 := do
  let out ← IO.getStdout
  out.putStr report.output
  out.flush
  IO.eprint report.errors
  return report.exitCode.toUInt32

end Wordstack.CommandLine

open Wordstack.CommandLine in
/-- Runs the script that the first argument names, or the lines of the standard input. -/
def main (arguments : List String) : IO UInt32 := do
  let prelude ← (← IO.getEnv "PRIE_PRELUDE").mapM readFile
  match prepare prelude arguments.tail start with
  | .done _ m =>
    match arguments.head? with
    | some path => print (finish (runFile (← readFile path) m))
    | none =>
      readLines m
      return 0
  | stopped => print (finish stopped)
