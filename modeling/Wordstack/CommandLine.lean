import Wordstack.Machine.Host

/-!
# The command line

The first argument names a script to run, and the others are handed to it.  Without arguments, lines
are read and run one by one, and the stack is shown after each.  A prelude is run before either.

Everything here is a function of the files and the lines; reading and printing are left to `Main`.
The log that the program can be asked to keep is left out.
-/

namespace Wordstack

/-- The host of the command line: its one kind of word gives the script its arguments. -/
def Embedding.commandLine : Embedding :=
  { Word := List String, Hook := Empty, Memory := Unit }

namespace CommandLine

open Exec

/-- A computation of the command line. -/
abbrev Run := Exec Embedding.commandLine

/-- A machine of the command line. -/
abbrev Interpreter := Machine Embedding.commandLine

/-- Gives the arguments as a new array of strings. -/
def respond (arguments : List String) (_ : Engine .commandLine) (_ : List Payload) :
    Run Returned := do
  return .one (.array (← newArray (arguments.map .string)))

/-- The host of the command line. -/
def host : Host .commandLine :=
  { respond, offer := fun hook => Empty.elim hook }

/-- The engine of the command line. -/
def engine : Engine .commandLine :=
  host.engine ampleFuel

/-- A file to run: its path and what reading it gives. -/
structure File where
  path : String
  contents : Except FileFault String

/-- Runs a file. -/
def runFile (file : File) : Run Unit :=
  engine.processFile file.path file.contents

/-- The word that gives a script its arguments. -/
def argumentsWord : Declaration :=
  { name := "prie.args", effect := { outputs := [Builtin.typed .array] } }

/-- Runs the prelude and then adds the word for the arguments. -/
def prepare (prelude : Option File) (arguments : List String) : Run Unit := do
  match prelude with
  | some file => runFile file
  | none => pure ()
  modify fun m =>
    m.addWord none argumentsWord.name argumentsWord.effect
      "List of command line arguments passed to the script." (.host arguments)

/-- A machine that knows every word of the language. -/
def start : Interpreter :=
  (Machine.new ()).addBuiltins Builtin.all

/-- The tag of the lines that are read. -/
def linePath : String := "<repl>"

/-- What is shown before each line. -/
def prompt : String := "> "

/-- The stack, bottom first, one numbered value a line. -/
def stackText (m : Interpreter) : String :=
  String.join (m.stack.reverse.mapIdx fun index value =>
    toString index ++ ":  " ++ m.heap.text value ++ "\n")

/-- The report of an error, as it is printed. -/
def errorText (error : Error) : String :=
  error.text ++ "\n"

/-- Shows the stack. -/
def showStack (m : Interpreter) : Interpreter :=
  { m with output := m.output ++ stackText m }

/-- Runs one line, and gives the machine after it and what goes to the error output. -/
def runLine (line : String) (m : Interpreter) : Interpreter × String :=
  match engine.process linePath line m with
  | .done _ m' => (showStack m', "")
  | .raised error m' => (showStack m', errorText error)
  | .exhausted => (m, "")

/-- Runs lines in order, with the prompt before each and before the end. -/
def runLines : List String → Interpreter → Interpreter × String
  | [], m => ({ m with output := m.output ++ prompt ++ "\n" }, "")
  | line :: lines, m =>
    let (m, errors) := runLine line { m with output := m.output ++ prompt }
    let (m, moreErrors) := runLines lines m
    (m, errors ++ moreErrors)

/-- Cuts a text after each line end. -/
def lines : List Char → List (List Char)
  | [] => []
  | c :: rest => if c = '\n' then [c] :: lines rest else Text.growFirst c (lines rest)

/-- What a run leaves behind. -/
structure Report where
  exitCode : Nat
  output : String
  errors : String

/-- How the command line is called: the prelude if one is set, the script with its arguments if one
is given, and the text of the standard input. -/
structure Invocation where
  prelude : Option File
  script : Option File
  arguments : List String
  input : String

/-- The report of a computation that ends the run. -/
def finish {α : Type} : Outcome .commandLine α → Report
  | .done _ m => { exitCode := 0, output := m.output, errors := "" }
  | .raised error m => { exitCode := 1, output := m.output, errors := errorText error }
  | .exhausted => { exitCode := 1, output := "", errors := "" }

/-- Runs the command line. -/
def run (invocation : Invocation) : Report :=
  match prepare invocation.prelude invocation.arguments start with
  | .done _ m =>
    match invocation.script with
    | some file => finish (runFile file m)
    | none =>
      let (m, errors) := runLines ((lines invocation.input.toList).map String.ofList) m
      { exitCode := 0, output := m.output, errors }
  | stopped => finish stopped

end CommandLine

end Wordstack
