import Wordstack.Machine.Exec

/-!
# Parsing and executing

Code is a list of values.  Executing a word runs it and executing anything else pushes it.  Parsing
turns source text into code; a parsing word met on the way runs its definition, which may read on in
the source and may collect values.

Both call each other to any depth, so each takes the operations one level further down, an
`Engine`, as an argument.
-/

namespace Wordstack

/-- The operations a computation may call, each with less fuel than its caller. -/
structure Engine (E : Embedding) where
  /-- Parses a source text with a path or tag. -/
  parse : String → String → Exec E (List Value)
  /-- Runs the word of a name. -/
  perform : String → Exec E Unit
  /-- Runs the word of an entry. -/
  dispatch : Entry → Exec E Unit
  /-- How many lexemes one loop may read. -/
  rounds : Nat

namespace Engine

variable {E : Embedding}

open Exec

/-- Executes a value: a word is run, anything else is pushed. -/
def execute (engine : Engine E) : Value → Exec E Unit
  | .word name => engine.perform name
  | value => push value

/-- Executes code in order. -/
def executeAll (engine : Engine E) : List Value → Exec E Unit
  | [] => pure ()
  | value :: code => do
    engine.execute value
    engine.executeAll code

/-- The path of a parsing word's definition. -/
def definitionPath (name : String) : String :=
  "<parsing word " ++ name ++ ">"

/-- Deals with one scanned value: a parsing word runs its definition, anything else is collected. -/
def take (engine : Engine E) (value : Value) : Exec E Unit := do
  let parsingWords := (← machine).parsingWords
  match value with
  | .word name =>
    match parsingWords.get? name with
    | some definition =>
      let code ← engine.parse (definitionPath name) definition
      engine.executeAll code
    | none => accumulate value.asLiteral
  | _ => accumulate value

/-- Reads one lexeme and deals with it; false at the end of the source. -/
def parseOne (engine : Engine E) : Exec E Bool := do
  match ← scan with
  | none => raise .noSource
  | some (.unclosed start) => throw { cause := .unclosedQuote, location := some start }
  | some .finished => pure false
  | some (.lexeme found) =>
    engine.take (.ofLexeme found)
    pure true

/-- Reads lexemes up to the end of the source. -/
def parseAll (engine : Engine E) : Nat → Exec E Unit
  | 0 => giveUp
  | rounds + 1 => do
    if ← engine.parseOne then engine.parseAll rounds else pure ()

/-- Parses a source text with a reader and an accumulator of its own, which are gone when it
ends. -/
def parseSource (engine : Engine E) (path source : String) : Exec E (List Value) := do
  pushLexer (.ofSource path source)
  pushAccumulator
  let parsed ← attempt (engine.parseAll engine.rounds)
  let collected ← attempt popAccumulator
  let _ ← popLexer
  conclude parsed
  conclude collected

/-- Reads lexemes until the word last collected is the delimiter. -/
def collectUntil (engine : Engine E) (delimiter : String) : Nat → Exec E Unit
  | 0 => giveUp
  | rounds + 1 => do
    if ← engine.parseOne then
      match ← lastCollected with
      | some (.word last) =>
        if last = delimiter then pure () else engine.collectUntil delimiter rounds
      | _ => engine.collectUntil delimiter rounds
    else raise (.unclosedDelimiter delimiter)

/-- Collects the values of the source up to a delimiter, which is dropped. -/
def parseUntil (engine : Engine E) (delimiter : String) : Exec E (List Value) := do
  if (← machine).lexers.isEmpty then raise .untilOutsideParse
  else
    pushAccumulator
    let result ← attempt (engine.collectUntil delimiter engine.rounds)
    let collected ← popAccumulator
    conclude result
    pure collected.dropLast

/-! ### What a host asks for -/

/-- The tag of source text that has no better one. -/
def inputPath : String := "<input>"

/-- Parses and then executes a source text. -/
def process (engine : Engine E) (path source : String) : Exec E Unit := do
  let code ← engine.parse path source
  engine.executeAll code

/-- Parses and then executes a source text that has no path. -/
def run (engine : Engine E) (source : String) : Exec E Unit :=
  engine.process inputPath source

/-- Runs a source text and pops its result. -/
def returnValue (engine : Engine E) (source : String) : Exec E Value := do
  engine.run source
  pop

/-- Parses and then executes a file. -/
def processFile (engine : Engine E) (path : String) (contents : Except FileFault String) :
    Exec E Unit := do
  let source ← ofExcept (contents.mapError Cause.file)
  engine.process path source

end Engine

end Wordstack
