import Wordstack.Session.Datum

/-!
# Commands

What a host asks of an interpreter, written down as data: run this text, push that value, add a
word.  A host's word is a script of such commands, so that a whole embedding is data.
-/

namespace Wordstack

/-- How a host's word or hook gives up. -/
structure Failure where
  kind : Kind
  message : String
  /-- Whether the error is raised with the context of the machine. -/
  inContext : Bool := false
  deriving DecidableEq, Repr

/-- A hook for unknown words: a name with the opening pushes the rest of the name as a string, and
one name fails. -/
structure NameHook where
  opening : String
  failing : Option String := none
  failure : Option Failure := none
  deriving DecidableEq, Repr

/-- One thing a host asks of an interpreter; `W` is the form of the words it adds. -/
inductive Command (W : Type) where
  /-- Parses and executes a text. -/
  | run (path : Option String) (source : String)
  /-- Runs a text and pops its result. -/
  | returnValue (source : String)
  /-- Parses a text and remembers the code. -/
  | parse (path : Option String) (source : String)
  /-- Executes the code parsed last. -/
  | executeCode
  /-- Runs a file, which has the given text or does not exist. -/
  | runFile (path : String) (text : Option String)
  | push (datum : Datum)
  | pop
  | popString
  | clear
  | execute (datum : Datum)
  /-- Runs the word of a name. -/
  | perform (name : String)
  /-- Shows the stack with the identities of its arrays and scopes. -/
  | graph
  | addParsingWord (name definition : String)
  | parsingWord (name : String)
  | pushLexer (path source : String)
  | popLexer
  | pushAccumulator
  | popAccumulator
  | accumulate (datum : Datum)
  | parseOne
  | parseUntil (delimiter : String)
  /-- Shows the parse in progress and the running words. -/
  | state
  | declareWord (declaration description : String) (word : W)
  | addWord (name : String) (effect : StackEffect) (description : String) (word : W)
  /-- Runs an entry that is not in the dictionary. -/
  | dispatch (name : String) (handlerIndex : Nat)
  | findWord (name : String)
  | dictionary
  | setHook (hook : NameHook)
  /-- Shows the names offered to hooks. -/
  | offered
  | createScope (name : String)
  /-- Registers the scope on top of the stack. -/
  | registerScope (name : String)
  | setField (scope key : String) (datum : Datum)
  | getField (scope key : String)
  | scope (name : String)
  | resolve (path : String)

/-- A host's word: take inputs, carry out commands, fail or hand back outputs. -/
inductive Script where
  | mk (wanted : List Wanted) (commands : List (Command Script)) (failure : Option Failure)
      (form : ReturnForm) (outputs : List PayloadDatum)

/-- What a session remembers. -/
structure SessionMemory where
  /-- The code parsed last. -/
  lastCode : List Value := []
  /-- The names offered to hooks, latest first. -/
  offered : List String := []
  /-- How many words the session has tried to add. -/
  registrations : Nat := 0

/-- The host whose words are scripts. -/
def Embedding.session : Embedding :=
  { Word := Script, Hook := NameHook, Memory := SessionMemory }

end Wordstack
