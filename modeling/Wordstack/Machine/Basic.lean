import Wordstack.Dictionary
import Wordstack.Error
import Wordstack.Source.Buffer
import Wordstack.Value.Render
import Wordstack.Vocabulary.Builtin

/-!
# The machine

The state of an interpreter.  Everything that a script, a parsing word or a host can reach is here,
so that a run is a function on machines.  What belongs to the host (the forms its own words and its
hook take, and what it remembers) is a parameter.
-/

namespace Wordstack

/-- What a host brings along. -/
structure Embedding where
  /-- The forms of the host's words. -/
  Word : Type
  /-- The forms of the host's hook for unknown words. -/
  Hook : Type
  /-- What the host remembers between calls. -/
  Memory : Type

/-- The host that adds nothing. -/
def Embedding.bare : Embedding :=
  { Word := Empty, Hook := Empty, Memory := Unit }

/-- What runs when a word is called. -/
inductive Action (E : Embedding) where
  | builtin (word : Builtin)
  | host (word : E.Word)

/-- An entry of the handler list. -/
structure Handler (E : Embedding) where
  name : String
  location : Option Location
  action : Action E

/-- The state of an interpreter. -/
structure Machine (E : Embedding) where
  /-- The value stack, top first. -/
  stack : List Value := []
  heap : Heap := {}
  /-- The scopes that have a name. -/
  registry : Registry := .empty
  /-- The running words, innermost first. -/
  calls : List String := []
  dictionary : Dictionary := .empty
  /-- The handlers in the order in which they were added. -/
  handlers : Array (Handler E) := #[]
  /-- What is offered the words that the dictionary does not know. -/
  hook : Option E.Hook := none
  /-- The definition of each parsing word. -/
  parsingWords : Table String
  /-- The source texts being read, innermost first. -/
  lexers : List Buffer := []
  /-- The values collected by the parses in progress, innermost parse first, latest value first. -/
  accumulators : List (List Value) := []
  /-- What has been written to the output. -/
  output : String := ""
  memory : E.Memory

namespace Machine

variable {E : Embedding}

/-- The parsing words every machine starts with: an opening bracket collects everything up to the
closing one into an array. -/
def defaultParsingWords : Table String :=
  .ofList [("[", "\"]\" parse-until stack>accum")]

/-- A machine that knows no words. -/
def new (memory : E.Memory) : Machine E :=
  { parsingWords := defaultParsingWords, memory }

/-- Where reading has got to. -/
def location? (m : Machine E) : Option Location :=
  m.lexers.head?.map (·.location)

/-- Adds a word, over a word of the same name. -/
def addWord (m : Machine E) (location : Option Location) (name : String) (effect : StackEffect)
    (description : String) (action : Action E) : Machine E :=
  { m with
    handlers := m.handlers.push { name, location, action }
    dictionary := m.dictionary.insert name
      { name, effect, description, location, handlerIndex := m.handlers.size } }

/-- Adds a word by its declaration. -/
def declareWord (m : Machine E) (location : Option Location) (declaration description : String)
    (action : Action E) : Except Cause (Machine E) :=
  match Declaration.ofText declaration with
  | .ok d => .ok (m.addWord location d.name d.effect description action)
  | .error fault => .error (.badDeclaration declaration fault)

/-- Adds words of the language, in order.  Their place in the source of the interpreter itself is
left out: unlike the words of a host, they have no location. -/
def addBuiltins (m : Machine E) (builtins : List Builtin) : Machine E :=
  builtins.foldl
    (fun m b => m.addWord none b.name b.effect b.description (.builtin b)) m

/-- The cause with the context of the machine. -/
def error (m : Machine E) (cause : Cause) : Error :=
  { cause, location := m.location?, calls := some m.calls }

/-- The name under which a cause without context is reported. -/
def innermostCall (m : Machine E) : String :=
  m.calls.head?.getD "<native>"

/-- Adds the context of the machine to an error that carries no running words. -/
def addContext (m : Machine E) (e : Error) : Error :=
  if e.calls.isSome then e else m.error (.inWord m.innermostCall e.cause)

end Machine

end Wordstack
