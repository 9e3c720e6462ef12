import Wordstack.Directory
import Wordstack.Machine.Host
import Wordstack.Session.Command
import Wordstack.Session.Graph

/-!
# Sessions

A session gives commands to one interpreter, one after the other.  A command that fails does not end
the session.  The record of a command is its reply or its error, the stack after it, and what it
wrote.
-/

namespace Wordstack

/-- What a scope holds. -/
structure ScopeReport where
  fields : List (String × String)
  writes : Nat
  isDirty : Bool
  text : String

/-- The answer to a command. -/
inductive Reply where
  | done
  | value (shown : String)
  | code (shown : List String)
  | text (text : String)
  | graph (nodes : List Node)
  | definition (text : Option String)
  | lexer (buffer : Buffer)
  | values (shown : List String)
  | more (flag : Bool)
  | state (accumulator : Option (List String)) (location : Option Location) (calls : List String)
  | word (entry : Option Entry) (handler : Option String)
  | dictionary (known : Dictionary)
  | offered (names : List String)
  | field (shown : Option String) (isKnown : Bool)
  | scope (report : Option ScopeReport)
  | resolved (shown : Option String)

namespace Session

open Exec

/-- A computation of a session. -/
abbrev Run := Exec Embedding.session

/-- Gives up as a failure says. -/
def fail {α : Type} (failure : Failure) : Run α :=
  let cause := Cause.host failure.kind failure.message
  if failure.inContext then raise cause else raiseBare cause

/-- Changes what the session remembers. -/
def remember (f : SessionMemory → SessionMemory) : Run Unit :=
  modify fun m => { m with memory := f m.memory }

/-- What the session remembers. -/
def memory : Run SessionMemory := do
  return (← machine).memory

/-- The types and texts of some values. -/
def describeAll (values : List Value) : Run (List String) := do
  return values.map (← machine).heap.describe

/-- The place of the next word the session adds. -/
def nextPlace : Run Location := do
  remember fun memory => { memory with registrations := memory.registrations + 1 }
  return { path := "native", line := (← memory).registrations, column := 1 }

/-- The working directory: a file with the given text, or nothing. -/
def directory (path : String) (text : Option String) : Directory :=
  .ofFiles (text.toList.map fun contents => (path, contents))

/-- What is known of a scope. -/
def report (heap : Heap) (id : ScopeId) : ScopeReport :=
  let scope := heap.scope id
  { fields := scope.fields.entries.map fun field => (field.1, heap.describe field.2)
    writes := scope.writes
    isDirty := scope.isDirty
    text := scope.text }

/-- Carries out a command. -/
def perform (engine : Engine .session) : Command Script → Run Reply
  | .run path source => do
    engine.process (path.getD Engine.inputPath) source
    return .done
  | .returnValue source => do
    let value ← engine.returnValue source
    return .value ((← machine).heap.describe value)
  | .parse path source => do
    let code ← engine.parse (path.getD Engine.inputPath) source
    remember fun memory => { memory with lastCode := code }
    return .code (← describeAll code)
  | .executeCode => do
    engine.executeAll (← memory).lastCode
    return .done
  | .runFile path text => do
    engine.processFile path ((directory path text).read path)
    return .done
  | .push datum => do
    push (← build datum)
    return .done
  | .pop => do
    let value ← pop
    return .value ((← machine).heap.describe value)
  | .popString => return .text (← popString)
  | .clear => do
    modify fun m => { m with stack := [] }
    return .done
  | .execute datum => do
    engine.execute (← build datum)
    return .done
  | .perform name => do
    engine.perform name
    return .done
  | .graph => do
    let m ← machine
    return .graph (m.heap.graph m.stack.reverse)
  | .addParsingWord name definition => do
    modify fun m => { m with parsingWords := m.parsingWords.insert name definition }
    return .done
  | .parsingWord name => return .definition ((← machine).parsingWords.get? name)
  | .pushLexer path source => do
    pushLexer (.ofSource path source)
    return .done
  | .popLexer => return .lexer (← popLexer)
  | .pushAccumulator => do
    pushAccumulator
    return .done
  | .popAccumulator => return .values (← describeAll (← popAccumulator))
  | .accumulate datum => do
    accumulate (← build datum)
    return .done
  | .parseOne => return .more (← engine.parseOne)
  | .parseUntil delimiter => return .values (← describeAll (← engine.parseUntil delimiter))
  | .state => do
    let m ← machine
    let accumulator := m.accumulators.head?.map fun values => values.reverse.map m.heap.describe
    return .state accumulator m.location? m.calls.reverse
  | .declareWord declaration description word => do
    let place ← nextPlace
    declareWord (some place) declaration description (.host word)
    return .done
  | .addWord name effect description word => do
    let place ← nextPlace
    modify (·.addWord (some place) name effect description (.host word))
    return .done
  | .dispatch name handlerIndex => do
    engine.dispatch { name, handlerIndex }
    return .done
  | .findWord name => do
    let m ← machine
    let entry := m.dictionary.get? name
    return .word entry (entry.bind fun word => m.handlers[word.handlerIndex]?.map (·.name))
  | .dictionary => return .dictionary (← machine).dictionary
  | .setHook hook => do
    modify fun m => { m with hook := some hook }
    return .done
  | .offered => return .offered (← memory).offered.reverse
  | .createScope name => do
    let id ← newScope
    modify fun m => { m with registry := m.registry.insert name id }
    return .done
  | .registerScope name => do
    match (← machine).stack with
    | .scope id :: _ => modify fun m => { m with registry := m.registry.insert name id }
    | _ => pure ()
    return .done
  | .setField scope key datum => do
    let value ← build datum
    match (← machine).registry.get? scope with
    | some id => modifyHeap (·.setField id key value)
    | none => pure ()
    return .done
  | .getField scope key => do
    let m ← machine
    let value := (m.registry.get? scope).bind fun id => (m.heap.scope id).get? key
    return .field (value.map m.heap.describe) value.isSome
  | .scope name => do
    let m ← machine
    return .scope ((m.registry.get? name).map (report m.heap))
  | .resolve path => do
    let m ← machine
    return .resolved ((m.registry.resolve m.heap path).map m.heap.describe)

/-- Carries out commands in order, up to the first failure. -/
def performAll (engine : Engine .session) : List (Command Script) → Run Unit
  | [] => pure ()
  | command :: commands => do
    let _ ← perform engine command
    performAll engine commands

/-- Makes the outputs of a script. -/
def buildOutputs (inputs : List Payload) (outputs : List PayloadDatum) :
    Run (List Payload) := fun m =>
  let (payloads, heap) := PayloadDatum.buildAll inputs outputs m.heap
  .done payloads { m with heap }

/-- Runs a script on its inputs. -/
def respond : Script → Engine .session → List Payload → Run Returned
  | .mk wanted commands failure form outputs, engine, inputs => do
    let taken ← arguments (wanted.mapM Wanted.taking) inputs
    performAll engine commands
    match failure with
    | some failure => fail failure
    | none => return form.returned (← buildOutputs taken outputs)

/-- Offers a name to a hook. -/
def offer (hook : NameHook) (_ : Engine .session) (name : String) : Run Bool := do
  remember fun memory => { memory with offered := name :: memory.offered }
  if hook.opening.toList.isPrefixOf name.toList then
    push (.string (String.ofList (name.toList.drop hook.opening.length)))
    return true
  else
    match hook.failure with
    | some failure => if hook.failing = some name then fail failure else return false
    | none => return false

/-- The host of a session. -/
def host : Host .session :=
  { respond, offer }

/-- How a command ended. -/
inductive Result where
  | reply (reply : Reply)
  | error (error : Error)
  | exhausted

/-- The record of a command. -/
structure Record where
  result : Result
  /-- The stack after the command, bottom first. -/
  stack : List String
  output : String

/-- The record of how a command left a machine. -/
def record (result : Result) (m : Machine .session) : Record :=
  { result, stack := m.stack.reverse.map m.heap.describe, output := m.output }

/-- Gives one command to a machine. -/
def step (command : Command Script) (m : Machine .session) : Record × Machine .session :=
  let quiet := { m with output := "" }
  match perform (host.engine ampleFuel) command quiet with
  | .done reply m' => (record (.reply reply) m', m')
  | .raised error m' => (record (.error error) m', m')
  | .exhausted => (record .exhausted quiet, quiet)

/-- Gives commands to a machine in order. -/
def steps : List (Command Script) → Machine .session → List Record
  | [], _ => []
  | command :: commands, m =>
    let (made, m) := step command m
    made :: steps commands m

/-- A machine that knows some words of the language. -/
def start (words : List Builtin) : Machine .session :=
  let m : Machine .session := .new ({} : SessionMemory)
  m.addBuiltins words

/-- Gives commands to a new machine that knows some words of the language. -/
def run (words : List Builtin) (commands : List (Command Script)) : List Record :=
  steps commands (start words)

end Session

end Wordstack
