import Wordstack.Machine.Marshal
import Wordstack.Vocabulary.Run

/-!
# Running words

A word's entry is run by taking its inputs, calling its handler and pushing its outputs.  A word is
found by name among the control words of the parser, the scope paths, the words of the dictionary,
and at last by the host's hook.

A `Host` says what the host's own words and hook do.  `Host.engine` ties the knot: an engine with a
given amount of fuel calls the engine with one less.
-/

namespace Wordstack

/-- What the words and the hook of a host do. -/
structure Host (E : Embedding) where
  /-- Runs a word of the host on its inputs. -/
  respond : E.Word → Engine E → List Payload → Exec E Returned
  /-- Offers a name to the hook, which says whether it has dealt with it. -/
  offer : E.Hook → Engine E → String → Exec E Bool

/-- The host that has no words and no hook. -/
def Host.bare : Host .bare :=
  { respond := fun word => Empty.elim word, offer := fun hook => Empty.elim hook }

/-- The word that collects source text up to a delimiter. -/
def untilWord : String := "parse-until"

/-- The word that moves the top of the stack into the innermost accumulator. -/
def collectWord : String := "stack>accum"

/-- The mark of a scope path. -/
def pathMark : Char := '@'

namespace Host

variable {E : Embedding} (host : Host E)

/-- Runs an action on its inputs. -/
def act (engine : Engine E) : Action E → List Payload → Exec E Returned
  | .builtin word => word.run engine
  | .host word => host.respond word engine

/-- Runs the word of an entry. -/
def dispatchWith (engine : Engine E) (word : Entry) : Exec E Unit := do
  match (← Exec.machine).handlers[word.handlerIndex]? with
  | none => Exec.raise (.missingHandler word.name word.handlerIndex)
  | some handler =>
    let inputs ← takeInputs word
    Exec.within word.name do
      let returned ← Exec.withContext (host.act engine handler.action inputs)
      pushOutputs word returned

/-- Collects source text up to the delimiter on the stack and pushes it as an array. -/
def collectSource (engine : Engine E) : Exec E Unit := do
  let delimiter ← Exec.popString
  let collected ← engine.parseUntil delimiter
  Exec.push (.array (← Exec.newArray collected))

/-- Moves the top of the stack into the innermost accumulator. -/
def collectTop : Exec E Unit := do
  Exec.accumulate (← Exec.pop)

/-- Pushes what a scope path leads to. -/
def pushPath (path : String) : Exec E Unit := do
  let m ← Exec.machine
  match m.registry.resolve m.heap path with
  | some value => Exec.push value
  | none => Exec.raise (.unresolvedPath path)

/-- Offers a name that the dictionary does not know to the hook. -/
def offerUnknown (engine : Engine E) (name : String) : Exec E Unit := do
  match (← Exec.machine).hook with
  | none => Exec.raise (.unknownWord name)
  | some hook =>
    if ← host.offer hook engine name then pure () else Exec.raise (.unknownWord name)

/-- The path of a name that is a scope path. -/
def path? (name : String) : Option String :=
  match name.toList with
  | c :: path => if c = pathMark then some (String.ofList path) else none
  | [] => none

/-- Runs the word of a name. -/
def performWith (engine : Engine E) (name : String) : Exec E Unit :=
  if name = untilWord then collectSource engine
  else if name = collectWord then collectTop
  else
    match path? name with
    | some path => pushPath path
    | none => do
      match (← Exec.machine).dictionary.get? name with
      | some word => host.dispatchWith engine word
      | none => host.offerUnknown engine name

/-- The engine with an amount of fuel. -/
def engine : Nat → Engine E
  | 0 =>
    { parse := fun _ _ => Exec.giveUp
      perform := fun _ => Exec.giveUp
      dispatch := fun _ => Exec.giveUp
      rounds := 0 }
  | fuel + 1 =>
    { parse := fun path source => (engine fuel).parseSource path source
      perform := fun name => host.performWith (engine fuel) name
      dispatch := fun word => host.dispatchWith (engine fuel) word
      rounds := fuel + 1 }

end Host

/-- More fuel than any run can use up in a lifetime. -/
def ampleFuel : Nat := Nat.pow 2 62

end Wordstack
