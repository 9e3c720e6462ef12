import Wordstack.Payload.Basic

/-!
# Taking inputs

A handler takes its inputs one by one, bottom of the stack first, and says what each should be.
-/

namespace Wordstack

/-- Takes inputs off a list of payloads, or finds that they are not as asked for. -/
abbrev Taking := StateT (List Payload) (Except Cause)

namespace Taking

/-- Takes the next input if `read` knows it; `wanted` says in a message what that is. -/
def next {α : Type} (wanted : String) (read : Payload → Option α) : Taking α := fun payloads =>
  match payloads with
  | [] => .error (.missingArgument wanted)
  | payload :: rest =>
    match read payload with
    | some a => .ok (a, rest)
    | none => .error (.wrongArgument wanted payload.form)

/-- Takes the next input as an integer. -/
def int : Taking Int64 :=
  next "an integer" fun
    | .int n => some n
    | _ => none

/-- Takes the next input as a boolean. -/
def bool : Taking Bool :=
  next "a boolean" fun
    | .bool flag => some flag
    | _ => none

/-- Takes the next input as a text. -/
def text : Taking String :=
  next "a text" fun
    | .text s => some s
    | _ => none

/-- Takes the next input as an array. -/
def array : Taking ArrayId :=
  next "an array" fun
    | .array id => some id
    | _ => none

/-- Takes the next input as a scope. -/
def scope : Taking ScopeId :=
  next "a scope" fun
    | .scope id => some id
    | _ => none

/-- Takes the next input as a value. -/
def value : Taking Value :=
  next "a tagged value" Payload.tagged?

/-- Takes the next input as a number. -/
def number : Taking Number :=
  next "a number" fun
    | .int n => some (.int n)
    | .float x => some (.float x)
    | _ => none

end Taking

end Wordstack
