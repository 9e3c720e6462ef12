import Wordstack.Vocabulary.Body

/-!
# Words on scopes
-/

namespace Wordstack

namespace Vocabulary

variable {E : Embedding}

open Exec Taking

/-- `name --`: a new empty scope under the name, in place of an old one. -/
def newScope : Body E := fun inputs => do
  let name ← arguments text inputs
  let id ← Exec.newScope
  modify fun m => { m with registry := m.registry.insert name id }
  return .nothing

/-- `name -- scope` -/
def getScope : Body E := fun inputs => do
  let name ← arguments text inputs
  match (← machine).registry.get? name with
  | some id => return .one (.scope id)
  | none => raise (.unknownScope name)

/-- `scope key value --` -/
def setField : Body E := fun inputs => do
  let (id, key, v) ← arguments (do return (← scope, ← text, ← value)) inputs
  modifyHeap (·.setField id key v)
  return .nothing

/-- `scope key -- value` -/
def getField : Body E := fun inputs => do
  let (id, key) ← arguments (do return (← scope, ← text)) inputs
  let found := (← machine).heap.scope id
  match found.get? key with
  | some v => return .one (.tagged v)
  | none => raise (.unknownField key found.text)

/-- Adds an amount to an integer field. -/
def adjust (id : ScopeId) (key : String) (amount : Int64) : Exec E Returned := do
  let heap := (← machine).heap
  match (heap.scope id).get? key with
  | some (.int n) =>
    match fit? (n.toInt + amount.toInt) with
    | some result =>
      modifyHeap (·.setField id key (.int result))
      return .nothing
    | none => raise (.adjustOverflow key)
  | found => raise (.notAdjustable key (found.map heap.describe))

/-- `scope key amount --` -/
def increase : Body E := fun inputs => do
  let (id, key, amount) ← arguments (do return (← scope, ← text, ← int)) inputs
  adjust id key amount

/-- `scope key amount --`: the amount is negated before the field is looked at. -/
def decrease : Body E := fun inputs => do
  let (id, key, amount) ← arguments (do return (← scope, ← text, ← int)) inputs
  match fit? (-amount.toInt) with
  | some negated => adjust id key negated
  | none => raise (.adjustOverflow key)

/-- `scope key --`: adds a fixed amount. -/
def adjustBy (amount : Int64) : Body E := fun inputs => do
  let (id, key) ← arguments (do return (← scope, ← text)) inputs
  adjust id key amount

end Vocabulary

end Wordstack
