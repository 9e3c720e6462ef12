import Wordstack.Machine.Exec
import Wordstack.Payload.Returned

/-!
# Between the stack and a handler

A word's inputs are checked against the stack and only then taken, and its outputs are checked one
by one and pushed.
-/

namespace Wordstack

variable {E : Embedding}

/-- The first value that does not fit its slot. -/
def firstUnfit? (slots : List Slot) (values : List Value) : Option (Slot × Value) :=
  (slots.zip values).find? fun pair => !pair.1.spec.accepts pair.2

/-- Takes a word's inputs off the stack, bottom first, once they are all known to fit. -/
def takeInputs (word : Entry) : Exec E (List Payload) := fun m =>
  let slots := word.effect.inputs
  let values := (m.stack.take slots.length).reverse
  if m.stack.length < slots.length then
    Exec.raise (.tooFewValues word.name word.effect m.stack.length) m
  else
    match firstUnfit? slots values with
    | some (slot, value) =>
      Exec.raise (.unfitInput word.name word.effect slot.spec (m.heap.shown value)) m
    | none =>
      .done (slots.zipWith Payload.ofValue values) { m with stack := m.stack.drop slots.length }

/-- Pushes payloads in order, each as a value that fits its slot. -/
def pushPayloads : List Slot → List Payload → Exec E Unit
  | slot :: slots, payload :: payloads => do
    let heap := (← Exec.machine).heap
    let value ← Exec.withContext (Exec.ofExcept (payload.toValue heap slot))
    Exec.push value
    pushPayloads slots payloads
  | _, _ => pure ()

/-- Pushes what a handler returned, if it is as many values as declared. -/
def pushOutputs (word : Entry) (returned : Returned) : Exec E Unit := do
  let payloads ← Exec.withContext (Exec.ofExcept (returned.payloads word.effect.outputs.length))
  pushPayloads word.effect.outputs payloads

end Wordstack
