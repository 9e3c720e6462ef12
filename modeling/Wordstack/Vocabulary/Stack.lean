import Wordstack.Vocabulary.Body

/-!
# Words on the stack and the output
-/

namespace Wordstack

namespace Vocabulary

variable {E : Embedding}

open Exec Taking

/-- `value -- value value` -/
def dup : Body E := fun inputs => do
  let v ← arguments value inputs
  return .many [.tagged v, .tagged v]

/-- `value --` -/
def drop : Body E := fun inputs => do
  let _ ← arguments value inputs
  return .nothing

/-- `a b -- b a` -/
def swap : Body E := fun inputs => do
  let (a, b) ← arguments (do return (← value, ← value)) inputs
  return .many [.tagged b, .tagged a]

/-- Empties the stack. -/
def clear : Body E := fun _ => do
  modify fun m => { m with stack := [] }
  return .nothing

/-- Writes a string with the given end.  The output is taken to accept everything: that it may fail,
when it is written or when it is flushed, is left out. -/
def writeWith (ending : String) : Body E := fun inputs => do
  let s ← arguments text inputs
  write (s ++ ending)
  return .nothing

end Vocabulary

end Wordstack
