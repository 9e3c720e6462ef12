import Wordstack.Text.Split
import Wordstack.Vocabulary.Arrays

/-!
# Words on strings
-/

namespace Wordstack

namespace Vocabulary

variable {E : Embedding}

open Exec Taking

/-- `array separator -- string` -/
def join : Body E := fun inputs => do
  let (id, separator) ← arguments (do return (← array, ← text)) inputs
  let heap := (← machine).heap
  let texts := (heap.items id).map fun v => (heap.plainText v).toList
  return .one (.text (String.ofList (Text.join separator.toList texts)))

/-- Returns a new array of strings. -/
def returnTexts (texts : List (List Char)) : Exec E Returned :=
  returnArray (texts.map fun cs => .string (String.ofList cs))

/-- `string separator -- array` -/
def split : Body E := fun inputs => do
  let (s, separator) ← arguments (do return (← text, ← text)) inputs
  returnTexts (Text.split s.toList separator.toList)

/-- `string -- array` -/
def words : Body E := fun inputs => do
  let s ← arguments text inputs
  returnTexts (Text.words s.toList)

/-- `a b -- ab` -/
def textConcat : Body E := fun inputs => do
  let (a, b) ← arguments (do return (← text, ← text)) inputs
  return .one (.text (a ++ b))

end Vocabulary

end Wordstack
