import Wordstack.Vocabulary.Body

/-!
# Words on arrays

A word whose name ends in `!` changes the array it is given; any other makes a new one.
-/

namespace Wordstack

/-- The position an index stands for; a negative index counts back from the end. -/
def position? (size : Nat) (index : Int) : Option Nat :=
  let place := if index < 0 then size + index else index
  if 0 ≤ place ∧ place < size then some place.toNat else none

namespace Vocabulary

variable {E : Embedding}

open Exec Taking

/-- Returns a new array. -/
def returnArray (values : List Value) : Exec E Returned := do
  return .one (.array (← newArray values))

/-- `array value -- array`: a new array made from the elements and the value. -/
def copied (combine : List Value → Value → List Value) : Body E := fun inputs => do
  let (id, v) ← arguments (do return (← array, ← value)) inputs
  returnArray (combine (← items id) v)

/-- `array value --`: the elements of the array itself are replaced. -/
def inPlace (combine : List Value → Value → List Value) : Body E := fun inputs => do
  let (id, v) ← arguments (do return (← array, ← value)) inputs
  modifyHeap fun heap => heap.setItems id (combine (heap.items id) v)
  return .nothing

/-- The elements with a value after them. -/
def withLast (values : List Value) (value : Value) : List Value :=
  values ++ [value]

/-- The elements with a value before them. -/
def withFirst (values : List Value) (value : Value) : List Value :=
  value :: values

/-- `first second -- array` -/
def concat : Body E := fun inputs => do
  let (a, b) ← arguments (do return (← array, ← array)) inputs
  returnArray ((← items a) ++ (← items b))

/-- `first second --` -/
def concatInPlace : Body E := fun inputs => do
  let (a, b) ← arguments (do return (← array, ← array)) inputs
  modifyHeap fun heap => heap.setItems a (heap.items a ++ heap.items b)
  return .nothing

/-- `array -- integer` -/
def count : Body E := fun inputs => do
  let id ← arguments array inputs
  return .one (.int (Int64.ofNat (← items id).length))

/-- `array -- value`: the element `select` finds, or else the cause. -/
def endElement (select : List Value → Option Value) (cause : Cause) : Body E := fun inputs => do
  let id ← arguments array inputs
  match select (← items id) with
  | some v => return .one (.tagged v)
  | none => raise cause

/-- `array index -- value` -/
def nth : Body E := fun inputs => do
  let (id, index) ← arguments (do return (← array, ← int)) inputs
  let values ← items id
  match position? values.length index.toInt with
  | none => raise (.outOfBounds index values.length)
  | some position =>
    match values[position]? with
    | some v => return .one (.tagged v)
    | none => raise (.noElement index)

end Vocabulary

end Wordstack
