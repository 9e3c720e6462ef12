import Wordstack.Value.Equality
import Wordstack.Vocabulary.Body

/-!
# Words of arithmetic, comparison and logic

Two integers are computed exactly, and the result must be an integer of the language.  Division is
carried out in the integers of the language too, one step at a time.  Any float makes the operation
one on floats.
-/

namespace Wordstack

/-- An arithmetic operation, on integers, which it may refuse, and on floats. -/
structure Operation where
  onIntegers : Int64 → Int64 → Except Cause Int64
  onFloats : Float → Float → Float

namespace Operation

/-- A result that leaves the range of integers is refused. -/
def orOverflow (result : Option Int64) : Except Cause Int64 :=
  result.elim (.error .overflow) .ok

/-- Addition. -/
def add : Operation := ⟨fun a b => orOverflow (fit? (a.toInt + b.toInt)), (· + ·)⟩

/-- Subtraction. -/
def subtract : Operation := ⟨fun a b => orOverflow (fit? (a.toInt - b.toInt)), (· - ·)⟩

/-- Multiplication. -/
def multiply : Operation := ⟨fun a b => orOverflow (fit? (a.toInt * b.toInt)), (· * ·)⟩

/-- The quotient of two integers, rounded toward zero.  There is none by zero, and none of the least
integer by minus one, which would be one above the greatest. -/
def quotient? (a b : Int64) : Option Int64 :=
  if b = 0 ∨ a = Int64.minValue ∧ b = -1 then none else some (a / b)

/-- What the quotient rounded toward zero leaves over, if there is one. -/
def remainder? (a b : Int64) : Option Int64 :=
  if b = 0 ∨ a = Int64.minValue ∧ b = -1 then none else some (a % b)

/-- The integer one below. -/
def pred? (n : Int64) : Option Int64 :=
  fit? (n.toInt - 1)

/-- The quotient of two integers, rounded down: it is one below the quotient rounded toward zero if
something is left over and the signs differ. -/
def floorQuotient? (a b : Int64) : Option Int64 := do
  let quotient ← quotient? a b
  let remainder ← remainder? a b
  if remainder ≠ 0 ∧ ¬(a < 0 ↔ b < 0) then pred? quotient else some quotient

/-- Division; the quotient of integers is rounded down. -/
def divide : Operation :=
  ⟨fun a b => if b = 0 then .error .divisionByZero else orOverflow (floorQuotient? a b), (· / ·)⟩

/-- The result on two numbers. -/
def apply (op : Operation) : Number → Number → Except Cause Number
  | .int a, .int b => (op.onIntegers a b).map .int
  | a, b => .ok (.float (op.onFloats a.asFloat b.asFloat))

end Operation

namespace Vocabulary

variable {E : Embedding}

open Exec Taking

/-- `a b -- result` -/
def arithmetic (op : Operation) : Body E := fun inputs => do
  let (a, b) ← arguments (do return (← number, ← number)) inputs
  match op.apply a b with
  | .ok result => return .one (.tagged (.ofComputed result))
  | .error cause => raise cause

/-- `a b -- flag`: whether the values are equal, or differ if `expected` is false. -/
def equality (expected : Bool) : Body E := fun inputs => do
  let (a, b) ← arguments (do return (← value, ← value)) inputs
  return .one (.bool ((← machine).heap.equal a b == expected))

/-- `a b -- flag`: whether the order of the values passes a test. -/
def ordering (test : Ordering → Bool) : Body E := fun inputs => do
  let (a, b) ← arguments (do return (← value, ← value)) inputs
  match a.compare b with
  | some found => return .one (.bool (test found))
  | none =>
    let heap := (← machine).heap
    raise (.unordered (heap.shown a) (heap.shown b))

/-- `a b -- flag` -/
def logic (op : Bool → Bool → Bool) : Body E := fun inputs => do
  let (a, b) ← arguments (do return (← bool, ← bool)) inputs
  return .one (.bool (op a b))

/-- `flag -- flag` -/
def negation : Body E := fun inputs => do
  let flag ← arguments bool inputs
  return .one (.bool !flag)

end Vocabulary

end Wordstack
