import Wordstack.Machine.Engine
import Wordstack.Vocabulary.Body

/-!
# Words that run quotations

A quotation is an array used as code.  Its elements are read when it starts to run, so it may change
the array it lives in.
-/

namespace Wordstack

namespace Vocabulary

variable {E : Embedding}

open Exec Taking

/-- Runs a quotation. -/
def runQuotation (engine : Engine E) (quotation : ArrayId) : Exec E Unit := do
  engine.executeAll (← items quotation)

/-- Runs a quotation a number of times. -/
def repeatQuotation (engine : Engine E) (quotation : ArrayId) : Nat → Exec E Unit
  | 0 => pure ()
  | n + 1 => do
    runQuotation engine quotation
    repeatQuotation engine quotation n

/-- Pushes each value in turn and runs a quotation after it. -/
def runOnEach (engine : Engine E) (quotation : ArrayId) : List Value → Exec E Unit
  | [] => pure ()
  | v :: values => do
    push v
    runQuotation engine quotation
    runOnEach engine quotation values

/-- Pushes each value in turn, runs a quotation after it, and collects what it leaves on top. -/
def collectOnEach (engine : Engine E) (quotation : ArrayId) : List Value → Exec E (List Value)
  | [] => pure []
  | v :: values => do
    push v
    runQuotation engine quotation
    let result ← pop
    return result :: (← collectOnEach engine quotation values)

/-- `quotation --` -/
def call (engine : Engine E) : Body E := fun inputs => do
  let quotation ← arguments array inputs
  runQuotation engine quotation
  return .nothing

/-- `flag then else --` -/
def choose (engine : Engine E) : Body E := fun inputs => do
  let (flag, yes, no) ← arguments (do return (← bool, ← array, ← array)) inputs
  runQuotation engine (if flag then yes else no)
  return .nothing

/-- `count quotation --`; a negative count is none. -/
def times (engine : Engine E) : Body E := fun inputs => do
  let (n, quotation) ← arguments (do return (← int, ← array)) inputs
  repeatQuotation engine quotation n.toInt.toNat
  return .nothing

/-- `array quotation --`; the elements are those at the start. -/
def each (engine : Engine E) : Body E := fun inputs => do
  let (id, quotation) ← arguments (do return (← array, ← array)) inputs
  runOnEach engine quotation (← items id)
  return .nothing

/-- `array quotation -- array`; the elements are those at the start. -/
def map (engine : Engine E) : Body E := fun inputs => do
  let (id, quotation) ← arguments (do return (← array, ← array)) inputs
  let results ← collectOnEach engine quotation (← items id)
  return .one (.array (← newArray results))

end Vocabulary

end Wordstack
