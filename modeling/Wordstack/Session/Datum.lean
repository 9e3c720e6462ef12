import Wordstack.Machine.Exec
import Wordstack.Payload.Returned
import Wordstack.Payload.Taking

/-!
# Data

Values and payloads as a host writes them down: trees, whose arrays and scopes are made anew each
time the datum is used.
-/

namespace Wordstack

/-- A value as a host writes it down. -/
inductive Datum where
  /-- A word with this text, even if the text spells a number. -/
  | word (text : String)
  /-- The value of a bare text. -/
  | token (text : String)
  | string (text : String)
  | int (n : Int64)
  | float (x : Float)
  | bool (flag : Bool)
  | array (items : List Datum)
  | scope (fields : List (String × Datum))

mutual

/-- Makes the value of a datum. -/
def Datum.build : Datum → Heap → Value × Heap
  | .word text, heap => (.word text, heap)
  | .token text, heap => (.ofText text, heap)
  | .string text, heap => (.string text, heap)
  | .int n, heap => (.int n, heap)
  | .float x, heap => (.float x, heap)
  | .bool flag, heap => (.bool flag, heap)
  | .array items, heap =>
    let (values, heap) := Datum.buildAll items heap
    let (id, heap) := heap.newArray values
    (.array id, heap)
  | .scope fields, heap =>
    let (id, heap) := heap.newScope
    (.scope id, Datum.buildFields id fields heap)

/-- Makes the values of some data, in order. -/
def Datum.buildAll : List Datum → Heap → List Value × Heap
  | [], heap => ([], heap)
  | datum :: data, heap =>
    let (value, heap) := datum.build heap
    let (values, heap) := Datum.buildAll data heap
    (value :: values, heap)

/-- Writes fields of a scope, in order. -/
def Datum.buildFields (id : ScopeId) : List (String × Datum) → Heap → Heap
  | [], heap => heap
  | field :: fields, heap => Datum.buildFields id fields (Datum.buildField id field heap)

/-- Writes a field of a scope. -/
def Datum.buildField (id : ScopeId) : String × Datum → Heap → Heap
  | (key, datum), heap =>
    let (value, heap) := datum.build heap
    heap.setField id key value

end

/-- Makes the value of a datum. -/
def Exec.build {E : Embedding} (datum : Datum) : Exec E Value := fun m =>
  let (value, heap) := datum.build m.heap
  .done value { m with heap }

/-- A payload as a host writes it down. -/
inductive PayloadDatum where
  /-- What a value holds. -/
  | plain (datum : Datum)
  /-- The value itself. -/
  | tagged (datum : Datum)
  /-- The input at a position among those taken, or else the empty text. -/
  | taken (position : Nat)

namespace PayloadDatum

/-- Makes a payload, given the inputs taken. -/
def build (inputs : List Payload) : PayloadDatum → Heap → Payload × Heap
  | plain datum, heap => (datum.build heap).map Payload.contents id
  | tagged datum, heap => (datum.build heap).map Payload.tagged id
  | taken position, heap => (inputs.getD position (.text ""), heap)

/-- Makes some payloads, in order. -/
def buildAll (inputs : List Payload) : List PayloadDatum → Heap → List Payload × Heap
  | [], heap => ([], heap)
  | datum :: data, heap =>
    let (payload, heap) := datum.build inputs heap
    let (payloads, heap) := buildAll inputs data heap
    (payload :: payloads, heap)

end PayloadDatum

/-- What a handler asks of an input. -/
inductive Wanted where
  | int
  | bool
  | text
  | array
  | scope
  | value
  | number
  deriving DecidableEq, Repr

namespace Wanted

/-- Takes an input as asked for. -/
def taking : Wanted → Taking Payload
  | int => return .int (← Taking.int)
  | bool => return .bool (← Taking.bool)
  | text => return .text (← Taking.text)
  | array => return .array (← Taking.array)
  | scope => return .scope (← Taking.scope)
  | value => return .tagged (← Taking.value)
  | number => return .ofNumber (← Taking.number)

/-- Takes inputs one by one as asked for, with the number of inputs left after each.  An input that
is not as asked for is gone too. -/
def takeEach : List Wanted → List Payload → List (Except Cause Payload × Nat)
  | [], _ => []
  | wanted :: more, inputs =>
    ((wanted.taking.run inputs).map (·.1), inputs.tail.length) :: takeEach more inputs.tail

end Wanted

/-- The form in which a handler hands back its outputs. -/
inductive ReturnForm where
  | nothing
  | one
  | many
  deriving DecidableEq, Repr

/-- What a handler hands back in a form. -/
def ReturnForm.returned : ReturnForm → List Payload → Returned
  | nothing, _ => .nothing
  | one, payload :: _ => .one payload
  | one, [] => .nothing
  | many, payloads => .many payloads

end Wordstack
