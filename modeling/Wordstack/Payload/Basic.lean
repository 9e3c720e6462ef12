import Wordstack.Error
import Wordstack.Text.Quoted

/-!
# Payloads

What travels between the stack and the handler of a word.  An escaped slot and a slot of any type
pass the value itself; any other slot passes what the value holds.  On the way back a payload
becomes a value that fits the output slot, or the handler has broken its declaration.
-/

namespace Wordstack

/-- An input or an output of a handler. -/
inductive Payload where
  | int (n : Int64)
  | float (x : Float)
  | bool (flag : Bool)
  | text (text : String)
  | array (id : ArrayId)
  | scope (id : ScopeId)
  /-- The value itself. -/
  | tagged (value : Value)

namespace Payload

/-- The payload of a number. -/
def ofNumber : Number → Payload
  | .int n => int n
  | .float x => float x

/-- What a value holds. -/
def contents : Value → Payload
  | .word s => text s
  | .string s => text s
  | .int n => int n
  | .float x => float x
  | .bool flag => bool flag
  | .array id => array id
  | .scope id => scope id

/-- What an input slot makes of a value that fits it. -/
def ofValue (slot : Slot) (value : Value) : Payload :=
  if slot.escaped || slot.spec = .any then tagged value else contents value

/-- What a payload is called in a message. -/
def form : Payload → String
  | int _ => "integer"
  | float _ => "float"
  | bool _ => "boolean"
  | text _ => "text"
  | array _ => "array"
  | scope _ => "scope"
  | tagged _ => "tagged value"

/-- The fields of a scope with their values. -/
def fieldsText (heap : Heap) (fields : Table Value) : String :=
  ", ".intercalate
    (fields.entries.map fun entry => Text.quoted entry.1 ++ ": " ++ heap.describe entry.2)

/-- The full text of a payload, contents included. -/
def describe (heap : Heap) : Payload → String
  | int n => "Int(" ++ toString n.toInt ++ ")"
  | float x => "Float(" ++ Decimal.floatText x ++ ")"
  | bool flag => "Bool(" ++ (if flag then "true" else "false") ++ ")"
  | text s => "Text(" ++ Text.quoted s ++ ")"
  | array id =>
    "Array(RefCell \x7b value: ValueVec \x7b values: ["
      ++ ", ".intercalate ((heap.items id).map heap.describe) ++ "] \x7d \x7d)"
  | scope id =>
    "Scope(RefCell \x7b value: Scope \x7b values: \x7b" ++ fieldsText heap (heap.scope id).fields
      ++ "\x7d, writes: " ++ toString (heap.scope id).writes ++ " \x7d \x7d)"
  | tagged value => "Tagged(" ++ heap.describe value ++ ")"

/-- The value of a payload under an output type: text for a word is read as source text would be, an
integer for a float is converted, and anything else keeps its own type. -/
def wrap (spec : SlotType) : Payload → Value
  | tagged value => value
  | text s => if spec = .exact .word then .ofText s else .string s
  | int n => if spec = .exact .float then .float (Number.int n).asFloat else .int n
  | float x => .float x
  | bool flag => .bool flag
  | array id => .array id
  | scope id => .scope id

/-- Whether a payload is text for a word, which may come out as a number. -/
def isWordText (spec : SlotType) : Payload → Bool
  | text _ => spec = .exact .word
  | _ => false

/-- The value itself, if the payload is one. -/
def tagged? : Payload → Option Value
  | tagged value => some value
  | _ => none

/-- The value an output slot makes of a payload. -/
def toValue (heap : Heap) (slot : Slot) (payload : Payload) : Except Cause Value :=
  if slot.escaped then
    match payload.tagged?.filter slot.spec.accepts with
    | some value => .ok value
    | none => .error (.unfitEscaped slot (payload.describe heap))
  else
    let value := payload.wrap slot.spec
    if payload.isWordText slot.spec || slot.spec.accepts value then .ok value
    else .error (.unfitOutput slot (heap.shown value))

end Payload

end Wordstack
