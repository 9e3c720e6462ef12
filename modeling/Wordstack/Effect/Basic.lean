import Wordstack.Value.Basic

/-!
# Stack effects

What a word declares of itself: a slot for each value it takes and for each it leaves, bottom of the
stack first.  An escaped slot, marked by a backquote, passes the value itself; any other slot passes
what the value holds.
-/

namespace Wordstack

/-- Which values fit a slot. -/
inductive SlotType where
  | exact (type : ValueType)
  | any
  | numeric
  deriving DecidableEq, Repr

namespace SlotType

/-- The name of a type specification. -/
def name : SlotType → String
  | exact type => type.name
  | any => "any"
  | numeric => "numeric"

/-- The type specification of a name. -/
def ofName? (name : String) : Option SlotType :=
  if name = "any" then some any
  else if name = "numeric" then some numeric
  else (ValueType.ofName? name).map exact

/-- Whether a value fits. -/
def accepts : SlotType → Value → Bool
  | exact type, value => value.type = type
  | any, _ => true
  | numeric, value => value.isNumeric

theorem ofName?_name (spec : SlotType) : ofName? spec.name = some spec := by
  rcases spec with type | _ | _
  · -- no type has the name of a wider slot
    have hwider : type.name ≠ "any" ∧ type.name ≠ "numeric" := by cases type <;> decide
    change (if type.name = "any" then some any
      else if type.name = "numeric" then some numeric
      else (ValueType.ofName? type.name).map exact) = some (exact type)
    rw [if_neg hwider.1, if_neg hwider.2, ValueType.ofName?_name]
    rfl
  · decide
  · decide

end SlotType

/-- One value a word takes or leaves. -/
structure Slot where
  spec : SlotType
  escaped : Bool := false
  deriving DecidableEq, Repr

namespace Slot

/-- The mark of an escaped slot. -/
def mark : Char := Char.ofNat 0x60

/-- The text of a slot. -/
def text (slot : Slot) : String :=
  if slot.escaped then String.ofList (mark :: slot.spec.name.toList) else slot.spec.name

/-- The slot of a text. -/
def ofText? (text : String) : Option Slot :=
  match text.toList with
  | [] => none
  | c :: rest =>
    if c = mark then (SlotType.ofName? (String.ofList rest)).map fun spec => ⟨spec, true⟩
    else (SlotType.ofName? text).map fun spec => ⟨spec, false⟩

end Slot

/-- What a word takes from the stack and what it leaves there. -/
structure StackEffect where
  inputs : List Slot := []
  outputs : List Slot := []
  deriving DecidableEq, Repr

namespace StackEffect

/-- The parts of the text of an effect. -/
def parts (effect : StackEffect) : List String :=
  ["("] ++ effect.inputs.map Slot.text ++ ["--"] ++ effect.outputs.map Slot.text ++ [")"]

/-- The text of an effect, as declarations have it. -/
def text (effect : StackEffect) : String :=
  " ".intercalate effect.parts

end StackEffect

end Wordstack
