import Wordstack.Value.Heap

/-!
# The text of values

Strings are quoted, booleans are `t` and `f`, arrays are bracketed, and a scope lists its field
names.  An array met inside itself is cut to `[ ... ]`.
-/

namespace Wordstack

namespace Heap

/-- The text of a value that is no array; an array is left to the caller. -/
def leafText (heap : Heap) : Value → String
  | .word text => text
  | .string text => "\"" ++ text ++ "\""
  | .int n => toString n.toInt
  | .float x => Decimal.floatText x
  | .bool flag => if flag then "t" else "f"
  | .array _ => ""
  | .scope id => (heap.scope id).text

/-- The text of an array that is already being written. -/
def cutText : String := "[ ... ]"

/-- Brackets around the texts of the elements. -/
def bracket (texts : List String) : String :=
  "[ " ++ String.join (texts.map (· ++ " ")) ++ "]"

/-- The text of an array, given the arrays being written around it.  No path from the root opens
more arrays than there are, which bounds the depth. -/
def arrayText (heap : Heap) (depth : Nat) (opened : List ArrayId) (id : ArrayId) : String :=
  match depth with
  | 0 => cutText
  | depth + 1 =>
    if id ∈ opened then cutText
    else
      bracket <| (heap.items id).map fun value =>
        match value with
        | .array inner => arrayText heap depth (id :: opened) inner
        | leaf => heap.leafText leaf

/-- The text of a value. -/
def text (heap : Heap) : Value → String
  | .array id => heap.arrayText (heap.arrays.size + 1) [] id
  | leaf => heap.leafText leaf

/-- The text of a value inside a larger text: a string stands without its quotes. -/
def plainText (heap : Heap) : Value → String
  | .string text => text
  | value => heap.text value

/-- The type and the text of a value. -/
def describe (heap : Heap) (value : Value) : String :=
  value.type.name ++ ": " ++ heap.text value

end Heap

/-- A value as a message shows it: its type and its text. -/
structure Shown where
  type : ValueType
  text : String
  deriving DecidableEq, Repr

/-- The type, then the text. -/
def Shown.phrase (shown : Shown) : String :=
  shown.type.name ++ " " ++ shown.text

/-- A value as a message shows it. -/
def Heap.shown (heap : Heap) (value : Value) : Shown :=
  { type := value.type, text := heap.text value }

end Wordstack
