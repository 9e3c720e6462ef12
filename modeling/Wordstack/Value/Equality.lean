import Wordstack.Value.Heap

/-!
# Equality of values

Values are equal when their types and contents are: an integer never equals a float, nor a word a
string.  Scopes are compared by identity, arrays element by element.  A pair of arrays met again
while it is being compared counts as equal, so arrays that contain themselves can be compared.
-/

namespace Wordstack

namespace Heap

/-- The equality of values that are not both arrays. -/
def equalLeaves : Value → Value → Bool
  | .word a, .word b => a == b
  | .string a, .string b => a == b
  | .int a, .int b => a == b
  | .float a, .float b => a == b
  | .bool a, .bool b => a == b
  | .scope a, .scope b => a == b
  | _, _ => false

/-- Whether two arrays have equal elements, given the pairs being compared around them.  There are
no more pairs than the square of the number of arrays, which bounds the depth. -/
def equalItems (heap : Heap) (depth : Nat) (comparing : List (ArrayId × ArrayId))
    (a b : ArrayId) : Bool :=
  match depth with
  | 0 => true
  | depth + 1 =>
    if (a, b) ∈ comparing then true
    else
      let xs := heap.items a
      let ys := heap.items b
      xs.length == ys.length && (xs.zip ys).all fun pair =>
        match pair with
        | (.array x, .array y) => x == y || equalItems heap depth ((a, b) :: comparing) x y
        | (x, y) => equalLeaves x y

/-- A depth that no comparison exceeds. -/
def comparisonDepth (heap : Heap) : Nat :=
  heap.arrays.size * heap.arrays.size + 1

/-- Whether two arrays have equal elements. -/
def equalArrays (heap : Heap) (a b : ArrayId) : Bool :=
  heap.equalItems heap.comparisonDepth [] a b

/-- Whether two values are equal; an array equals itself whatever it holds. -/
def equal (heap : Heap) : Value → Value → Bool
  | .array a, .array b => a == b || heap.equalArrays a b
  | a, b => equalLeaves a b

end Heap

end Wordstack
