import Wordstack.Table
import Wordstack.Text.Split
import Wordstack.Value.Basic

/-!
# The heap

The contents of the arrays and scopes, by identity.  A new array or scope takes the next identity,
so it differs from every other.
-/

namespace Wordstack

/-- A record of fields that scripts write, with the number of writes it has seen. -/
structure Scope where
  fields : Table Value := .empty
  writes : Nat := 0
  deriving Inhabited

namespace Scope

/-- The value of a field. -/
def get? (scope : Scope) (key : String) : Option Value :=
  scope.fields.get? key

/-- Writes a field, which is made if it is new. -/
def set (scope : Scope) (key : String) (value : Value) : Scope :=
  { fields := scope.fields.insert key value, writes := scope.writes + 1 }

/-- Whether anything has been written. -/
def isDirty (scope : Scope) : Bool :=
  0 < scope.writes

/-- The text of a scope: its field names in order, and nothing of their values. -/
def text (scope : Scope) : String :=
  "scope\x7b" ++ ",".intercalate (scope.fields.names.map (" " ++ ·)) ++ " \x7d"

end Scope

/-- The contents of every array and scope. -/
structure Heap where
  arrays : Array (List Value) := #[]
  scopes : Array Scope := #[]
  deriving Inhabited

namespace Heap

/-- The elements of an array. -/
def items (heap : Heap) (id : ArrayId) : List Value :=
  heap.arrays[id.index]?.getD []

/-- A new array with the given elements. -/
def newArray (heap : Heap) (values : List Value) : ArrayId × Heap :=
  (⟨heap.arrays.size⟩, { heap with arrays := heap.arrays.push values })

/-- Replaces the elements of an array. -/
def setItems (heap : Heap) (id : ArrayId) (values : List Value) : Heap :=
  { heap with arrays := heap.arrays.setIfInBounds id.index values }

/-- The fields and writes of a scope. -/
def scope (heap : Heap) (id : ScopeId) : Scope :=
  heap.scopes[id.index]?.getD {}

/-- A new empty scope. -/
def newScope (heap : Heap) : ScopeId × Heap :=
  (⟨heap.scopes.size⟩, { heap with scopes := heap.scopes.push {} })

/-- Writes a field of a scope. -/
def setField (heap : Heap) (id : ScopeId) (key : String) (value : Value) : Heap :=
  { heap with scopes := heap.scopes.modify id.index (·.set key value) }

/-! ### What each change does to the contents -/

@[simp]
theorem items_newArray_self (heap : Heap) (values : List Value) :
    (heap.newArray values).2.items (heap.newArray values).1 = values := by
  simp [items, newArray]

/-- A new array leaves the others as they are. -/
theorem items_newArray_of_lt {heap : Heap} {id : ArrayId} (h : id.index < heap.arrays.size)
    (values : List Value) : (heap.newArray values).2.items id = heap.items id := by
  simp [items, newArray, Array.getElem?_push, Nat.ne_of_lt h]

theorem items_setItems_self {heap : Heap} {id : ArrayId} (h : id.index < heap.arrays.size)
    (values : List Value) : (heap.setItems id values).items id = values := by
  simp [items, setItems, h]

/-- A changed array leaves the others as they are. -/
theorem items_setItems_of_ne {heap : Heap} {id other : ArrayId} (h : other ≠ id)
    (values : List Value) : (heap.setItems id values).items other = heap.items other := by
  have hne : id.index ≠ other.index := fun eq => h (by cases id; cases other; simp_all)
  simp [items, setItems, Array.getElem?_setIfInBounds_ne hne]

theorem scope_setField_self {heap : Heap} {id : ScopeId} (h : id.index < heap.scopes.size)
    (key : String) (value : Value) :
    (heap.setField id key value).scope id = (heap.scope id).set key value := by
  simp [scope, setField, h, Array.getElem_modify]

/-- A written scope leaves the others as they are. -/
theorem scope_setField_of_ne {heap : Heap} {id other : ScopeId} (h : other ≠ id) (key : String)
    (value : Value) : (heap.setField id key value).scope other = heap.scope other := by
  have hne : id.index ≠ other.index := fun eq => h (by cases id; cases other; simp_all)
  simp [scope, setField, Array.getElem?_modify, hne]

end Heap

/-- The scopes a script reaches by name. -/
abbrev Registry := Table ScopeId

namespace Registry

/-- Walks from a value through fields, each but the last of which must hold a scope. -/
def walk (heap : Heap) : Value → List String → Option Value
  | value, [] => some value
  | .scope id, key :: keys => ((heap.scope id).get? key).bind (walk heap · keys)
  | _, _ :: _ => none

/-- The segments of a dotted path. -/
def segments (path : String) : List String :=
  (Text.fields ['.'] path.toList).map String.ofList

/-- Resolves a dotted path: the first segment names a registered scope, each further one a field of
the scope found so far. -/
def resolve (registry : Registry) (heap : Heap) (path : String) : Option Value :=
  match segments path with
  | [] => none
  | name :: keys => (registry.get? name).bind fun id => walk heap (.scope id) keys

end Registry

end Wordstack
