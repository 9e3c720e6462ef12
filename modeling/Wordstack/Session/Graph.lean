import Wordstack.Value.Render

/-!
# Graphs of values

Values with the identities of their arrays and scopes, which are numbered in the order of the first
visit, depth first.
-/

namespace Wordstack

/-- A value with its identities. -/
inductive Node where
  /-- A value without identity. -/
  | leaf (text : String)
  | array (number : Nat) (items : List Node)
  /-- An array that has been visited. -/
  | knownArray (number : Nat)
  | scope (number : Nat) (fields : List (String × Node)) (writes : Nat)
  /-- A scope that has been visited. -/
  | knownScope (number : Nat)

/-- The arrays and scopes visited, in order. -/
structure Visited where
  arrays : List ArrayId := []
  scopes : List ScopeId := []

namespace Heap

/-- Visits a value.  No path enters more arrays and scopes than there are, which bounds the
depth. -/
def visit (heap : Heap) : Nat → Value → StateM Visited Node
  | 0, value => return .leaf (heap.describe value)
  | depth + 1, value => do
    let visited ← get
    match value with
    | .array id =>
      match visited.arrays.idxOf? id with
      | some number => return .knownArray number
      | none =>
        set { visited with arrays := visited.arrays ++ [id] }
        return .array visited.arrays.length (← (heap.items id).mapM (heap.visit depth))
    | .scope id =>
      match visited.scopes.idxOf? id with
      | some number => return .knownScope number
      | none =>
        set { visited with scopes := visited.scopes ++ [id] }
        let scope := heap.scope id
        let nodes ← scope.fields.values.mapM (heap.visit depth)
        return .scope visited.scopes.length (scope.fields.names.zip nodes) scope.writes
    | value => return .leaf (heap.describe value)

/-- The graph of some values. -/
def graph (heap : Heap) (values : List Value) : List Node :=
  ((values.mapM (heap.visit (heap.arrays.size + heap.scopes.size + 1))).run {}).1

end Heap

end Wordstack
