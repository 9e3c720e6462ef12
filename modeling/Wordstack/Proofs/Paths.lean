import Wordstack.Proofs.Fields
import Wordstack.Proofs.Standard

/-!
# Scope paths

What a write to a field, or a new scope, does to the paths that lead through scopes.  Scopes are
shared and may hold each other or themselves, so a write through a path can change where that very
path leads.  It does so only if the walk along the path reads the field that is written.

* `Registry.reads`: the fields that resolving a path reads, each with the scope it is a field of.
* `Registry.resolve_setField`: a write changes no path that does not read the written field.
* `Registry.resolve_snoc`: one more segment is one more field to read.
* `FieldWritten`, `ScopeMade`: all that a write, or a new scope, does and leaves alone.
-/

namespace Wordstack

variable {E : Embedding}

/-! ### Fields -/

/-- A write leaves every other field as it is, of the same scope and of the others. -/
theorem Heap.get?_setField_of_ne {heap : Heap} {id other : ScopeId} {key otherKey : String}
    (h : (id, key) ≠ (other, otherKey)) (value : Value) :
    ((heap.setField id key value).scope other).get? otherKey =
      (heap.scope other).get? otherKey := by
  by_cases hid : other = id
  · subst hid
    have hkey : otherKey ≠ key := fun hkey => h (by rw [hkey])
    by_cases hlt : other.index < heap.scopes.size
    · rw [Heap.scope_setField_self hlt]
      exact Table.get?_insert_of_ne hkey _ _
    · -- nothing is written to a scope that is not there
      have hnone : heap.scopes[other.index]? = none := Array.getElem?_eq_none (Nat.le_of_not_lt hlt)
      simp [Heap.scope, Heap.setField, Array.getElem?_modify, hnone]
  · rw [Heap.scope_setField_of_ne hid]

/-- A new scope is empty, so every scope, new or not, is found to be as it was. -/
theorem Heap.scope_newScope (heap : Heap) (id : ScopeId) :
    heap.newScope.2.scope id = heap.scope id := by
  simp only [Heap.scope, Heap.newScope, Array.getElem?_push]
  split
  · next h => rw [h, Array.getElem?_eq_none (Nat.le_refl _)]; rfl
  · rfl

/-! ### What a path reads -/

namespace Registry

/-- The fields that a walk reads, in order. -/
def walkReads (heap : Heap) : Value → List String → List (ScopeId × String)
  | .scope id, key :: keys =>
    (id, key) :: (((heap.scope id).get? key).elim [] fun value => walkReads heap value keys)
  | _, _ => []

/-- The fields that resolving a path reads, in order. -/
def reads (registry : Registry) (heap : Heap) (path : String) : List (ScopeId × String) :=
  match segments path with
  | [] => []
  | name :: keys => (registry.get? name).elim [] fun id => walkReads heap (.scope id) keys

variable {registry : Registry} {heap : Heap} {id : ScopeId} {key : String}

theorem segments_ne_nil (path : String) : segments path ≠ [] := by
  simpa [segments] using Text.fields_ne_nil (List.cons_ne_nil '.' []) path.toList

theorem segments_snoc (path : String) (h : '.' ∉ key.toList) :
    segments (path ++ "." ++ key) = segments path ++ [key] := by
  have htext : (path ++ "." ++ key).toList = path.toList ++ '.' :: key.toList := by simp
  rw [segments, htext, Text.fields_append h, List.map_append]
  simp [segments]

/-- A walk that does not read the written field ends where it did. -/
theorem walk_setField {value : Value} {keys : List String}
    (h : (id, key) ∉ walkReads heap value keys) (written : Value) :
    walk (heap.setField id key written) value keys = walk heap value keys := by
  induction keys generalizing value with
  | nil => cases value <;> rfl
  | cons k keys ih =>
    cases value with
    | scope other =>
      rw [walkReads, List.mem_cons, not_or] at h
      rw [walk, walk, Heap.get?_setField_of_ne h.1]
      cases hget : (heap.scope other).get? k with
      | none => rfl
      | some next =>
        rw [hget] at h
        exact ih h.2
    | _ => rfl

/-- **A write changes no path that does not read the written field**: such a path leads to the same
value, or nowhere, as before. -/
theorem resolve_setField {path : String} (h : (id, key) ∉ registry.reads heap path)
    (written : Value) :
    registry.resolve (heap.setField id key written) path = registry.resolve heap path := by
  unfold reads at h
  unfold resolve
  split
  · rfl
  · next name keys hsegments =>
    rw [hsegments] at h
    dsimp only at h
    cases hget : registry.get? name with
    | none => rfl
    | some start =>
      rw [hget] at h
      exact walk_setField h written

theorem walk_append (heap : Heap) (value : Value) (keys more : List String) :
    walk heap value (keys ++ more) = (walk heap value keys).bind (walk heap · more) := by
  induction keys generalizing value with
  | nil => cases value <;> rfl
  | cons key keys ih =>
    cases value with
    | scope id =>
      rw [List.cons_append, walk, walk]
      cases (heap.scope id).get? key with
      | none => rfl
      | some next => exact ih next
    | _ => rfl

/-- One more segment of a path is one more field to read. -/
theorem resolve_snoc {path : String} (hpath : registry.resolve heap path = some (.scope id))
    (hkey : '.' ∉ key.toList) :
    registry.resolve heap (path ++ "." ++ key) = (heap.scope id).get? key := by
  unfold resolve at hpath ⊢
  rw [segments_snoc path hkey]
  cases hsegments : segments path with
  | nil => exact absurd hsegments (segments_ne_nil path)
  | cons name keys =>
    rw [hsegments] at hpath
    dsimp only [List.cons_append] at hpath ⊢
    cases hget : registry.get? name with
    | none =>
      rw [hget] at hpath
      cases hpath
    | some start =>
      rw [hget] at hpath
      dsimp only [Option.bind_some] at hpath ⊢
      rw [walk_append, hpath]
      cases hfield : (heap.scope id).get? key <;> simp [walk, hfield]

/-- Walks that start elsewhere do not notice a new scope. -/
theorem walk_newScope (heap : Heap) (value : Value) (keys : List String) :
    walk heap.newScope.2 value keys = walk heap value keys := by
  induction keys generalizing value with
  | nil => cases value <;> rfl
  | cons key keys ih =>
    cases value with
    | scope id =>
      rw [walk, walk, Heap.scope_newScope]
      exact congrArg _ (funext ih)
    | _ => rfl

end Registry

/-! ### The words on scopes -/

open Exec Registry

/-- The machine with one more value on the stack. -/
def Machine.withTop (m : Machine E) (value : Value) : Machine E :=
  { m with stack := value :: m.stack }

/-- What a machine knows does not depend on the values, the heap and the registry. -/
theorem Machine.Knows.of_values {m : Machine E} {b : Builtin} (h : m.Knows b) (stack : List Value)
    (heap : Heap) (registry : Registry) : ({ m with stack, heap, registry } : Machine E).Knows b :=
  h

/-- Writes a field of the scope that a path leads to; the value is pushed, whatever it is. -/
def writingField (path key : String) (value : Value) (engine : Engine E) : Exec E Unit := do
  engine.perform ("@" ++ path)
  push (.string key)
  push value
  engine.perform Builtin.setField.name

/-- Reads a field of a scope. -/
def readingField (id : ScopeId) (key : String) (engine : Engine E) : Exec E Unit := do
  push (.scope id)
  push (.string key)
  engine.perform Builtin.getField.name

/-- Makes a new scope under a name. -/
def makingScope (name : String) (engine : Engine E) : Exec E Unit := do
  push (.string name)
  engine.perform Builtin.newScope.name

section Words

variable {host : Host E} {m : Machine E}

/-- One level of fuel is enough for code that runs no code. -/
theorem Host.ends_of_succ {α : Type} {x : Engine E → Exec E α} {o : Outcome E α}
    (ho : o ≠ .exhausted) (h : ∀ fuel, x (host.engine (fuel + 1)) m = o) : host.Ends x m o := by
  refine ⟨ho, 1, fun more hmore => ?_⟩
  obtain ⟨fuel, rfl⟩ : ∃ k, more = k + 1 := ⟨more - 1, by omega⟩
  exact h fuel

theorem Host.path?_at (path : String) : path? ("@" ++ path) = some path := by
  simp [path?, pathMark]

theorem Host.performWith_path (engine : Engine E) (path : String) :
    host.performWith engine ("@" ++ path) = pushPath path := by
  have hmark : ("@" ++ path).toList.head? = some '@' := by simp
  have huntil : "@" ++ path ≠ untilWord := fun h => by
    rw [h] at hmark
    exact absurd hmark (by decide)
  have hcollect : "@" ++ path ≠ collectWord := fun h => by
    rw [h] at hmark
    exact absurd hmark (by decide)
  rw [performWith, if_neg huntil, if_neg hcollect, path?_at]

theorem Host.pushPath_of_resolve {path : String} {value : Value}
    (h : m.registry.resolve m.heap path = some value) :
    pushPath path m = .done () (m.withTop value) := by
  rw [pushPath, machine_bind, h]
  rfl

theorem Host.ends_perform_path {path : String} {value : Value}
    (h : m.registry.resolve m.heap path = some value) :
    host.Ends (·.perform ("@" ++ path)) m (.done () (m.withTop value)) := by
  refine ends_of_succ nofun fun fuel => ?_
  change host.performWith (host.engine fuel) ("@" ++ path) m = _
  rw [performWith_path, pushPath_of_resolve h]

theorem ends_writingField (hset : m.Knows .setField) {path : String} {id : ScopeId}
    (hpath : m.registry.resolve m.heap path = some (.scope id)) (key : String) (value : Value) :
    host.Ends (writingField path key value) m
      (.done () { m with heap := m.heap.setField id key value }) := by
  refine Host.ends_of_succ nofun fun fuel => ?_
  change (host.performWith (host.engine fuel) ("@" ++ path) >>= fun _ => _) m = _
  rw [Host.performWith_path, bind_of_done (Host.pushPath_of_resolve hpath)]
  -- the three inputs are on the stack
  change host.performWith (host.engine fuel) Builtin.setField.name
    { m with stack := value :: .string key :: .scope id :: m.stack } = _
  rw [(hset.of_values _ _ _).performWith]
  rfl

theorem ends_readingField (hget : m.Knows .getField) {id : ScopeId} {key : String} {value : Value}
    (h : (m.heap.scope id).get? key = some value) :
    host.Ends (readingField id key) m (.done () (m.withTop value)) := by
  have htake : takeInputs (Builtin.getField.entry 0)
      { m with stack := .string key :: .scope id :: m.stack } =
        .done [.scope id, .text key] m := rfl
  have hrun : ∀ engine, Builtin.getField.run engine [.scope id, .text key]
      (m.entering Builtin.getField.name) =
        .done (.one (.tagged value)) (m.entering Builtin.getField.name) := by
    intro engine
    have harguments : arguments (do return (← Taking.scope, ← Taking.text))
        [.scope id, .text key] (m.entering Builtin.getField.name) =
          .done (id, key) (m.entering Builtin.getField.name) := rfl
    have hfield : ((m.entering Builtin.getField.name).heap.scope id).get? key = some value := h
    change Vocabulary.getField [.scope id, .text key] _ = _
    rw [Vocabulary.getField, bind_of_done harguments]
    dsimp only
    rw [machine_bind, hfield]
    rfl
  refine Host.ends_of_succ nofun fun fuel => ?_
  change host.performWith (host.engine fuel) Builtin.getField.name
    { m with stack := .string key :: .scope id :: m.stack } = _
  rw [(hget.of_values _ _ _).performWith, Builtin.perform, bind_of_done htake, within_apply]
  change ((withContext (Builtin.getField.run (host.engine fuel) _) >>= _) (m.entering _)).mapMachine
    _ = _
  rw [bind_of_done (withContext_of_done (hrun _))]
  rfl

theorem ends_makingScope (hnew : m.Knows .newScope) (name : String) :
    host.Ends (makingScope name) m (.done () { m with
        heap := m.heap.newScope.2
        registry := m.registry.insert name m.heap.newScope.1 }) := by
  refine Host.ends_of_succ nofun fun fuel => ?_
  change host.performWith (host.engine fuel) Builtin.newScope.name
    { m with stack := .string name :: m.stack } = _
  rw [(hnew.of_values _ _ _).performWith]
  rfl

end Words

/-! ### The laws -/

/-- What a write of a field of a scope makes of a machine. -/
structure FieldWritten (m m' : Machine E) (id : ScopeId) (key : String) (value : Value) : Prop where
  /-- The field holds the value. -/
  field : (m'.heap.scope id).get? key = some value
  /-- Paths that did not read the field lead where they led. -/
  paths : ∀ path, (id, key) ∉ m.registry.reads m.heap path →
    m'.registry.resolve m'.heap path = m.registry.resolve m.heap path
  /-- One more write is counted. -/
  writes : (m'.heap.scope id).writes = (m.heap.scope id).writes + 1
  fields : ∀ other, other ≠ key → (m'.heap.scope id).get? other = (m.heap.scope id).get? other
  scopes : ∀ other, other ≠ id → m'.heap.scope other = m.heap.scope other
  arrays : m'.heap.arrays = m.heap.arrays
  /-- Nothing but the heap has changed; the registry has not. -/
  rest : m' = { m with heap := m'.heap }

/-- What a new scope under a name makes of a machine. -/
structure ScopeMade (m m' : Machine E) (name : String) (new : ScopeId) : Prop where
  fresh : m.heap.scopes.size ≤ new.index ∧ new.index < m'.heap.scopes.size
  empty : m'.heap.scope new = {}
  /-- The name alone leads to the new scope. -/
  alone : ∀ path, segments path = [name] →
    m'.registry.resolve m'.heap path = some (.scope new)
  /-- There is nothing inside the new scope. -/
  inside : ∀ path key keys, segments path = name :: key :: keys →
    m'.registry.resolve m'.heap path = none
  /-- Paths that start elsewhere lead where they led. -/
  elsewhere : ∀ path, (segments path).head? ≠ some name →
    m'.registry.resolve m'.heap path = m.registry.resolve m.heap path
  scopes : ∀ id, m'.heap.scope id = m.heap.scope id
  arrays : m'.heap.arrays = m.heap.arrays
  rest : m' = { m with heap := m'.heap, registry := m'.registry }

theorem fieldWritten_setField (m : Machine E) {id : ScopeId} (h : id.index < m.heap.scopes.size)
    (key : String) (value : Value) :
    FieldWritten m { m with heap := m.heap.setField id key value } id key value where
  field := by
    rw [Heap.scope_setField_self h]
    exact Table.get?_insert_self _ _ _
  paths := fun _ hreads => resolve_setField hreads value
  writes := by rw [Heap.scope_setField_self h]; rfl
  fields := by
    intro other hother
    exact Heap.get?_setField_of_ne (fun heq => hother (congrArg Prod.snd heq).symm) value
  scopes := fun _ hother => Heap.scope_setField_of_ne hother key value
  arrays := rfl
  rest := rfl

theorem scopeMade_newScope (m : Machine E) (name : String) :
    ScopeMade m { m with
        heap := m.heap.newScope.2
        registry := m.registry.insert name m.heap.newScope.1 } name m.heap.newScope.1 where
  fresh := by simp [Heap.newScope]
  empty := by simp [Heap.newScope, Heap.scope]
  alone := by
    intro path hpath
    rw [resolve, hpath]
    simp [walk]
  inside := by
    intro path key keys hpath
    have hempty : (m.heap.newScope.2.scope m.heap.newScope.1).get? key = none := by
      simp [Heap.newScope, Heap.scope]
      rfl
    rw [resolve, hpath]
    simp [walk, hempty]
  elsewhere := by
    intro path hpath
    unfold resolve
    cases hsegments : segments path with
    | nil => rfl
    | cons first keys =>
      have hname : first ≠ name := fun heq => hpath (by rw [hsegments, heq]; rfl)
      dsimp only
      rw [Table.get?_insert_of_ne hname]
      exact congrArg _ (funext fun id => walk_newScope m.heap (.scope id) keys)
  scopes := m.heap.scope_newScope
  arrays := rfl
  rest := rfl

/-- **Reading after writing.**  Take any state of a machine that knows the words on scopes, however
its scopes hold each other or themselves.  To write a field through a path that leads to a scope on
the heap succeeds, changes nothing but that field and the number of writes of that scope, and leaves
alone every path that does not read the field; the field then reads as written; and if the path
itself does not read the field, which is so in particular if the scopes along it are all different,
then the path with the field's name as one more segment leads to the value.  To make a new scope
succeeds, gives its name to an empty scope, and changes no other path. -/
theorem scope_path_laws (host : Host E) {m : Machine E} (hset : m.Knows .setField)
    (hget : m.Knows .getField) (hnew : m.Knows .newScope) :
    (∀ path id key value, m.registry.resolve m.heap path = some (.scope id) →
      id.index < m.heap.scopes.size →
      ∃ m', host.Ends (writingField path key value) m (.done () m') ∧
        FieldWritten m m' id key value ∧
        host.Ends (readingField id key) m' (.done () (m'.withTop value)) ∧
        ('.' ∉ key.toList → (id, key) ∉ m.registry.reads m.heap path →
          host.Ends (·.perform ("@" ++ (path ++ "." ++ key))) m' (.done () (m'.withTop value))) ∧
        (((m.registry.reads m.heap path).map (·.1) ++ [id]).Nodup →
          (id, key) ∉ m.registry.reads m.heap path)) ∧
    (∀ name, ∃ m' new, host.Ends (makingScope name) m (.done () m') ∧ ScopeMade m m' name new) := by
  refine ⟨fun path id key value hpath hid => ?_, fun name => ?_⟩
  · have hwritten := fieldWritten_setField m hid key value
    refine ⟨_, ends_writingField hset hpath key value, hwritten,
      ends_readingField (hget.of_values _ _ _) hwritten.field, fun hkey hreads => ?_,
      fun hnodup hmem => ?_⟩
    · -- the path still leads to the scope, so the longer one leads to the field
      have hstill := (hwritten.paths path hreads).trans hpath
      exact Host.ends_perform_path ((resolve_snoc hstill hkey).trans hwritten.field)
    · have hdisjoint := (List.nodup_append.mp hnodup).2.2
      exact hdisjoint id (List.mem_map.mpr ⟨_, hmem, rfl⟩) id (List.mem_singleton_self id) rfl
  · exact ⟨_, _, ends_makingScope hnew name, scopeMade_newScope m name⟩

/-- The machine with a scope under the name `self` that holds itself. -/
def Machine.selfish (m : Machine E) : Machine E :=
  { m with
    heap := { scopes := #[{ fields := .ofList [("me", .scope ⟨0⟩)], writes := 1 }] }
    registry := .ofList [("self", ⟨0⟩)] }

/-- A scope that holds itself is written through itself, and the longer path reads what was
written. -/
theorem scope_path_laws_self :
    (Machine.standard (E := .bare) ()).selfish.registry.resolve
      (Machine.standard (E := .bare) ()).selfish.heap "self.me" = some (.scope ⟨0⟩) ∧
    ∃ m' : Machine .bare,
      Host.bare.Ends (writingField "self.me" "age" (.int 7))
        (Machine.standard (E := .bare) ()).selfish (.done () m') ∧
      Host.bare.Ends (·.perform "@self.me.age") m' (.done () (m'.withTop (.int 7))) ∧
      (m'.heap.scope ⟨0⟩).writes = 2 := by
  have hknows : ∀ b, (Machine.standard (E := .bare) ()).selfish.Knows b := fun b =>
    ((Machine.standard_standard (E := .bare) ()).knows b).of_values _ _ _
  have hpath : (Machine.standard (E := .bare) ()).selfish.registry.resolve
      (Machine.standard (E := .bare) ()).selfish.heap "self.me" = some (.scope ⟨0⟩) := rfl
  have hreads : (⟨0⟩, "age") ∉ (Machine.standard (E := .bare) ()).selfish.registry.reads
      (Machine.standard (E := .bare) ()).selfish.heap "self.me" := by decide +kernel
  obtain ⟨m', hwrite, hwritten, -, hread, -⟩ :=
    (scope_path_laws Host.bare (hknows .setField) (hknows .getField) (hknows .newScope)).1
      "self.me" ⟨0⟩ "age" (.int 7) hpath (by decide)
  exact ⟨hpath, m', hwrite, hread (by decide) hreads, hwritten.writes⟩

end Wordstack
