import Wordstack.Proofs.Dispatch
import Wordstack.Proofs.Nesting
import Wordstack.Proofs.Paths

/-!
# Words on shared arrays

An array is shared by everything that holds it: other arrays, scopes, the stack, code that is being
executed, and the array itself.  The words on arrays are operations on lists nevertheless, whatever
shares the arrays they are given.  A word that makes an array leaves every array as it was, a word
that changes an array leaves every other array as it was, and a word that selects an element changes
nothing.  Of the other words, only those that run code can change an array.

* `ArrayMade`, `ArrayChanged`: all that a new array, or a changed one, does and leaves alone.
* `Builtin.Combines`: which elements the words that make and change arrays give to them.
* `Builtin.Selects`: which element of an array a word selects, if any.
* `Exec.Spares`: a computation that leaves every array as it was, with one lemma for each operation.
-/

namespace Wordstack

variable {E : Embedding} {α β : Type}

/-- What a new array on top of the stack makes of a machine. -/
structure ArrayMade (m m' : Machine E) (new : ArrayId) (values : List Value) : Prop where
  fresh : m.heap.arrays.size ≤ new.index ∧ new.index < m'.heap.arrays.size
  items : m'.heap.items new = values
  /-- Every array and every scope that was there is as it was. -/
  grows : m.heap.Grows m'.heap
  /-- Nothing but the stack and the heap has changed. -/
  rest : m' = { m with stack := .array new :: m.stack, heap := m'.heap }

/-- What other elements of an array make of a machine. -/
structure ArrayChanged (m m' : Machine E) (id : ArrayId) (values : List Value) : Prop where
  items : m'.heap.items id = values
  others : ∀ other, other ≠ id → m'.heap.items other = m.heap.items other
  size : m'.heap.arrays.size = m.heap.arrays.size
  scopes : m'.heap.scopes = m.heap.scopes
  /-- Nothing but the heap has changed. -/
  rest : m' = { m with heap := m'.heap }

/-- The machine with a new array on top of its stack. -/
def Machine.withArray (m : Machine E) (values : List Value) : Machine E :=
  { m with
    stack := .array (m.heap.newArray values).1 :: m.stack
    heap := (m.heap.newArray values).2 }

theorem arrayMade_withArray (m : Machine E) (values : List Value) :
    ArrayMade m (m.withArray values) (m.heap.newArray values).1 values where
  fresh := by simp [Machine.withArray, Heap.newArray]
  items := Heap.items_newArray_self _ _
  grows := .newArray _ _
  rest := rfl

theorem arrayChanged_setItems (m : Machine E) {id : ArrayId} (h : id.index < m.heap.arrays.size)
    (values : List Value) :
    ArrayChanged m { m with heap := m.heap.setItems id values } id values where
  items := Heap.items_setItems_self h values
  others := fun _ hother => Heap.items_setItems_of_ne hother values
  size := by simp [Heap.setItems]
  scopes := rfl
  rest := rfl

open Exec

/-! ### Running a word on its inputs -/

/-- One level of fuel is enough for a word that does not look at the engine. -/
theorem Host.ends_word {host : Host E} {m : Machine E} {b : Builtin} {o : Outcome E Unit}
    (hm : m.Knows b) (ho : o ≠ .exhausted) (h : ∀ engine : Engine E, b.perform engine m = o) :
    host.Ends (·.execute (.word b.name)) m o := by
  refine Host.ends_of_succ ho fun fuel => ?_
  change host.performWith (host.engine fuel) b.name m = o
  rw [hm.performWith, h]

namespace Builtin

variable {b : Builtin} {engine : Engine E} {m : Machine E} {inputs : List Value}
  {payloads : List Payload}

theorem perform_of_raised (cause : Cause)
    (htake : takeInputs (b.entry 0) { m with stack := inputs ++ m.stack } = .done payloads m)
    (hrun : b.run engine payloads (m.entering b.name) =
      .raised ((m.entering b.name).error cause) (m.entering b.name)) :
    b.perform engine { m with stack := inputs ++ m.stack } =
      .raised ((m.entering b.name).error cause) m := by
  rw [perform, bind_of_done htake, within_apply]
  change ((withContext (b.run engine payloads) >>= pushOutputs (b.entry 0))
    (m.entering b.name)).mapMachine Machine.leaving = _
  rw [bind_of_raised (withContext_of_raised hrun)]
  rfl

/-- A word that changes nothing itself ends once what it returns is pushed. -/
theorem perform_of_pushed {returned : Returned} {n : Machine E}
    (htake : takeInputs (b.entry 0) { m with stack := inputs ++ m.stack } = .done payloads m)
    (hrun : b.run engine payloads (m.entering b.name) = .done returned (m.entering b.name))
    (hpush : pushOutputs (b.entry 0) returned (m.entering b.name) =
      .done () (n.entering b.name)) :
    b.perform engine { m with stack := inputs ++ m.stack } = .done () n := by
  rw [perform, bind_of_done htake, within_apply]
  change ((withContext (b.run engine payloads) >>= pushOutputs (b.entry 0))
    (m.entering b.name)).mapMachine Machine.leaving = _
  rw [bind_of_done (withContext_of_done hrun), hpush]
  rfl

/-- A word that returns the value itself leaves it on the stack. -/
theorem perform_of_value {v : Value} (hb : b.effect.outputs = [anyValue])
    (htake : takeInputs (b.entry 0) { m with stack := inputs ++ m.stack } = .done payloads m)
    (hrun : b.run engine payloads (m.entering b.name) =
      .done (.one (.tagged v)) (m.entering b.name)) :
    b.perform engine { m with stack := inputs ++ m.stack } = .done () (m.withTop v) := by
  have hpush : pushOutputs (b.entry 0) (.one (.tagged v)) (m.entering b.name) =
      .done () ((m.withTop v).entering b.name) := by
    change (do
      let payloads ← withContext (ofExcept (Returned.payloads _ b.effect.outputs.length))
      pushPayloads b.effect.outputs payloads : Exec E Unit) _ = _
    rw [hb]
    rfl
  exact perform_of_pushed htake hrun hpush

end Builtin

/-! ### Arrays made and changed -/

namespace Builtin

/-- A word that makes an array, the word that changes the first of its arrays instead, the inputs of
either, top first, that first array, and the elements it is all about. -/
inductive Combines (heap : Heap) :
    Builtin → Builtin → List Value → ArrayId → List Value → Prop
  | append (id : ArrayId) (v : Value) :
      Combines heap .append .appendInPlace [v, .array id] id (heap.items id ++ [v])
  | prepend (id : ArrayId) (v : Value) :
      Combines heap .prepend .prependInPlace [v, .array id] id (v :: heap.items id)
  | concat (first second : ArrayId) :
      Combines heap .concat .concatInPlace [.array second, .array first] first
        (heap.items first ++ heap.items second)

variable {maker changer : Builtin} {inputs values : List Value} {id : ArrayId} {m : Machine E}

theorem Combines.perform_maker (h : Combines m.heap maker changer inputs id values)
    (engine : Engine E) :
    maker.perform engine { m with stack := inputs ++ m.stack } = .done () (m.withArray values) := by
  cases h with
  | append => rfl
  | prepend => rfl
  | concat => rfl

theorem Combines.perform_changer (h : Combines m.heap maker changer inputs id values)
    (engine : Engine E) :
    changer.perform engine { m with stack := inputs ++ m.stack } =
      .done () { m with heap := m.heap.setItems id values } := by
  cases h with
  | append => rfl
  | prepend => rfl
  | concat => rfl

/-! ### Elements selected -/

/-- The element of an array that a word selects, given the inputs above the array; if there is none,
the word fails.  The index of an element counts from the start, or back from the end. -/
inductive Selects (values : List Value) : Builtin → List Value → Option Value → Prop
  | first : Selects values .first [] values.head?
  | last : Selects values .last [] values.getLast?
  | inside {index : Int64} {k : Nat} (hk : k < values.length)
      (hindex : index.toInt = k ∨ values.length + index.toInt = k) :
      Selects values .nth [.int index] values[k]?
  | outside {index : Int64}
      (hindex : index.toInt < -values.length ∨ values.length ≤ index.toInt) :
      Selects values .nth [.int index] none

/-- Every index selects an element or none. -/
theorem exists_selects_nth (values : List Value) (index : Int64) :
    ∃ found, nth.Selects values [.int index] found := by
  by_cases hout : index.toInt < -values.length ∨ values.length ≤ index.toInt
  · exact ⟨none, .outside hout⟩
  · by_cases hneg : index.toInt < 0
    · obtain ⟨k, hk⟩ : ∃ k : Nat, values.length + index.toInt = k :=
        ⟨(values.length + index.toInt).toNat, by omega⟩
      exact ⟨_, .inside (by omega) (.inr hk)⟩
    · obtain ⟨k, hk⟩ : ∃ k : Nat, index.toInt = k := ⟨index.toInt.toNat, by omega⟩
      exact ⟨_, .inside (by omega) (.inl hk)⟩

end Builtin

theorem position?_of_inside {size k : Nat} {index : Int} (hk : k < size)
    (h : index = k ∨ size + index = k) : position? size index = some k := by
  have hplace : (if index < 0 then size + index else index) = k := by
    split <;> omega
  unfold position?
  dsimp only
  rw [hplace, if_pos (by omega), Int.toNat_natCast]

theorem position?_of_outside {size : Nat} {index : Int} (h : index < -size ∨ size ≤ index) :
    position? size index = none := by
  unfold position?
  dsimp only
  rw [if_neg]
  split <;> omega

namespace Vocabulary

variable {m : Machine E} {id : ArrayId} {v : Value}

theorem arguments_array (m : Machine E) (id : ArrayId) :
    arguments Taking.array [.array id] m = .done id m := rfl

theorem arguments_nth (m : Machine E) (id : ArrayId) (index : Int64) :
    arguments (do return (← Taking.array, ← Taking.int)) [.array id, .int index] m =
      .done (id, index) m := rfl

theorem items_apply (m : Machine E) (id : ArrayId) :
    items id m = .done (m.heap.items id) m := rfl

theorem endElement_of_some {select : List Value → Option Value} (cause : Cause)
    (h : select (m.heap.items id) = some v) :
    endElement select cause [.array id] m = .done (.one (.tagged v)) m := by
  rw [endElement, bind_of_done (arguments_array m id), bind_of_done (items_apply m id), h]
  rfl

theorem endElement_of_none {select : List Value → Option Value} (cause : Cause)
    (h : select (m.heap.items id) = none) :
    endElement select cause [.array id] m = .raised (m.error cause) m := by
  rw [endElement, bind_of_done (arguments_array m id), bind_of_done (items_apply m id), h]
  rfl

theorem nth_of_inside {index : Int64} {k : Nat} (hv : (m.heap.items id)[k]? = some v)
    (h : position? (m.heap.items id).length index.toInt = some k) :
    nth [.array id, .int index] m = .done (.one (.tagged v)) m := by
  rw [nth, bind_of_done (arguments_nth m id index)]
  dsimp only
  rw [bind_of_done (items_apply m id), h]
  dsimp only
  rw [hv]
  rfl

theorem nth_of_outside {index : Int64}
    (h : position? (m.heap.items id).length index.toInt = none) :
    nth [.array id, .int index] m =
      .raised (m.error (.outOfBounds index (m.heap.items id).length)) m := by
  rw [nth, bind_of_done (arguments_nth m id index)]
  dsimp only
  rw [bind_of_done (items_apply m id), h]
  rfl

end Vocabulary

/-- How a word ends that was to select an element. -/
inductive Selected (m : Machine E) : Option Value → Outcome E Unit → Prop
  | found (v : Value) : Selected m (some v) (.done () (m.withTop v))
  | missing {e : Error} (kind : e.kind = .runtime) : Selected m none (.raised e m)

namespace Builtin

variable {b : Builtin} {above : List Value} {found : Option Value} {m : Machine E} {id : ArrayId}

/-- A word that returns an end of an array selects it. -/
theorem perform_endElement {select : List Value → Option Value} {cause : Cause}
    (hb : b.effect.outputs = [anyValue])
    (htake : takeInputs (b.entry 0) { m with stack := [.array id] ++ m.stack } =
      .done [.array id] m)
    (hrun : ∀ engine : Engine E, b.run engine = Vocabulary.endElement select cause)
    (hkind : cause.kind = .runtime) :
    ∃ o, (∀ engine : Engine E,
      b.perform engine { m with stack := [.array id] ++ m.stack } = o) ∧
      Selected m (select (m.heap.items id)) o := by
  cases hv : select (m.heap.items id) with
  | some v =>
    refine ⟨_, fun engine => perform_of_value hb htake ?_, .found v⟩
    rw [hrun]
    exact Vocabulary.endElement_of_some cause hv
  | none =>
    refine ⟨_, fun engine => perform_of_raised cause htake ?_, .missing hkind⟩
    rw [hrun]
    exact Vocabulary.endElement_of_none cause hv

theorem takeInputs_nth (m : Machine E) (id : ArrayId) (index : Int64) :
    takeInputs (nth.entry 0) { m with stack := [.int index, .array id] ++ m.stack } =
      .done [.array id, .int index] m := rfl

/-- A word that selects an element ends with the element or an error, whatever the engine. -/
theorem Selects.perform (h : b.Selects (m.heap.items id) above found) :
    ∃ o, (∀ engine : Engine E,
      b.perform engine { m with stack := above ++ .array id :: m.stack } = o) ∧
      Selected m found o := by
  cases h with
  | first => exact perform_endElement rfl rfl (fun _ => rfl) rfl
  | last => exact perform_endElement rfl rfl (fun _ => rfl) rfl
  | @inside index k hk hindex =>
    have hv : (m.heap.items id)[k]? = some (m.heap.items id)[k] := List.getElem?_eq_getElem hk
    rw [hv]
    refine ⟨_, fun engine => perform_of_value rfl (takeInputs_nth m id index) ?_, .found _⟩
    exact Vocabulary.nth_of_inside hv (position?_of_inside hk hindex)
  | @outside index hindex =>
    refine ⟨_, fun engine => perform_of_raised (.outOfBounds index (m.heap.items id).length)
      (takeInputs_nth m id index) ?_, .missing rfl⟩
    exact Vocabulary.nth_of_outside (position?_of_outside hindex)

end Builtin

/-! ### Words that leave every array as it was -/

/-- A heap on which every array that was there is as it was; there may be new arrays, and the scopes
may be different. -/
structure Heap.SparesArrays (old new : Heap) : Prop where
  size_le : old.arrays.size ≤ new.arrays.size
  items : ∀ id : ArrayId, id.index < old.arrays.size → new.items id = old.items id

namespace Heap.SparesArrays

theorem of_arrays {old new : Heap} (h : new.arrays = old.arrays) : old.SparesArrays new where
  size_le := by simp [h]
  items := by
    intro id _
    rw [Heap.items, Heap.items, h]

theorem refl (heap : Heap) : heap.SparesArrays heap :=
  of_arrays rfl

theorem trans {a b c : Heap} (h1 : a.SparesArrays b) (h2 : b.SparesArrays c) :
    a.SparesArrays c where
  size_le := Nat.le_trans h1.size_le h2.size_le
  items := by
    intro id hid
    rw [h2.items id (Nat.lt_of_lt_of_le hid h1.size_le), h1.items id hid]

theorem newArray (heap : Heap) (values : List Value) :
    heap.SparesArrays (heap.newArray values).2 :=
  ⟨(Grows.newArray heap values).size_le, (Grows.newArray heap values).items⟩

end Heap.SparesArrays

namespace Exec

/-- A computation that leaves every array as it was, however it ends. -/
def Spares (x : Exec E α) : Prop :=
  ∀ m : Machine E, (x m).Leaves fun m' => m.heap.SparesArrays m'.heap

theorem spares_pure (a : α) : Spares (pure a : Exec E α) :=
  fun m => .refl m.heap

theorem spares_raise (cause : Cause) : Spares (raise cause : Exec E α) :=
  fun m => .refl m.heap

theorem spares_bind {x : Exec E α} {f : α → Exec E β} (hx : Spares x) (hf : ∀ a, Spares (f a)) :
    Spares (x >>= f) := by
  intro m
  have h := hx m
  cases hxm : x m with
  | done a m' =>
    rw [hxm] at h
    rw [bind_of_done hxm]
    exact (hf a m').mono fun m'' h' => Heap.SparesArrays.trans h h'
  | raised e m' =>
    rw [hxm] at h
    rw [bind_of_raised hxm]
    exact h
  | exhausted =>
    rw [bind_of_exhausted hxm]
    trivial

theorem spares_machine {k : Machine E → Exec E α} (hk : ∀ m, Spares (k m)) :
    Spares (machine >>= k) :=
  fun m => hk m m

theorem spares_ofExcept (result : Except Cause α) : Spares (ofExcept result : Exec E α) := by
  cases result with
  | ok a => exact spares_pure a
  | error cause => exact fun m => .refl m.heap

theorem spares_arguments (taking : Taking β) (inputs : List Payload) {k : β → Exec E α}
    (hk : ∀ b, Spares (k b)) : Spares (arguments taking inputs >>= k) :=
  spares_bind (spares_ofExcept _) hk

theorem spares_items (id : ArrayId) {k : List Value → Exec E α} (hk : ∀ values, Spares (k values)) :
    Spares (items id >>= k) :=
  spares_machine fun m => hk (m.heap.items id)

/-- A change of the machine that leaves the arrays of its heap alone. -/
theorem spares_modify {f : Machine E → Machine E} (hf : ∀ m, (f m).heap.arrays = m.heap.arrays) :
    Spares (modify f) :=
  fun m => .of_arrays (hf m)

theorem spares_returnArray (values : List Value) :
    Spares (Vocabulary.returnArray values : Exec E Returned) :=
  fun m => .newArray m.heap values

theorem spares_withContext {x : Exec E α} (hx : Spares x) : Spares (withContext x) := by
  intro m
  have h := hx m
  cases hxm : x m with
  | done a m' => rw [hxm] at h; rw [withContext_of_done hxm]; exact h
  | raised e m' => rw [hxm] at h; rw [withContext_of_raised hxm]; exact h
  | exhausted => rw [withContext_of_exhausted hxm]; trivial

theorem spares_within (name : String) {x : Exec E α} (hx : Spares x) : Spares (within name x) := by
  intro m
  rw [within_apply]
  exact (hx { m with calls := name :: m.calls }).mapMachine fun _ h => h

theorem spares_takeInputs (word : Entry) : Spares (takeInputs word : Exec E (List Payload)) := by
  intro m
  unfold takeInputs
  dsimp only
  split
  · exact .refl m.heap
  · split
    · exact .refl m.heap
    · exact .refl m.heap

theorem spares_pushPayloads (slots : List Slot) (payloads : List Payload) :
    Spares (pushPayloads slots payloads : Exec E Unit) := by
  induction slots generalizing payloads with
  | nil => cases payloads <;> exact spares_pure _
  | cons slot slots ih =>
    cases payloads with
    | nil => exact spares_pure _
    | cons payload payloads =>
      exact spares_machine fun m => spares_bind (spares_withContext (spares_ofExcept _))
        fun value => spares_bind (spares_modify fun _ => rfl) fun _ => ih payloads

theorem spares_pushOutputs (word : Entry) (returned : Returned) :
    Spares (pushOutputs word returned : Exec E Unit) :=
  spares_bind (spares_withContext (spares_ofExcept _)) fun payloads =>
    spares_pushPayloads _ payloads

end Exec

namespace Vocabulary

theorem arithmetic_spares (op : Operation) (inputs : List Payload) :
    (arithmetic op inputs : Exec E Returned).Spares := by
  refine spares_arguments _ _ fun (a, b) => ?_
  dsimp only
  split
  · exact spares_pure _
  · exact spares_raise _

theorem ordering_spares (test : Ordering → Bool) (inputs : List Payload) :
    (ordering test inputs : Exec E Returned).Spares := by
  refine spares_arguments _ _ fun (a, b) => ?_
  dsimp only
  split
  · exact spares_pure _
  · exact spares_machine fun _ => spares_raise _

theorem endElement_spares (select : List Value → Option Value) (cause : Cause)
    (inputs : List Payload) : (endElement select cause inputs : Exec E Returned).Spares := by
  refine spares_arguments _ _ fun id => spares_items _ fun values => ?_
  split
  · exact spares_pure _
  · exact spares_raise _

theorem nth_spares (inputs : List Payload) : (nth inputs : Exec E Returned).Spares := by
  refine spares_arguments _ _ fun (id, index) => spares_items _ fun values => ?_
  split
  · exact spares_raise _
  · split
    · exact spares_pure _
    · exact spares_raise _

theorem getScope_spares (inputs : List Payload) : (getScope inputs : Exec E Returned).Spares := by
  refine spares_arguments _ _ fun name => spares_machine fun m => ?_
  split
  · exact spares_pure _
  · exact spares_raise _

theorem getField_spares (inputs : List Payload) : (getField inputs : Exec E Returned).Spares := by
  refine spares_arguments _ _ fun (id, key) => spares_machine fun m => ?_
  dsimp only
  split
  · exact spares_pure _
  · exact spares_raise _

theorem adjust_spares (id : ScopeId) (key : String) (amount : Int64) :
    (adjust id key amount : Exec E Returned).Spares := by
  refine spares_machine fun m => ?_
  dsimp only
  split
  · split
    · exact spares_bind (spares_modify fun _ => rfl) fun _ => spares_pure _
    · exact spares_raise _
  · exact spares_raise _

theorem decrease_spares (inputs : List Payload) : (decrease inputs : Exec E Returned).Spares := by
  refine spares_arguments _ _ fun (id, key, amount) => ?_
  dsimp only
  split
  · exact adjust_spares _ _ _
  · exact spares_raise _

end Vocabulary

namespace Builtin

/-- The words that change an array they are given. -/
def changers : List Builtin :=
  [appendInPlace, prependInPlace, concatInPlace]

open Vocabulary in
/-- **A word leaves every array as it was**, unless it is to change one or runs code. -/
theorem run_spares {b : Builtin} (hchanger : b ∉ changers) (hcontrol : b ∉ controlWords)
    (engine : Engine E) (inputs : List Payload) : (b.run engine inputs).Spares := by
  cases b with
  | appendInPlace | prependInPlace | concatInPlace => exact absurd (by decide) hchanger
  | call | choose | times | each | map => exact absurd (by decide) hcontrol
  | clear => exact spares_bind (spares_modify fun _ => rfl) fun _ => spares_pure _
  | dup | drop | swap | and | or | not | textConcat =>
    exact spares_arguments _ _ fun _ => spares_pure _
  | add | subtract | multiply | divide => exact arithmetic_spares _ _
  | equal | notEqual | join =>
    exact spares_arguments _ _ fun _ => spares_machine fun _ => spares_pure _
  | less | greater | lessEqual | greaterEqual => exact ordering_spares _ _
  | append | prepend =>
    exact spares_arguments _ _ fun _ => spares_items _ fun _ => spares_returnArray _
  | concat =>
    exact spares_arguments _ _ fun _ => spares_items _ fun _ => spares_items _ fun _ =>
      spares_returnArray _
  | count | length => exact spares_arguments _ _ fun _ => spares_items _ fun _ => spares_pure _
  | first | last => exact endElement_spares _ _ _
  | nth => exact nth_spares _
  | split | words => exact spares_arguments _ _ fun _ => spares_returnArray _
  | newScope =>
    refine spares_arguments _ _ fun _ => spares_bind (fun m => .of_arrays rfl) fun _ => ?_
    exact spares_bind (spares_modify fun _ => rfl) fun _ => spares_pure _
  | getScope => exact getScope_spares _
  | setField | print | puts =>
    exact spares_arguments _ _ fun _ => spares_bind (spares_modify fun _ => rfl) fun _ =>
      spares_pure _
  | getField => exact getField_spares _
  | increase | increment | decrement => exact spares_arguments _ _ fun _ => adjust_spares _ _ _
  | decrease => exact decrease_spares _

theorem perform_spares {b : Builtin} (hchanger : b ∉ changers) (hcontrol : b ∉ controlWords)
    (engine : Engine E) : (b.perform engine).Spares :=
  spares_bind (spares_takeInputs _) fun inputs => spares_within _ <|
    spares_bind (spares_withContext (run_spares hchanger hcontrol engine inputs)) fun returned =>
      spares_pushOutputs _ returned

end Builtin

/-- **The words on arrays are operations on lists.**  Take any state of a machine that knows the
words, however its arrays share and hold each other or themselves.  The words that combine elements
make a new array of them and change nothing that was there, or they change the first of their
arrays, if it is on the heap, and nothing else; the other array they read is read as it was before,
also if it is the same.  The number of elements is their number.  The words that select an element
leave it on the stack or report that there is none, and every index is one or the other.  Every
other word that runs no code leaves every array as it was. -/
theorem array_words_on_lists (host : Host E) {m : Machine E} (hm : ∀ b : Builtin, m.Knows b) :
    (∀ maker changer inputs id values,
      Builtin.Combines m.heap maker changer inputs id values →
      (∃ m' new, host.Ends (·.execute (.word maker.name))
          { m with stack := inputs ++ m.stack } (.done () m') ∧ ArrayMade m m' new values) ∧
      (id.index < m.heap.arrays.size → ∃ m', host.Ends (·.execute (.word changer.name))
          { m with stack := inputs ++ m.stack } (.done () m') ∧ ArrayChanged m m' id values)) ∧
    (∀ b : Builtin, b = .count ∨ b = .length → ∀ id,
      host.Ends (·.execute (.word b.name)) { m with stack := .array id :: m.stack }
        (.done () (m.withTop (.int (.ofNat (m.heap.items id).length)))) ∧
      ((m.heap.items id).length ≤ Int64.maxValue.toInt →
        (Int64.ofNat (m.heap.items id).length).toInt = (m.heap.items id).length)) ∧
    (∀ (b : Builtin) id above found, b.Selects (m.heap.items id) above found →
      ∃ o, host.Ends (·.execute (.word b.name))
        { m with stack := above ++ .array id :: m.stack } o ∧ Selected m found o) ∧
    (∀ id index, ∃ found, Builtin.nth.Selects (m.heap.items id) [.int index] found) ∧
    (∀ b, b ∉ Builtin.changers → b ∉ Builtin.controlWords → ∀ fuel,
      ((host.engine fuel).execute (.word b.name) m).Leaves fun m' =>
        ∀ id : ArrayId, id.index < m.heap.arrays.size → m'.heap.items id = m.heap.items id) := by
  refine ⟨fun maker changer inputs id values h => ⟨?_, fun hid => ?_⟩, fun b hb id => ?_,
    fun b id above found h => ?_, fun id => Builtin.exists_selects_nth _,
    fun b hchanger hcontrol fuel => ?_⟩
  · refine ⟨_, _, ?_, arrayMade_withArray m values⟩
    exact Host.ends_word ((hm maker).of_values _ _ _) nofun h.perform_maker
  · refine ⟨_, ?_, arrayChanged_setItems m hid values⟩
    exact Host.ends_word ((hm changer).of_values _ _ _) nofun h.perform_changer
  · refine ⟨?_, fun hle => Int64.toInt_ofNat_of_lt ?_⟩
    · refine Host.ends_word ((hm b).of_values _ _ _) nofun fun engine => ?_
      rcases hb with rfl | rfl <;> rfl
    · have hmax : Int64.maxValue.toInt = 9223372036854775807 := rfl
      omega
  · obtain ⟨o, hperform, hselected⟩ := h.perform (E := E)
    refine ⟨o, Host.ends_word ((hm b).of_values _ _ _) (fun ho => ?_) hperform, hselected⟩
    subst ho
    cases hselected
  · cases fuel with
    | zero => trivial
    | succ fuel =>
      change (host.performWith (host.engine fuel) b.name m).Leaves _
      rw [(hm b).performWith]
      exact (Builtin.perform_spares hchanger hcontrol (host.engine fuel) m).mono fun _ h => h.items

/-- An array that holds itself, concatenated to itself in place. -/
theorem array_words_on_lists_self :
    ∃ m' : Machine .bare,
      Host.bare.Ends (·.execute (.word "concat!"))
        { (Machine.standard (E := .bare) ()).holding [] [.int 1, .array ⟨0⟩] with
          stack := [.array ⟨0⟩, .array ⟨0⟩] } (.done () m') ∧
      m'.heap.items ⟨0⟩ = [.int 1, .array ⟨0⟩, .int 1, .array ⟨0⟩] ∧ m'.stack = [] := by
  have hm := (Machine.standard_standard (E := .bare) ()).holding [] [.int 1, .array ⟨0⟩]
  obtain ⟨-, hchanges⟩ := (array_words_on_lists Host.bare hm.knows).1 _ _ _ _ _ (.concat ⟨0⟩ ⟨0⟩)
  obtain ⟨m', hends, hchanged⟩ := hchanges (by decide)
  refine ⟨m', hends, hchanged.items, ?_⟩
  rw [hchanged.rest]
  rfl

end Wordstack
