import Wordstack.Vocabulary.Run

/-!
# Words that run no code

All words of the language but `clear` and the five that run quotations do one deed: they look at
their inputs, the heap and the registry, and then either fail, with the machine as it was, or hand
something back and change the heap, the registry and the output.  Nothing else of the machine
matters to them or is touched by them.

* `Deed`, `Exec.IsDeed`: what such a computation can do, and that it does nothing else.
* `Builtin.IsPassive`: the words in question; `Builtin.run_isDeed`: each of them does a deed.
-/

namespace Wordstack

variable {E : Embedding} {α : Type}

/-- What a computation that runs no code can do. -/
inductive Deed (α : Type) where
  /-- It hands back a result, with the heap and the registry after it and the text it wrote. -/
  | made (result : α) (heap : Heap) (registry : Registry) (written : String)
  /-- It fails with the context of the machine. -/
  | failed (cause : Cause)
  /-- It fails without context. -/
  | refused (cause : Cause)

/-- How a deed done on a machine ends. -/
def Deed.on (m : Machine E) : Deed α → Outcome E α
  | made result heap registry written =>
    .done result { m with heap, registry, output := m.output ++ written }
  | failed cause => .raised (m.error cause) m
  | refused cause => .raised { cause } m

namespace Exec

/-- A computation that does a deed, which depends on the heap and the registry only. -/
def IsDeed (x : Exec E α) : Prop :=
  ∃ f : Heap → Registry → Deed α, ∀ m : Machine E, x m = (f m.heap m.registry).on m

/-! ### The steps of a deed -/

theorem isDeed_pure (a : α) : IsDeed (pure a : Exec E α) := by
  refine ⟨fun heap registry => .made a heap registry "", fun m => ?_⟩
  simp only [pure_apply, Deed.on, String.append_empty]

theorem isDeed_raise (cause : Cause) : IsDeed (raise cause : Exec E α) :=
  ⟨fun _ _ => .failed cause, fun _ => rfl⟩

theorem isDeed_raiseBare (cause : Cause) : IsDeed (raiseBare cause : Exec E α) :=
  ⟨fun _ _ => .refused cause, fun _ => rfl⟩

open Classical in
/-- A deed may start with a look at the machine, as long as it looks at nothing but the heap and the
registry. -/
theorem isDeed_machine {k : Machine E → Exec E α}
    (hk : ∀ m m' : Machine E, m.heap = m'.heap → m.registry = m'.registry → k m = k m')
    (h : ∀ m, IsDeed (k m)) : IsDeed (machine >>= k) := by
  -- any machine with the heap and the registry tells what the deed is
  refine ⟨fun heap registry =>
    if hm : ∃ m : Machine E, m.heap = heap ∧ m.registry = registry then
      (h hm.choose).choose heap registry
    else .refused .noSource, fun m => ?_⟩
  have hm : ∃ m' : Machine E, m'.heap = m.heap ∧ m'.registry = m.registry := ⟨m, rfl, rfl⟩
  have hsame : k m m = k hm.choose m := by rw [hk _ m hm.choose_spec.1 hm.choose_spec.2]
  dsimp only
  rw [dif_pos hm, ← (h hm.choose).choose_spec m]
  exact hsame

theorem isDeed_arguments {β : Type} (taking : Taking β) (inputs : List Payload)
    {k : β → Exec E α} (h : ∀ b, IsDeed (k b)) : IsDeed (arguments taking inputs >>= k) := by
  unfold arguments
  cases (taking.run inputs).map (·.1) with
  | error cause => exact isDeed_raiseBare cause
  | ok b => exact h b

theorem isDeed_items (id : ArrayId) {k : List Value → Exec E α} (h : ∀ values, IsDeed (k values)) :
    IsDeed (items id >>= k) :=
  isDeed_machine (k := fun m => k (m.heap.items id)) (fun m m' hh _ => by simp only [hh])
    fun m => h (m.heap.items id)

theorem isDeed_newArray (values : List Value) (k : ArrayId → α) :
    IsDeed (newArray values >>= fun id => pure (k id) : Exec E α) := by
  refine ⟨fun heap registry =>
    .made (k (heap.newArray values).1) (heap.newArray values).2 registry "", fun m => ?_⟩
  simp only [Deed.on, String.append_empty]
  rfl

theorem isDeed_modifyHeap (f : Heap → Heap) (a : α) :
    IsDeed (modifyHeap f >>= fun _ => pure a : Exec E α) := by
  refine ⟨fun heap registry => .made a (f heap) registry "", fun m => ?_⟩
  simp only [Deed.on, String.append_empty]
  rfl

end Exec

namespace Vocabulary

open Exec

/-! ### Stack and output -/

theorem dup_isDeed (inputs : List Payload) : IsDeed (dup inputs : Exec E Returned) :=
  isDeed_arguments _ _ fun _ => isDeed_pure _

theorem drop_isDeed (inputs : List Payload) : IsDeed (drop inputs : Exec E Returned) :=
  isDeed_arguments _ _ fun _ => isDeed_pure _

theorem swap_isDeed (inputs : List Payload) : IsDeed (swap inputs : Exec E Returned) :=
  isDeed_arguments _ _ fun _ => isDeed_pure _

theorem writeWith_isDeed (ending : String) (inputs : List Payload) :
    IsDeed (writeWith ending inputs : Exec E Returned) :=
  isDeed_arguments _ _ fun s =>
    ⟨fun heap registry => .made .nothing heap registry (s ++ ending), fun _ => rfl⟩

/-! ### Arithmetic, comparison and logic -/

theorem arithmetic_isDeed (op : Operation) (inputs : List Payload) :
    IsDeed (arithmetic op inputs : Exec E Returned) := by
  refine isDeed_arguments _ _ fun (a, b) => ?_
  dsimp only
  split
  · exact isDeed_pure _
  · exact isDeed_raise _

theorem equality_isDeed (expected : Bool) (inputs : List Payload) :
    IsDeed (equality expected inputs : Exec E Returned) :=
  isDeed_arguments _ _ fun _ =>
    isDeed_machine (fun _ _ hh _ => by simp only [hh]) fun _ => isDeed_pure _

theorem ordering_isDeed (test : Ordering → Bool) (inputs : List Payload) :
    IsDeed (ordering test inputs : Exec E Returned) := by
  refine isDeed_arguments _ _ fun (a, b) => ?_
  dsimp only
  split
  · exact isDeed_pure _
  · exact isDeed_machine (fun _ _ hh _ => by simp only [hh]) fun _ => isDeed_raise _

theorem logic_isDeed (op : Bool → Bool → Bool) (inputs : List Payload) :
    IsDeed (logic op inputs : Exec E Returned) :=
  isDeed_arguments _ _ fun _ => isDeed_pure _

theorem negation_isDeed (inputs : List Payload) : IsDeed (negation inputs : Exec E Returned) :=
  isDeed_arguments _ _ fun _ => isDeed_pure _

/-! ### Arrays and strings -/

theorem copied_isDeed (combine : List Value → Value → List Value) (inputs : List Payload) :
    IsDeed (copied combine inputs : Exec E Returned) :=
  isDeed_arguments _ _ fun _ => isDeed_items _ fun _ => isDeed_newArray _ _

theorem inPlace_isDeed (combine : List Value → Value → List Value) (inputs : List Payload) :
    IsDeed (inPlace combine inputs : Exec E Returned) :=
  isDeed_arguments _ _ fun _ => isDeed_modifyHeap _ _

theorem concat_isDeed (inputs : List Payload) : IsDeed (concat inputs : Exec E Returned) :=
  isDeed_arguments _ _ fun _ => isDeed_items _ fun _ => isDeed_items _ fun _ => isDeed_newArray _ _

theorem concatInPlace_isDeed (inputs : List Payload) :
    IsDeed (concatInPlace inputs : Exec E Returned) :=
  isDeed_arguments _ _ fun _ => isDeed_modifyHeap _ _

theorem count_isDeed (inputs : List Payload) : IsDeed (count inputs : Exec E Returned) :=
  isDeed_arguments _ _ fun _ => isDeed_items _ fun _ => isDeed_pure _

theorem endElement_isDeed (select : List Value → Option Value) (cause : Cause)
    (inputs : List Payload) : IsDeed (endElement select cause inputs : Exec E Returned) := by
  refine isDeed_arguments _ _ fun id => isDeed_items _ fun values => ?_
  split
  · exact isDeed_pure _
  · exact isDeed_raise _

theorem nth_isDeed (inputs : List Payload) : IsDeed (nth inputs : Exec E Returned) := by
  refine isDeed_arguments _ _ fun (id, index) => isDeed_items _ fun values => ?_
  split
  · exact isDeed_raise _
  · split
    · exact isDeed_pure _
    · exact isDeed_raise _

theorem join_isDeed (inputs : List Payload) : IsDeed (join inputs : Exec E Returned) :=
  isDeed_arguments _ _ fun _ =>
    isDeed_machine (fun _ _ hh _ => by simp only [hh]) fun _ => isDeed_pure _

theorem split_isDeed (inputs : List Payload) : IsDeed (split inputs : Exec E Returned) :=
  isDeed_arguments _ _ fun _ => isDeed_newArray _ _

theorem words_isDeed (inputs : List Payload) : IsDeed (words inputs : Exec E Returned) :=
  isDeed_arguments _ _ fun _ => isDeed_newArray _ _

theorem textConcat_isDeed (inputs : List Payload) : IsDeed (textConcat inputs : Exec E Returned) :=
  isDeed_arguments _ _ fun _ => isDeed_pure _

/-! ### Scopes -/

theorem newScope_isDeed (inputs : List Payload) : IsDeed (newScope inputs : Exec E Returned) := by
  refine isDeed_arguments _ _ fun name => ⟨fun heap registry =>
    .made .nothing heap.newScope.2 (registry.insert name heap.newScope.1) "", fun m => ?_⟩
  simp only [Deed.on, String.append_empty]
  rfl

theorem getScope_isDeed (inputs : List Payload) : IsDeed (getScope inputs : Exec E Returned) := by
  refine isDeed_arguments _ _ fun name =>
    isDeed_machine (fun _ _ _ hr => by simp only [hr]) fun m => ?_
  split
  · exact isDeed_pure _
  · exact isDeed_raise _

theorem setField_isDeed (inputs : List Payload) : IsDeed (setField inputs : Exec E Returned) :=
  isDeed_arguments _ _ fun _ => isDeed_modifyHeap _ _

theorem getField_isDeed (inputs : List Payload) : IsDeed (getField inputs : Exec E Returned) := by
  refine isDeed_arguments _ _ fun (id, key) =>
    isDeed_machine (fun _ _ hh _ => by simp only [hh]) fun m => ?_
  dsimp only
  split
  · exact isDeed_pure _
  · exact isDeed_raise _

theorem adjust_isDeed (id : ScopeId) (key : String) (amount : Int64) :
    IsDeed (adjust id key amount : Exec E Returned) := by
  refine isDeed_machine (fun _ _ hh _ => by simp only [hh]) fun m => ?_
  dsimp only
  split
  · split
    · exact isDeed_modifyHeap _ _
    · exact isDeed_raise _
  · exact isDeed_raise _

theorem increase_isDeed (inputs : List Payload) : IsDeed (increase inputs : Exec E Returned) :=
  isDeed_arguments _ _ fun _ => adjust_isDeed _ _ _

theorem decrease_isDeed (inputs : List Payload) : IsDeed (decrease inputs : Exec E Returned) := by
  refine isDeed_arguments _ _ fun (id, key, amount) => ?_
  dsimp only
  split
  · exact adjust_isDeed _ _ _
  · exact isDeed_raise _

theorem adjustBy_isDeed (amount : Int64) (inputs : List Payload) :
    IsDeed (adjustBy amount inputs : Exec E Returned) :=
  isDeed_arguments _ _ fun _ => adjust_isDeed _ _ _

end Vocabulary

/-! ### The words -/

namespace Builtin

/-- The words that run no code and leave what is below their inputs on the stack. -/
def IsPassive : Builtin → Prop
  | clear | call | choose | times | each | map => False
  | _ => True

open Vocabulary in
/-- **A passive word does a deed**, whatever the engine. -/
theorem run_isDeed {b : Builtin} (h : b.IsPassive) (engine : Engine E) (inputs : List Payload) :
    (b.run engine inputs).IsDeed := by
  cases b with
  | clear | call | choose | times | each | map => exact h.elim
  | dup => exact dup_isDeed _
  | drop => exact drop_isDeed _
  | swap => exact swap_isDeed _
  | add | subtract | multiply | divide => exact arithmetic_isDeed _ _
  | equal | notEqual => exact equality_isDeed _ _
  | less | greater | lessEqual | greaterEqual => exact ordering_isDeed _ _
  | and | or => exact logic_isDeed _ _
  | not => exact negation_isDeed _
  | append | prepend => exact copied_isDeed _ _
  | appendInPlace | prependInPlace => exact inPlace_isDeed _ _
  | concat => exact concat_isDeed _
  | concatInPlace => exact concatInPlace_isDeed _
  | count | length => exact count_isDeed _
  | first | last => exact endElement_isDeed _ _ _
  | nth => exact nth_isDeed _
  | join => exact join_isDeed _
  | split => exact split_isDeed _
  | words => exact words_isDeed _
  | textConcat => exact textConcat_isDeed _
  | newScope => exact newScope_isDeed _
  | getScope => exact getScope_isDeed _
  | setField => exact setField_isDeed _
  | getField => exact getField_isDeed _
  | increase => exact increase_isDeed _
  | decrease => exact decrease_isDeed _
  | increment | decrement => exact adjustBy_isDeed _ _
  | print | puts => exact writeWith_isDeed _ _

/-- A passive word does not look at the engine. -/
theorem run_congr {b : Builtin} (h : b.IsPassive) (engine engine' : Engine E) :
    b.run engine = b.run engine' := by
  cases b with
  | clear | call | choose | times | each | map => exact h.elim
  | _ => rfl

end Builtin

end Wordstack
