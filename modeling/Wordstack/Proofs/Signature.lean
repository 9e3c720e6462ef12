import Mathlib.Data.List.Forall2
import Wordstack.Proofs.Deed
import Wordstack.Proofs.Standard

/-!
# Words keep to their declarations

What a word of the language asks of its inputs and what it hands back agree with its declaration, so
that neither taking the inputs nor pushing the outputs ever finds fault with the word itself.

* `Slot.Passes`, `Slot.Takes`: the payloads that a slot passes to a word and takes from it.
* `Taking.Reads`: a word asks for inputs as they were declared.
* `Cause.IsInternal`, `Exec.Yields`: nothing but a promised result or an error a script is to blame
  for.
* `takeInputs_cases`, `pushOutputs_of_meets`: what happens on the way in and on the way out.
* `Builtin.run_yields`: a word that runs no code hands back what it declared.
-/

namespace Wordstack

variable {E : Embedding} {α β : Type}

/-! ### Errors that no script is to blame for -/

namespace Cause

/-- The interpreter itself is at fault: a word broke its declaration, an entry points at no handler,
a parse lost its reader or its accumulator, or a checked index found no element. -/
def IsInternal : Cause → Prop
  | badDeclaration .. | missingArgument _ | wrongArgument .. | wrongCount .. | unfitEscaped ..
  | unfitOutput .. => True
  | missingHandler .. | noSource | noLexer | noAccumulator | noElement _ => True
  | host kind _ => kind = .invalidSignature
  | inWord _ cause => cause.IsInternal
  | _ => False

/-- Every broken declaration is internal. -/
theorem isInternal_of_kind {cause : Cause} (h : cause.kind = .invalidSignature) :
    cause.IsInternal := by
  induction cause with
  | inWord name cause ih => exact ih h
  | host kind message => exact h
  | badDeclaration | missingArgument | wrongArgument | wrongCount | unfitEscaped | unfitOutput =>
    trivial
  | _ => cases h

end Cause

namespace Outcome

/-- A result is as said, and an error is not internal. -/
def Sound (Q : α → Prop) : Outcome E α → Prop
  | done a _ => Q a
  | raised e _ => ¬e.cause.IsInternal
  | exhausted => True

end Outcome

/-- A context leaves an error as internal as it was. -/
theorem Machine.isInternal_addContext (m : Machine E) (e : Error) :
    (m.addContext e).cause.IsInternal ↔ e.cause.IsInternal := by
  unfold addContext
  split
  · exact Iff.rfl
  · exact Iff.rfl

namespace Exec

/-- However the computation ends, on whatever machine, a result is as said, and an error is not
internal. -/
def Yields (Q : α → Prop) (x : Exec E α) : Prop :=
  ∀ m : Machine E, (x m).Sound Q

theorem yields_pure {Q : α → Prop} {a : α} (h : Q a) : Yields Q (pure a : Exec E α) :=
  fun _ => h

theorem yields_raise {Q : α → Prop} {cause : Cause} (h : ¬cause.IsInternal) :
    Yields Q (raise cause : Exec E α) :=
  fun _ => h

theorem yields_machine {Q : α → Prop} {k : Machine E → Exec E α} (h : ∀ m, Yields Q (k m)) :
    Yields Q (machine >>= k) :=
  fun m => h m m

theorem yields_items {Q : α → Prop} (id : ArrayId) {k : List Value → Exec E α}
    (h : ∀ values, Yields Q (k values)) : Yields Q (items id >>= k) :=
  yields_machine fun m => h (m.heap.items id)

/-- Changing the machine does not fail. -/
theorem yields_modify {Q : α → Prop} (f : Machine E → Machine E) {k : Exec E α} (h : Yields Q k) :
    Yields Q (modify f >>= fun _ => k) :=
  fun m => h (f m)

theorem yields_newArray {Q : α → Prop} (values : List Value) {k : ArrayId → Exec E α}
    (h : ∀ id, Yields Q (k id)) : Yields Q (newArray values >>= k) :=
  fun m => h _ { m with heap := (m.heap.newArray values).2 }

theorem yields_push (value : Value) : Yields (fun _ => True) (push value : Exec E Unit) :=
  fun _ => trivial

theorem yields_pop : Yields (fun _ => True) (pop : Exec E Value) := by
  intro m
  unfold pop
  split
  · exact not_false
  · trivial

theorem yields_accumulate (value : Value) :
    Yields (fun _ => True) (accumulate value : Exec E Unit) := by
  intro m
  unfold accumulate
  split
  · exact not_false
  · trivial

end Exec

/-! ### The way in -/

/-- The payloads that an input slot makes of the values it accepts. -/
def Slot.Passes (slot : Slot) (payload : Payload) : Prop :=
  ∃ value, slot.spec.accepts value = true ∧ payload = .ofValue slot value

namespace Taking

open Builtin

/-- The inputs are taken as they were declared: from what the slots pass, each is as asked for. -/
def Reads (slots : List Slot) (taking : Taking α) : Prop :=
  ∀ inputs rest : List Payload, List.Forall₂ Slot.Passes slots inputs →
    ∃ a, taking.run (inputs ++ rest) = .ok (a, rest)

theorem reads_pure (a : α) : Reads [] (pure a : Taking α) := by
  intro inputs rest h
  cases h
  exact ⟨a, rfl⟩

theorem reads_bind {slot : Slot} {slots : List Slot} {taking : Taking β} {k : β → Taking α}
    (h : Reads [slot] taking) (hk : ∀ b, Reads slots (k b)) :
    Reads (slot :: slots) (taking >>= k) := by
  intro inputs rest hinputs
  cases hinputs with
  | @cons _ input _ inputs hinput hinputs =>
    obtain ⟨b, hb⟩ := h [input] (inputs ++ rest) (.cons hinput .nil)
    obtain ⟨a, ha⟩ := hk b inputs rest hinputs
    refine ⟨a, ?_⟩
    rw [List.singleton_append] at hb
    rw [List.cons_append, StateT.run_bind, hb]
    exact ha

theorem reads_next {slot : Slot} {wanted : String} {read : Payload → Option α}
    (h : ∀ value, slot.spec.accepts value = true → (read (.ofValue slot value)).isSome) :
    Reads [slot] (next wanted read) := by
  intro inputs rest hinputs
  cases hinputs with
  | cons hinput hinputs =>
    cases hinputs
    obtain ⟨value, haccepts, rfl⟩ := hinput
    obtain ⟨a, ha⟩ := Option.isSome_iff_exists.mp (h value haccepts)
    refine ⟨a, ?_⟩
    simp only [List.cons_append, List.nil_append, StateT.run, next, ha]

/-! Each way to take an input fits the slots it is used with. -/

theorem reads_value : Reads [anyValue] value :=
  reads_next fun _ _ => rfl

theorem reads_anything : Reads [anything] value :=
  reads_next fun _ _ => rfl

theorem reads_number : Reads [numeric] number :=
  reads_next fun v h => by cases v <;> first | rfl | cases h

theorem reads_int : Reads [typed .integer] int :=
  reads_next fun v h => by cases v <;> first | rfl | cases h

theorem reads_bool : Reads [typed .boolean] bool :=
  reads_next fun v h => by cases v <;> first | rfl | cases h

theorem reads_text : Reads [typed .string] text :=
  reads_next fun v h => by cases v <;> first | rfl | cases h

theorem reads_array : Reads [typed .array] array :=
  reads_next fun v h => by cases v <;> first | rfl | cases h

theorem reads_scope : Reads [typed .scope] scope :=
  reads_next fun v h => by cases v <;> first | rfl | cases h

/-- Two inputs taken one after the other. -/
theorem reads_pair {slot slot' : Slot} {a : Taking α} {b : Taking β} (ha : Reads [slot] a)
    (hb : Reads [slot'] b) : Reads [slot, slot'] (do return (← a, ← b)) :=
  reads_bind ha fun _ => reads_bind hb fun _ => reads_pure _

/-- Three inputs taken one after the other. -/
theorem reads_triple {γ : Type} {slot slot' slot'' : Slot} {a : Taking α} {b : Taking β}
    {c : Taking γ} (ha : Reads [slot] a) (hb : Reads [slot'] b) (hc : Reads [slot''] c) :
    Reads [slot, slot', slot''] (do return (← a, ← b, ← c)) :=
  reads_bind ha fun _ => reads_bind hb fun _ => reads_bind hc fun _ => reads_pure _

/-- Inputs taken as they were declared are there. -/
theorem Reads.arguments {slots : List Slot} {taking : Taking α} (h : Reads slots taking)
    {inputs : List Payload} (hinputs : List.Forall₂ Slot.Passes slots inputs) :
    ∃ a, (Exec.arguments taking inputs : Exec E α) = pure a := by
  obtain ⟨a, ha⟩ := h inputs [] hinputs
  rw [List.append_nil] at ha
  refine ⟨a, ?_⟩
  unfold Exec.arguments
  rw [ha]
  rfl

end Taking

/-- A word that takes its inputs as they were declared does with them whatever it does. -/
theorem Exec.yields_arguments {Q : β → Prop} {slots : List Slot} {taking : Taking α}
    (h : taking.Reads slots) {inputs : List Payload}
    (hinputs : List.Forall₂ Slot.Passes slots inputs) {k : α → Exec E β}
    (hk : ∀ a, Yields Q (k a)) : Yields Q (arguments taking inputs >>= k) := by
  obtain ⟨a, ha⟩ := h.arguments (E := E) hinputs
  rw [ha]
  exact hk a

/-- The values fit the input slots, bottom of the stack first. -/
def StackEffect.Fits (effect : StackEffect) (stack : List Value) : Prop :=
  List.Forall₂ (fun slot value => slot.spec.accepts value = true) effect.inputs
    (stack.take effect.inputs.length).reverse

theorem forall₂_of_firstUnfit? {slots : List Slot} {values : List Value}
    (hlength : slots.length = values.length) (h : firstUnfit? slots values = none) :
    List.Forall₂ (fun slot value => slot.spec.accepts value = true) slots values := by
  rw [List.forall₂_iff_zip]
  refine ⟨hlength, fun {slot value} hmem => ?_⟩
  have := List.find?_eq_none.mp h (slot, value) hmem
  simpa using this

theorem not_forall₂_of_firstUnfit? {slots : List Slot} {values : List Value} {pair : Slot × Value}
    (h : firstUnfit? slots values = some pair) :
    ¬List.Forall₂ (fun slot value => slot.spec.accepts value = true) slots values := by
  intro hall
  have haccepts := (List.forall₂_iff_zip.mp hall).2 (List.mem_of_find?_eq_some h)
  have hunfit := List.find?_some h
  simp [haccepts] at hunfit

theorem forall₂_passes {slots : List Slot} {values : List Value}
    (h : List.Forall₂ (fun slot value => slot.spec.accepts value = true) slots values) :
    List.Forall₂ Slot.Passes slots (slots.zipWith Payload.ofValue values) := by
  induction h with
  | nil => exact .nil
  | @cons slot value _ _ haccepts _ ih => exact .cons ⟨value, haccepts, rfl⟩ ih

/-- Taking a word's inputs: there are too few values, or one does not fit, and the machine stays as
it is; or they all fit, and they are off the stack. -/
theorem takeInputs_cases (word : Entry) (m : Machine E) :
    (m.stack.length < word.effect.inputs.length ∧
      takeInputs word m =
        .raised (m.error (.tooFewValues word.name word.effect m.stack.length)) m) ∨
    (word.effect.inputs.length ≤ m.stack.length ∧ ¬word.effect.Fits m.stack ∧
      ∃ wanted found,
        takeInputs word m = .raised (m.error (.unfitInput word.name word.effect wanted found)) m) ∨
    (word.effect.Fits m.stack ∧
      ∃ inputs, List.Forall₂ Slot.Passes word.effect.inputs inputs ∧
        takeInputs word m =
          .done inputs { m with stack := m.stack.drop word.effect.inputs.length }) := by
  unfold takeInputs
  dsimp only
  split
  · next hfew => exact .inl ⟨hfew, rfl⟩
  · next henough =>
    have hlength : word.effect.inputs.length =
        (m.stack.take word.effect.inputs.length).reverse.length := by
      rw [List.length_reverse, List.length_take]
      omega
    split
    · next slot value hunfit =>
      exact .inr (.inl ⟨Nat.le_of_not_lt henough, not_forall₂_of_firstUnfit? hunfit, _, _, rfl⟩)
    · next hfits =>
      have hall := forall₂_of_firstUnfit? hlength hfits
      exact .inr (.inr ⟨hall, _, forall₂_passes hall, rfl⟩)

theorem Exec.yields_takeInputs (word : Entry) :
    Yields (List.Forall₂ Slot.Passes word.effect.inputs) (takeInputs word : Exec E _) := by
  intro m
  rcases takeInputs_cases word m with
    ⟨-, h⟩ | ⟨-, -, wanted, found, h⟩ | ⟨-, inputs, hinputs, h⟩
  · rw [h]
    exact not_false
  · rw [h]
    exact not_false
  · rw [h]
    exact hinputs

/-! ### The way out -/

/-- The payloads of which an output slot makes a value that it accepts, whatever the heap. -/
def Slot.Takes (slot : Slot) (payload : Payload) : Prop :=
  ∃ value, slot.spec.accepts value = true ∧ ∀ heap, payload.toValue heap slot = .ok value

/-- What a handler returns is what the output slots take. -/
def Returned.Meets (slots : List Slot) (returned : Returned) : Prop :=
  List.Forall₂ Slot.Takes slots returned.toList

namespace Returned

open Builtin

theorem meets_nothing : nothing.Meets [] := .nil

theorem meets_one {slot : Slot} {payload : Payload} (h : slot.Takes payload) :
    (one payload).Meets [slot] :=
  .cons h .nil

theorem meets_value (v : Value) : (one (.tagged v)).Meets [anyValue] :=
  meets_one ⟨v, rfl, fun _ => rfl⟩

theorem meets_values (v w : Value) : (many [.tagged v, .tagged w]).Meets [anyValue, anyValue] :=
  .cons ⟨v, rfl, fun _ => rfl⟩ (.cons ⟨w, rfl, fun _ => rfl⟩ .nil)

theorem meets_bool (flag : Bool) : (one (.bool flag)).Meets [typed .boolean] :=
  meets_one ⟨.bool flag, rfl, fun _ => rfl⟩

theorem meets_int (n : Int64) : (one (.int n)).Meets [typed .integer] :=
  meets_one ⟨.int n, rfl, fun _ => rfl⟩

theorem meets_text (s : String) : (one (.text s)).Meets [typed .string] :=
  meets_one ⟨.string s, rfl, fun _ => rfl⟩

theorem meets_array (id : ArrayId) : (one (.array id)).Meets [typed .array] :=
  meets_one ⟨.array id, rfl, fun _ => rfl⟩

theorem meets_scope (id : ScopeId) : (one (.scope id)).Meets [typed .scope] :=
  meets_one ⟨.scope id, rfl, fun _ => rfl⟩

/-- A computed number is numeric, in whichever form it settles. -/
theorem meets_computed (n : Number) :
    (one (.tagged (.ofComputed n))).Meets [{ spec := .numeric, escaped := true }] := by
  have hnumeric : (Value.ofComputed n).isNumeric = true := by
    unfold Value.ofComputed
    cases n.settle <;> rfl
  refine meets_one ⟨.ofComputed n, hnumeric, fun heap => ?_⟩
  simp [Payload.toValue, Payload.tagged?, Option.filter, SlotType.accepts, hnumeric]

end Returned

/-- A payload of which its slot makes a value. -/
theorem pushPayloads_cons {slot : Slot} {payload : Payload} {value : Value} {m : Machine E}
    (h : payload.toValue m.heap slot = .ok value) (slots : List Slot) (payloads : List Payload) :
    pushPayloads (slot :: slots) (payload :: payloads) m =
      pushPayloads slots payloads { m with stack := value :: m.stack } := by
  change (Exec.withContext (Exec.ofExcept (payload.toValue m.heap slot)) >>= fun value => do
    Exec.push value
    pushPayloads slots payloads) m = _
  rw [h]
  rfl

theorem pushPayloads_of_takes {slots : List Slot} {payloads : List Payload}
    (h : List.Forall₂ Slot.Takes slots payloads) (m : Machine E) :
    ∃ results, List.Forall₂ (fun slot value => slot.spec.accepts value = true) slots results ∧
      pushPayloads slots payloads m = .done () { m with stack := results.reverse ++ m.stack } := by
  induction h generalizing m with
  | nil => exact ⟨[], .nil, rfl⟩
  | @cons slot payload slots payloads htakes _ ih =>
    obtain ⟨value, haccepts, hvalue⟩ := htakes
    obtain ⟨results, hresults, hpush⟩ := ih { m with stack := value :: m.stack }
    refine ⟨value :: results, .cons haccepts hresults, ?_⟩
    rw [pushPayloads_cons (hvalue _), hpush, List.reverse_cons, List.append_assoc]
    rfl

/-- What a word promised and returned is pushed, as values that fit its outputs. -/
theorem pushOutputs_of_meets {word : Entry} {returned : Returned}
    (h : returned.Meets word.effect.outputs) (m : Machine E) :
    ∃ results,
      List.Forall₂ (fun slot value => slot.spec.accepts value = true) word.effect.outputs results ∧
      pushOutputs word returned m = .done () { m with stack := results.reverse ++ m.stack } := by
  have hcount : returned.payloads word.effect.outputs.length = .ok returned.toList :=
    if_pos h.length_eq.symm
  obtain ⟨results, hresults, hpush⟩ := pushPayloads_of_takes h m
  refine ⟨results, hresults, ?_⟩
  rw [← hpush, pushOutputs, hcount]
  rfl

theorem Exec.yields_pushOutputs {word : Entry} {returned : Returned}
    (h : returned.Meets word.effect.outputs) :
    Yields (fun _ => True) (pushOutputs word returned : Exec E Unit) := by
  intro m
  obtain ⟨results, -, hpush⟩ := pushOutputs_of_meets h m
  rw [hpush]
  trivial

/-! ### The words that run no code -/

namespace Operation

/-- The operation refuses integers only for reasons that lie in them. -/
def Sound (op : Operation) : Prop :=
  ∀ a b cause, op.onIntegers a b = .error cause → ¬cause.IsInternal

theorem orOverflow_sound {result : Option Int64} {cause : Cause}
    (h : orOverflow result = .error cause) : ¬cause.IsInternal := by
  cases result with
  | some n => cases h
  | none =>
    obtain rfl := Except.error.inj h
    exact not_false

theorem add_sound : add.Sound := fun _ _ _ => orOverflow_sound

theorem subtract_sound : subtract.Sound := fun _ _ _ => orOverflow_sound

theorem multiply_sound : multiply.Sound := fun _ _ _ => orOverflow_sound

theorem divide_sound : divide.Sound := by
  intro a b cause h
  unfold divide at h
  dsimp only at h
  split at h
  · obtain rfl := Except.error.inj h
    exact not_false
  · exact orOverflow_sound h

theorem Sound.apply {op : Operation} (hop : op.Sound) {a b : Number} {cause : Cause}
    (h : op.apply a b = .error cause) : ¬cause.IsInternal := by
  cases a with
  | float x => cases h
  | int n =>
    cases b with
    | float x => cases h
    | int k =>
      change Except.map Number.int (op.onIntegers n k) = _ at h
      cases hints : op.onIntegers n k with
      | error refused =>
        rw [hints] at h
        obtain rfl := Except.error.inj h
        exact hop _ _ _ hints
      | ok result =>
        rw [hints] at h
        cases h

end Operation

theorem lt_of_position? {size position : Nat} {index : Int}
    (h : position? size index = some position) : position < size := by
  unfold position? at h
  dsimp only at h
  generalize (if index < 0 then size + index else index) = place at h
  split at h
  · next hrange =>
    obtain rfl := Option.some.inj h
    omega
  · cases h

namespace Vocabulary

open Builtin Exec Returned Taking

variable {inputs : List Payload}

section Stack

theorem dup_yields (h : List.Forall₂ Slot.Passes [anyValue] inputs) :
    (dup inputs : Exec E Returned).Yields (Meets [anyValue, anyValue]) :=
  yields_arguments reads_value h fun _ => yields_pure (meets_values _ _)

theorem drop_yields (h : List.Forall₂ Slot.Passes [anyValue] inputs) :
    (drop inputs : Exec E Returned).Yields (Meets []) :=
  yields_arguments reads_value h fun _ => yields_pure meets_nothing

theorem swap_yields (h : List.Forall₂ Slot.Passes [anyValue, anyValue] inputs) :
    (swap inputs : Exec E Returned).Yields (Meets [anyValue, anyValue]) :=
  yields_arguments (reads_pair reads_value reads_value) h fun _ => yields_pure (meets_values _ _)

theorem writeWith_yields (ending : String) (h : List.Forall₂ Slot.Passes [typed .string] inputs) :
    (writeWith ending inputs : Exec E Returned).Yields (Meets []) :=
  yields_arguments reads_text h fun _ => yields_modify _ (yields_pure meets_nothing)

end Stack

section Arithmetic

theorem arithmetic_yields {op : Operation} (hop : op.Sound)
    (h : List.Forall₂ Slot.Passes [numeric, numeric] inputs) :
    (arithmetic op inputs : Exec E Returned).Yields
      (Meets [{ spec := .numeric, escaped := true }]) := by
  refine yields_arguments (reads_pair reads_number reads_number) h fun (a, b) => ?_
  dsimp only
  split
  · exact yields_pure (meets_computed _)
  · next cause hcause => exact yields_raise (hop.apply hcause)

theorem equality_yields (expected : Bool)
    (h : List.Forall₂ Slot.Passes [anything, anything] inputs) :
    (equality expected inputs : Exec E Returned).Yields (Meets [typed .boolean]) :=
  yields_arguments (reads_pair reads_anything reads_anything) h fun _ =>
    yields_machine fun _ => yields_pure (meets_bool _)

theorem ordering_yields (test : Ordering → Bool)
    (h : List.Forall₂ Slot.Passes [anything, anything] inputs) :
    (ordering test inputs : Exec E Returned).Yields (Meets [typed .boolean]) := by
  refine yields_arguments (reads_pair reads_anything reads_anything) h fun (a, b) => ?_
  dsimp only
  split
  · exact yields_pure (meets_bool _)
  · exact yields_machine fun _ => yields_raise not_false

theorem logic_yields (op : Bool → Bool → Bool)
    (h : List.Forall₂ Slot.Passes [typed .boolean, typed .boolean] inputs) :
    (logic op inputs : Exec E Returned).Yields (Meets [typed .boolean]) :=
  yields_arguments (reads_pair reads_bool reads_bool) h fun _ => yields_pure (meets_bool _)

theorem negation_yields (h : List.Forall₂ Slot.Passes [typed .boolean] inputs) :
    (negation inputs : Exec E Returned).Yields (Meets [typed .boolean]) :=
  yields_arguments reads_bool h fun _ => yields_pure (meets_bool _)

end Arithmetic

section Arrays

theorem copied_yields (combine : List Value → Value → List Value)
    (h : List.Forall₂ Slot.Passes [typed .array, anyValue] inputs) :
    (copied combine inputs : Exec E Returned).Yields (Meets [typed .array]) :=
  yields_arguments (reads_pair reads_array reads_value) h fun _ => yields_items _ fun _ =>
    yields_newArray _ fun _ => yields_pure (meets_array _)

theorem inPlace_yields (combine : List Value → Value → List Value)
    (h : List.Forall₂ Slot.Passes [typed .array, anyValue] inputs) :
    (inPlace combine inputs : Exec E Returned).Yields (Meets []) :=
  yields_arguments (reads_pair reads_array reads_value) h fun _ =>
    yields_modify _ (yields_pure meets_nothing)

theorem concat_yields (h : List.Forall₂ Slot.Passes [typed .array, typed .array] inputs) :
    (concat inputs : Exec E Returned).Yields (Meets [typed .array]) :=
  yields_arguments (reads_pair reads_array reads_array) h fun _ => yields_items _ fun _ =>
    yields_items _ fun _ => yields_newArray _ fun _ => yields_pure (meets_array _)

theorem concatInPlace_yields (h : List.Forall₂ Slot.Passes [typed .array, typed .array] inputs) :
    (concatInPlace inputs : Exec E Returned).Yields (Meets []) :=
  yields_arguments (reads_pair reads_array reads_array) h fun _ =>
    yields_modify _ (yields_pure meets_nothing)

theorem count_yields (h : List.Forall₂ Slot.Passes [typed .array] inputs) :
    (count inputs : Exec E Returned).Yields (Meets [typed .integer]) :=
  yields_arguments reads_array h fun _ => yields_items _ fun _ => yields_pure (meets_int _)

theorem endElement_yields (select : List Value → Option Value) {cause : Cause}
    (hcause : ¬cause.IsInternal) (h : List.Forall₂ Slot.Passes [typed .array] inputs) :
    (endElement select cause inputs : Exec E Returned).Yields (Meets [anyValue]) := by
  refine yields_arguments reads_array h fun id => yields_items _ fun values => ?_
  split
  · exact yields_pure (meets_value _)
  · exact yields_raise hcause

/-- An index that was found to lie inside the array finds an element there. -/
theorem nth_yields (h : List.Forall₂ Slot.Passes [typed .array, typed .integer] inputs) :
    (nth inputs : Exec E Returned).Yields (Meets [anyValue]) := by
  refine yields_arguments (reads_pair reads_array reads_int) h fun (id, index) =>
    yields_items _ fun values => ?_
  split
  · exact yields_raise not_false
  · next position hposition =>
    have hlt : position < values.length := lt_of_position? hposition
    rw [List.getElem?_eq_getElem hlt]
    exact yields_pure (meets_value _)

end Arrays

section Strings

theorem join_yields (h : List.Forall₂ Slot.Passes [typed .array, typed .string] inputs) :
    (join inputs : Exec E Returned).Yields (Meets [typed .string]) :=
  yields_arguments (reads_pair reads_array reads_text) h fun _ =>
    yields_machine fun _ => yields_pure (meets_text _)

theorem split_yields (h : List.Forall₂ Slot.Passes [typed .string, typed .string] inputs) :
    (split inputs : Exec E Returned).Yields (Meets [typed .array]) :=
  yields_arguments (reads_pair reads_text reads_text) h fun _ =>
    yields_newArray _ fun _ => yields_pure (meets_array _)

theorem words_yields (h : List.Forall₂ Slot.Passes [typed .string] inputs) :
    (words inputs : Exec E Returned).Yields (Meets [typed .array]) :=
  yields_arguments reads_text h fun _ => yields_newArray _ fun _ => yields_pure (meets_array _)

theorem textConcat_yields (h : List.Forall₂ Slot.Passes [typed .string, typed .string] inputs) :
    (textConcat inputs : Exec E Returned).Yields (Meets [typed .string]) :=
  yields_arguments (reads_pair reads_text reads_text) h fun _ => yields_pure (meets_text _)

end Strings

section Scopes

theorem newScope_yields (h : List.Forall₂ Slot.Passes [typed .string] inputs) :
    (newScope inputs : Exec E Returned).Yields (Meets []) :=
  yields_arguments reads_text h fun _ _ => meets_nothing

theorem getScope_yields (h : List.Forall₂ Slot.Passes [typed .string] inputs) :
    (getScope inputs : Exec E Returned).Yields (Meets [typed .scope]) := by
  refine yields_arguments reads_text h fun name => yields_machine fun m => ?_
  split
  · exact yields_pure (meets_scope _)
  · exact yields_raise not_false

theorem setField_yields
    (h : List.Forall₂ Slot.Passes [typed .scope, typed .string, anyValue] inputs) :
    (setField inputs : Exec E Returned).Yields (Meets []) :=
  yields_arguments (reads_triple reads_scope reads_text reads_value) h fun _ =>
    yields_modify _ (yields_pure meets_nothing)

theorem getField_yields (h : List.Forall₂ Slot.Passes [typed .scope, typed .string] inputs) :
    (getField inputs : Exec E Returned).Yields (Meets [anyValue]) := by
  refine yields_arguments (reads_pair reads_scope reads_text) h fun (id, key) =>
    yields_machine fun m => ?_
  dsimp only
  split
  · exact yields_pure (meets_value _)
  · exact yields_raise not_false

theorem adjust_yields (id : ScopeId) (key : String) (amount : Int64) :
    (adjust id key amount : Exec E Returned).Yields (Meets []) := by
  refine yields_machine fun m => ?_
  dsimp only
  split
  · split
    · exact yields_modify _ (yields_pure meets_nothing)
    · exact yields_raise not_false
  · exact yields_raise not_false

theorem increase_yields
    (h : List.Forall₂ Slot.Passes [typed .scope, typed .string, typed .integer] inputs) :
    (increase inputs : Exec E Returned).Yields (Meets []) :=
  yields_arguments (reads_triple reads_scope reads_text reads_int) h fun _ => adjust_yields _ _ _

theorem decrease_yields
    (h : List.Forall₂ Slot.Passes [typed .scope, typed .string, typed .integer] inputs) :
    (decrease inputs : Exec E Returned).Yields (Meets []) := by
  refine yields_arguments (reads_triple reads_scope reads_text reads_int) h
    fun (id, key, amount) => ?_
  dsimp only
  split
  · exact adjust_yields _ _ _
  · exact yields_raise not_false

theorem adjustBy_yields (amount : Int64)
    (h : List.Forall₂ Slot.Passes [typed .scope, typed .string] inputs) :
    (adjustBy amount inputs : Exec E Returned).Yields (Meets []) :=
  yields_arguments (reads_pair reads_scope reads_text) h fun _ => adjust_yields _ _ _

end Scopes

end Vocabulary

open Vocabulary in
/-- **A word that runs no code keeps to its declaration**: given inputs that its slots pass, it
hands back what its output slots take, or fails for a reason that lies in the inputs. -/
theorem Builtin.run_yields {b : Builtin} (hb : b.IsPassive) (engine : Engine E)
    {inputs : List Payload} (h : List.Forall₂ Slot.Passes b.effect.inputs inputs) :
    (b.run engine inputs).Yields (Returned.Meets b.effect.outputs) := by
  cases b with
  | clear | call | choose | times | each | map => exact hb.elim
  | dup => exact dup_yields h
  | drop => exact drop_yields h
  | swap => exact swap_yields h
  | add => exact arithmetic_yields Operation.add_sound h
  | subtract => exact arithmetic_yields Operation.subtract_sound h
  | multiply => exact arithmetic_yields Operation.multiply_sound h
  | divide => exact arithmetic_yields Operation.divide_sound h
  | equal | notEqual => exact equality_yields _ h
  | less | greater | lessEqual | greaterEqual => exact ordering_yields _ h
  | and | or => exact logic_yields _ h
  | not => exact negation_yields h
  | append | prepend => exact copied_yields _ h
  | appendInPlace | prependInPlace => exact inPlace_yields _ h
  | concat => exact concat_yields h
  | concatInPlace => exact concatInPlace_yields h
  | count | length => exact count_yields h
  | first => exact endElement_yields _ not_false h
  | last => exact endElement_yields _ not_false h
  | nth => exact nth_yields h
  | join => exact join_yields h
  | split => exact split_yields h
  | words => exact words_yields h
  | textConcat => exact textConcat_yields h
  | newScope => exact newScope_yields h
  | getScope => exact getScope_yields h
  | setField => exact setField_yields h
  | getField => exact getField_yields h
  | increase => exact increase_yields h
  | decrease => exact decrease_yields h
  | increment | decrement => exact adjustBy_yields _ h
  | print | puts => exact writeWith_yields _ h

end Wordstack
