import Wordstack.Proofs.Dispatch

/-!
# The contract between a word and its handler

Whatever a word declares and whatever its handler does, running the word is a fixed frame around one
call of the handler.  On the way in, the inputs are checked before any of them is taken.  On the way
out, the outputs are counted before any of them is made, and pushed one by one as they are made, so
that an output that can not be made leaves those before it on the stack.

* `Handed`: what a handler is handed for the values on the stack.
* `Slot.Makes`, `Made`: the values that output slots make of what a handler returns.
* `Entry.finish`, `Finished`: how running a word ends from how its handler ends.
* `handler_run_once`: running a word is refused, or is one call of its handler and then ends like
  that.
-/

namespace Wordstack

variable {E : Embedding}

/-! ### The way in -/

/-- What a handler is handed, bottom of the stack first: one payload for each slot, which is the
value itself or what it holds. -/
inductive Handed : List Slot → List Value → List Payload → Prop
  | nil : Handed [] [] []
  | tagged {slot : Slot} {value : Value} {slots : List Slot} {values : List Value}
      {payloads : List Payload} (accepts : slot.spec.accepts value = true)
      (whole : slot.escaped = true ∨ slot.spec = .any) (later : Handed slots values payloads) :
      Handed (slot :: slots) (value :: values) (.tagged value :: payloads)
  | contents {slot : Slot} {value : Value} {slots : List Slot} {values : List Value}
      {payloads : List Payload} (accepts : slot.spec.accepts value = true)
      (unescaped : slot.escaped = false) (typed : slot.spec ≠ .any)
      (later : Handed slots values payloads) :
      Handed (slot :: slots) (value :: values) (.contents value :: payloads)

theorem handed_zipWith {slots : List Slot} {values : List Value}
    (h : List.Forall₂ (fun slot value => slot.spec.accepts value = true) slots values) :
    Handed slots values (slots.zipWith Payload.ofValue values) := by
  induction h with
  | nil => exact .nil
  | @cons slot value slots values accepts _ ih =>
    rw [List.zipWith_cons_cons, Payload.ofValue]
    by_cases hwhole : slot.escaped = true ∨ slot.spec = .any
    · rw [if_pos (by simpa using hwhole)]
      exact .tagged accepts hwhole ih
    · rw [if_neg (by simpa using hwhole)]
      obtain ⟨hescaped, hany⟩ := not_or.mp hwhole
      exact .contents accepts (Bool.eq_false_iff.mpr hescaped) hany ih

variable {word : Entry} {m : Machine E}

/-- Inputs that fit are taken off the stack, and nothing else happens. -/
theorem takeInputs_of_fits (h : word.effect.Fits m.stack) :
    takeInputs word m =
      .done (word.effect.inputs.zipWith Payload.ofValue
        (m.stack.take word.effect.inputs.length).reverse)
        { m with stack := m.stack.drop word.effect.inputs.length } := by
  have hfits : firstUnfit? word.effect.inputs
      (m.stack.take word.effect.inputs.length).reverse = none := by
    rw [Option.eq_none_iff_forall_ne_some]
    exact fun pair hunfit => not_forall₂_of_firstUnfit? hunfit h
  unfold takeInputs
  dsimp only
  rw [if_neg (Nat.not_lt_of_le h.length_le), hfits]

/-- Inputs that do not fit stay where they are. -/
theorem takeInputs_of_unfit (h : ¬word.effect.Fits m.stack) :
    ∃ e : Error,
      e.kind =
        (if m.stack.length < word.effect.inputs.length then .stackUnderflow else .typeMismatch) ∧
      takeInputs word m = .raised e m := by
  rcases takeInputs_cases word m with
    ⟨hfew, htake⟩ | ⟨henough, -, wanted, found, htake⟩ | ⟨hfits, -⟩
  · exact ⟨_, (if_pos hfew).symm, htake⟩
  · exact ⟨_, (if_neg (Nat.not_lt_of_le henough)).symm, htake⟩
  · exact absurd hfits h

/-! ### The way out -/

/-- The value that an output slot makes of a payload.  A value itself has to be accepted as it is,
and nothing else is taken by an escaped slot.  Text for a word is read as source text is, whatever
comes of that; an integer for a float is converted; and anything else is the value that holds it. -/
inductive Slot.Makes (slot : Slot) : Payload → Value → Prop
  | tagged {value : Value} (accepts : slot.spec.accepts value = true) :
      Makes slot (.tagged value) value
  | word {text : String} (h : slot = { spec := .exact .word }) :
      Makes slot (.text text) (.ofText text)
  | float {n : Int64} (h : slot = { spec := .exact .float }) :
      Makes slot (.int n) (.float (Number.int n).asFloat)
  | holder {value : Value} (unescaped : slot.escaped = false) (noWord : value.type ≠ .word)
      (accepts : slot.spec.accepts value = true) : Makes slot (.contents value) value

namespace Slot

variable {slot : Slot} {payload : Payload} {value : Value}

/-- A value that a slot accepts, and that is no word, is made of what it holds. -/
theorem wrap_contents {spec : SlotType} (noWord : value.type ≠ .word)
    (accepts : spec.accepts value = true) : (Payload.contents value).wrap spec = value := by
  cases value with
  | word text => exact absurd rfl noWord
  | string text =>
    have hspec : spec ≠ .exact .word := by
      rintro rfl
      cases accepts
    exact if_neg hspec
  | int n =>
    have hspec : spec ≠ .exact .float := by
      rintro rfl
      cases accepts
    exact if_neg hspec
  | float x => rfl
  | bool flag => rfl
  | array id => rfl
  | scope id => rfl

theorem Makes.toValue (h : slot.Makes payload value) (heap : Heap) :
    payload.toValue heap slot = .ok value := by
  cases h with
  | tagged accepts =>
    by_cases hescaped : slot.escaped = true
    · simp [Payload.toValue, hescaped, Payload.tagged?, Option.filter, accepts]
    · simp [Payload.toValue, hescaped, Payload.wrap, accepts]
  | word h =>
    subst h
    rfl
  | float h =>
    subst h
    rfl
  | holder unescaped noWord accepts =>
    simp [Payload.toValue, unescaped, wrap_contents noWord accepts, accepts]

/-- What an unescaped slot makes of a payload. -/
theorem makes_wrap (unescaped : slot.escaped = false)
    (h : (payload.isWordText slot.spec || slot.spec.accepts (payload.wrap slot.spec)) = true) :
    slot.Makes payload (payload.wrap slot.spec) := by
  obtain ⟨spec, escaped⟩ := slot
  obtain rfl : escaped = false := unescaped
  cases payload with
  | tagged value => exact .tagged h
  | text text =>
    by_cases hspec : spec = .exact .word
    · subst hspec
      exact .word rfl
    · have hwrap : (Payload.text text).wrap spec = .string text := if_neg hspec
      have hbare : (Payload.text text).isWordText spec = false := decide_eq_false hspec
      rw [hbare, Bool.false_or, hwrap] at h
      rw [hwrap]
      exact @Makes.holder _ (.string text) rfl nofun h
  | int n =>
    by_cases hspec : spec = .exact .float
    · subst hspec
      exact .float rfl
    · have hwrap : (Payload.int n).wrap spec = .int n := if_neg hspec
      rw [hwrap] at h ⊢
      exact @Makes.holder _ (.int n) rfl nofun h
  | float x => exact @Makes.holder _ (.float x) rfl nofun h
  | bool flag => exact @Makes.holder _ (.bool flag) rfl nofun h
  | array id => exact @Makes.holder _ (.array id) rfl nofun h
  | scope id => exact @Makes.holder _ (.scope id) rfl nofun h

theorem makes_of_toValue {heap : Heap} (h : payload.toValue heap slot = .ok value) :
    slot.Makes payload value := by
  unfold Payload.toValue at h
  split at h
  · split at h
    · next found hfound =>
      obtain rfl := Except.ok.inj h
      obtain ⟨htagged, accepts⟩ := Option.filter_eq_some_iff.mp hfound
      cases payload with
      | tagged value =>
        obtain rfl := Option.some.inj htagged
        exact .tagged accepts
      | _ => cases htagged
    · cases h
  · next hescaped =>
    dsimp only at h
    split at h
    · next hfits =>
      obtain rfl := Except.ok.inj h
      exact makes_wrap (Bool.eq_false_iff.mpr hescaped) hfits
    · cases h

theorem kind_of_toValue {heap : Heap} {cause : Cause}
    (h : payload.toValue heap slot = .error cause) : cause.kind = .invalidSignature := by
  unfold Payload.toValue at h
  split at h
  · split at h
    · cases h
    · obtain rfl := Except.error.inj h
      rfl
  · dsimp only at h
    split at h
    · cases h
    · obtain rfl := Except.error.inj h
      rfl

/-- A slot accepts what it makes, unless that is the number which the text for a word spells. -/
theorem Makes.accepts (h : slot.Makes payload value) :
    slot.spec.accepts value = true ∨
      ∃ text number, slot = { spec := .exact .word } ∧ payload = .text text ∧
        Numeral.number? text.toList = some number ∧ value = .ofNumber number := by
  cases h with
  | tagged accepts => exact .inl accepts
  | holder _ _ accepts => exact .inl accepts
  | float h =>
    subst h
    exact .inl rfl
  | @word text h =>
    subst h
    unfold Value.ofText
    cases hnumber : Numeral.number? text.toList with
    | none => exact .inl rfl
    | some number => exact .inr ⟨text, number, rfl, rfl, hnumber, rfl⟩

end Slot

/-- The values that output slots make of payloads, one for each, in order. -/
inductive Made : List Slot → List Payload → List Value → Prop
  | nil : Made [] [] []
  | cons {slot : Slot} {payload : Payload} {value : Value} {slots : List Slot}
      {payloads : List Payload} {values : List Value} (makes : slot.Makes payload value)
      (later : Made slots payloads values) :
      Made (slot :: slots) (payload :: payloads) (value :: values)

/-- At an index, a slot makes nothing of the payload, and these are the values made before. -/
structure MadeBefore (slots : List Slot) (payloads : List Payload) (i : Nat)
    (values : List Value) : Prop where
  misfit : ∃ slot payload, slots[i]? = some slot ∧ payloads[i]? = some payload ∧
    ∀ value, ¬slot.Makes payload value
  before : Made (slots.take i) (payloads.take i) values

theorem Machine.kind_addContext (m : Machine E) (e : Error) :
    (m.addContext e).kind = e.kind := by
  unfold addContext
  split
  · rfl
  · rfl

section Pushing

variable {slot : Slot} {payload : Payload} {slots : List Slot} {payloads : List Payload}

theorem pushPayloads_of_misfit (h : ∀ value, ¬slot.Makes payload value) (slots : List Slot)
    (payloads : List Payload) (m : Machine E) :
    ∃ e : Error, e.kind = .invalidSignature ∧
      pushPayloads (slot :: slots) (payload :: payloads) m = .raised e m := by
  change ∃ e : Error, _ ∧
    (Exec.withContext (Exec.ofExcept (payload.toValue m.heap slot)) >>= fun value => do
      Exec.push value
      pushPayloads slots payloads) m = _
  cases hvalue : payload.toValue m.heap slot with
  | ok value => exact absurd (Slot.makes_of_toValue hvalue) (h value)
  | error cause =>
    exact ⟨m.addContext { cause }, (m.kind_addContext _).trans (Slot.kind_of_toValue hvalue), rfl⟩

/-- Payloads are pushed, as many as there are slots: all of them, or those before the first of which
the slot makes nothing. -/
theorem pushPayloads_cases (h : slots.length = payloads.length) (m : Machine E) :
    (∃ values, Made slots payloads values ∧
      pushPayloads slots payloads m = .done () { m with stack := values.reverse ++ m.stack }) ∨
    ∃ i values, MadeBefore slots payloads i values ∧ ∃ e : Error, e.kind = .invalidSignature ∧
      pushPayloads slots payloads m = .raised e { m with stack := values.reverse ++ m.stack } := by
  induction slots generalizing payloads m with
  | nil =>
    obtain rfl := List.length_eq_zero_iff.mp h.symm
    exact .inl ⟨[], .nil, rfl⟩
  | cons slot slots ih =>
    obtain ⟨payload, payloads, rfl⟩ := List.exists_cons_of_length_eq_add_one h.symm
    by_cases hmakes : ∃ value, slot.Makes payload value
    · obtain ⟨value, hmakes⟩ := hmakes
      rw [pushPayloads_cons (hmakes.toValue _)]
      rcases ih (Nat.succ.inj h) { m with stack := value :: m.stack } with
        ⟨values, hmade, hpush⟩ | ⟨i, values, ⟨hmisfit, hbefore⟩, e, hkind, hpush⟩
      · refine .inl ⟨value :: values, .cons hmakes hmade, ?_⟩
        rw [hpush, List.reverse_cons, List.append_assoc]
        rfl
      · refine .inr ⟨i + 1, value :: values, ⟨hmisfit, .cons hmakes hbefore⟩, e, hkind, ?_⟩
        rw [hpush, List.reverse_cons, List.append_assoc]
        rfl
    · have hmisfit := not_exists.mp hmakes
      obtain ⟨e, hkind, hpush⟩ := pushPayloads_of_misfit hmisfit slots payloads m
      exact .inr ⟨0, [], ⟨⟨slot, payload, rfl, rfl, hmisfit⟩, .nil⟩, e, hkind, hpush⟩

end Pushing

/-! ### One call in a frame -/

/-- How running a word ends once its handler has ended: the outputs are pushed, and the word is no
longer a running one. -/
def Entry.finish (word : Entry) : Outcome E Returned → Outcome E Unit
  | .done returned n => (pushOutputs word returned n).mapMachine Machine.leaving
  | .raised e n => .raised (n.addContext e) n.leaving
  | .exhausted => .exhausted

/-- How running a word may end, from how its handler has ended.  What the handler has left is
changed in nothing but the stack and the running words. -/
inductive Finished (word : Entry) : Outcome E Returned → Outcome E Unit → Prop
  | exhausted : Finished word .exhausted .exhausted
  /-- The handler failed. -/
  | failed (e : Error) (n : Machine E) :
      Finished word (.raised e n) (.raised (n.addContext e) n.leaving)
  /-- There are not as many results as declared, and none is pushed. -/
  | miscounted {returned : Returned} {n : Machine E} {e : Error}
      (count : returned.toList.length ≠ word.effect.outputs.length)
      (kind : e.kind = .invalidSignature) :
      Finished word (.done returned n) (.raised e n.leaving)
  /-- One of the results does not fit its slot, and exactly those before it are pushed. -/
  | misfit {returned : Returned} {n : Machine E} {e : Error} {i : Nat} {values : List Value}
      (count : returned.toList.length = word.effect.outputs.length)
      (made : MadeBefore word.effect.outputs returned.toList i values)
      (kind : e.kind = .invalidSignature) :
      Finished word (.done returned n)
        (.raised e { n.leaving with stack := values.reverse ++ n.stack })
  /-- On the stack that the handler left, there is one value for each slot. -/
  | succeeded {returned : Returned} {n : Machine E} {values : List Value}
      (made : Made word.effect.outputs returned.toList values) :
      Finished word (.done returned n)
        (.done () { n.leaving with stack := values.reverse ++ n.stack })

theorem pushOutputs_of_count {returned : Returned}
    (h : returned.toList.length = word.effect.outputs.length) (m : Machine E) :
    pushOutputs word returned m = pushPayloads word.effect.outputs returned.toList m := by
  rw [pushOutputs, Returned.payloads, if_pos h]
  rfl

theorem pushOutputs_of_miscount {returned : Returned}
    (h : returned.toList.length ≠ word.effect.outputs.length) (m : Machine E) :
    ∃ e : Error, e.kind = .invalidSignature ∧ pushOutputs word returned m = .raised e m := by
  rw [pushOutputs, Returned.payloads, if_neg h]
  exact ⟨m.addContext _, m.kind_addContext _, rfl⟩

/-- However a handler has ended, running its word ends as it may. -/
theorem Entry.finished_finish (word : Entry) (o : Outcome E Returned) :
    Finished word o (word.finish o) := by
  cases o with
  | exhausted => exact .exhausted
  | raised e n => exact .failed e n
  | done returned n =>
    rw [finish]
    by_cases hcount : returned.toList.length = word.effect.outputs.length
    · rw [pushOutputs_of_count hcount]
      rcases pushPayloads_cases hcount.symm n with
        ⟨values, hmade, hpush⟩ | ⟨i, values, hmade, e, hkind, hpush⟩
      · rw [hpush]
        exact .succeeded hmade
      · rw [hpush]
        exact .misfit hcount hmade hkind
    · obtain ⟨e, hkind, hpush⟩ := pushOutputs_of_miscount hcount n
      rw [hpush]
      exact .miscounted hcount hkind

/-- Once its inputs are taken, a word is one call of its handler. -/
theorem Host.dispatchWith_of_taken {handler : Handler E} {inputs : List Payload} {n : Machine E}
    (host : Host E) (engine : Engine E) (hhandler : m.handlers[word.handlerIndex]? = some handler)
    (htake : takeInputs word m = .done inputs n) :
    host.dispatchWith engine word m =
      word.finish (host.act engine handler.action inputs (n.entering word.name)) := by
  rw [dispatchWith, Exec.machine_bind, hhandler]
  dsimp only
  rw [Exec.bind_of_done htake, Exec.within_apply]
  change ((Exec.withContext (host.act engine handler.action inputs) >>= pushOutputs word)
    (n.entering word.name)).mapMachine Machine.leaving = _
  cases hact : host.act engine handler.action inputs (n.entering word.name) with
  | done returned k => rw [Exec.bind_of_done (Exec.withContext_of_done hact), Entry.finish]
  | raised e k =>
    rw [Exec.bind_of_raised (Exec.withContext_of_raised hact)]
    rfl
  | exhausted =>
    rw [Exec.bind_of_exhausted (Exec.withContext_of_exhausted hact)]
    rfl

/-- **The contract of a word and its handler**, whatever the word declares, whatever the handler
does and whatever the state.  If the inputs do not fit, the handler is not run and nothing has
happened.  If they do, they are gone from the stack, the handler is run once on what the slots pass
to it, and the rest depends on how it ends only: with one value for each output, or else with those
before the first that is at fault.  A slot accepts what it makes of a result, unless that is the
number which the text for a word spells. -/
theorem handler_run_once {handler : Handler E}
    (hhandler : m.handlers[word.handlerIndex]? = some handler) :
    (¬word.effect.Fits m.stack →
      ∃ e : Error,
        e.kind =
          (if m.stack.length < word.effect.inputs.length then .stackUnderflow
            else .typeMismatch) ∧
        ∀ (host : Host E) (engine : Engine E), host.dispatchWith engine word m = .raised e m) ∧
    (word.effect.Fits m.stack →
      ∃ values rest payloads, m.stack = values.reverse ++ rest ∧
        Handed word.effect.inputs values payloads ∧
        ∀ (host : Host E) (engine : Engine E),
          host.dispatchWith engine word m =
            word.finish (host.act engine handler.action payloads
              (Machine.entering word.name { m with stack := rest }))) ∧
    (∀ o : Outcome E Returned, Finished word o (word.finish o)) ∧
    ∀ (slot : Slot) (payload : Payload) (value : Value), slot.Makes payload value →
      slot.spec.accepts value = true ∨
        ∃ text number, slot = { spec := .exact .word } ∧ payload = .text text ∧
          Numeral.number? text.toList = some number ∧ value = .ofNumber number := by
  refine ⟨fun hunfit => ?_, fun hfits => ?_, word.finished_finish, fun _ _ _ => Slot.Makes.accepts⟩
  · obtain ⟨e, hkind, htake⟩ := takeInputs_of_unfit hunfit
    refine ⟨e, hkind, fun host engine => ?_⟩
    rw [Host.dispatchWith, Exec.machine_bind, hhandler]
    exact Exec.bind_of_raised htake
  · refine ⟨_, m.stack.drop word.effect.inputs.length, _, ?_, handed_zipWith hfits,
      fun host engine => host.dispatchWith_of_taken engine hhandler (takeInputs_of_fits hfits)⟩
    rw [List.reverse_reverse, List.take_append_drop]

/-- A host with one word, which counts its calls in what the host remembers. -/
def Embedding.counting : Embedding :=
  { Word := Unit, Hook := Empty, Memory := Nat }

/-- The word leaves a string on the stack, and hands back its inputs but the first, and a text. -/
def Host.counting : Host .counting :=
  { respond := fun _ _ inputs => do
      Exec.push (.string "left")
      Exec.modify fun m => { m with memory := Nat.succ m.memory }
      return .many (inputs.drop 1 ++ [.text "12"])
    offer := fun hook => Empty.elim hook }

/-- A handler that changes the stack itself, and a text for a word that comes out as an integer. -/
theorem handler_run_once_counting :
    ∃ (word : Entry) (m : Machine .counting),
      m.stack = [.bool true, .int 7, .string "below"] ∧
      word.effect.Fits m.stack ∧
      Host.counting.dispatchWith (Host.counting.engine 1) word m =
        .done () { m with
          stack := [.int 12, .bool true, .string "left", .string "below"]
          memory := Nat.succ m.memory } := by
  let word : Entry :=
    { name := "keep", handlerIndex := 0
      effect :=
        { inputs := [{ spec := .exact .integer }, { spec := .any }]
          outputs := [{ spec := .any, escaped := true }, { spec := .exact .word }] } }
  let handler : Handler .counting := { name := "keep", location := none, action := .host () }
  let m : Machine .counting :=
    { stack := [.bool true, .int 7, .string "below"], handlers := #[handler]
      parsingWords := .empty, memory := (0 : Nat) }
  have hhandler : m.handlers[word.handlerIndex]? = some handler := rfl
  have hfits : word.effect.Fits m.stack := .cons rfl (.cons rfl .nil)
  refine ⟨word, m, rfl, hfits, ?_⟩
  obtain ⟨values, rest, payloads, hstack, hhanded, hdispatch⟩ :=
    (handler_run_once hhandler).2.1 hfits
  rw [hdispatch]
  cases hhanded with
  | tagged _ whole => exact absurd whole (by decide)
  | contents _ _ _ later =>
    cases later with
    | contents _ _ typed => exact absurd rfl typed
    | tagged _ _ later =>
      cases later
      obtain ⟨rfl, rfl, rfl⟩ :
          Value.bool true = _ ∧ Value.int 7 = _ ∧ [.string "below"] = rest := by
        simpa [m] using hstack
      rfl

end Wordstack
