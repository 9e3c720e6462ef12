import Wordstack.Proofs.Registering

/-!
# Computations that tend the vocabulary

Nearly everything that runs leaves the vocabulary alone; what does not may only add to it.  Such a
computation keeps dictionary and handlers in step, and none of them has a reason to say that a
handler is missing.

* `Cause.LacksHandler`: the error that says so; `Addition.Performed.of_lacksHandler`: running a word
  is never its source.
* `Exec.Tends`: a computation that changes the vocabulary by adding words only, and does not raise
  that error, with one lemma for each operation.
* `Builtin.run_tends`: a word of the language that runs no code tends the vocabulary, also under a
  declaration that is not its own.
-/

namespace Wordstack

variable {E : Embedding} {α β : Type}

namespace Cause

/-- An entry points at no handler. -/
def LacksHandler : Cause → Prop
  | missingHandler .. => True
  | inWord _ cause => cause.LacksHandler
  | _ => False

theorem LacksHandler.isInternal {cause : Cause} (h : cause.LacksHandler) : cause.IsInternal := by
  induction cause with
  | inWord name cause ih => exact ih h
  | missingHandler => trivial
  | _ => exact h.elim

theorem LacksHandler.kind_eq {cause : Cause} (h : cause.LacksHandler) : cause.kind = .runtime := by
  induction cause with
  | inWord name cause ih => exact ih h
  | missingHandler => rfl
  | _ => exact h.elim

/-- That a handler is missing is no fault of a declaration. -/
theorem not_lacksHandler_of_kind {cause : Cause} (h : cause.kind = .invalidSignature) :
    ¬cause.LacksHandler := by
  intro hlacks
  cases h.symm.trans hlacks.kind_eq

end Cause

theorem Machine.lacksHandler_addContext (m : Machine E) (e : Error) :
    (m.addContext e).cause.LacksHandler ↔ e.cause.LacksHandler := by
  unfold addContext
  split
  · exact Iff.rfl
  · exact Iff.rfl

/-- Running a word never finds its handler missing.  If an error that leaves it says so, the handler
itself has raised it. -/
theorem Addition.Performed.of_lacksHandler {word : Addition E} {i : Nat} {host : Host E}
    {engine : Engine E} {m m' : Machine E} {e : Error}
    (h : word.Performed i host engine m (.raised e m')) (hlacks : e.cause.LacksHandler) :
    ∃ payloads n e' n', word.Calls m payloads n ∧
      host.act engine word.action payloads n = .raised e' n' ∧ e'.cause.LacksHandler := by
  generalize ho : (.raised e m' : Outcome E Unit) = o at h
  cases h with
  | refused unfit kind =>
    obtain ⟨rfl, rfl⟩ := Outcome.raised.inj ho
    have hruntime := hlacks.kind_eq.symm.trans kind
    split at hruntime
    · cases hruntime
    · cases hruntime
  | @called payloads n calls =>
    have hfinished := (word.entry i).finished_finish (host.act engine word.action payloads n)
    rw [← ho] at hfinished
    generalize hact : host.act engine word.action payloads n = handled at hfinished
    cases hfinished with
    | failed e' n' =>
      exact ⟨payloads, n, e', n', calls, hact, (n'.lacksHandler_addContext e').mp hlacks⟩
    | miscounted _ kind => exact absurd hlacks (Cause.not_lacksHandler_of_kind kind)
    | misfit _ _ kind => exact absurd hlacks (Cause.not_lacksHandler_of_kind kind)

/-- The words of the machine are those that were added, and perhaps more that were added since. -/
def Machine.Grown (m : Machine E) (added : List (Addition E)) : Prop :=
  ∃ more, m.Learned (added ++ more)

theorem Machine.Learned.grown {m : Machine E} {added : List (Addition E)} (h : m.Learned added) :
    m.Grown added :=
  ⟨[], by rwa [List.append_nil]⟩

namespace Outcome

/-- The machine that is left has kept its words, and the error is not that a handler is missing. -/
def Tended (added : List (Addition E)) : Outcome E α → Prop
  | done _ m => m.Grown added
  | raised e m => m.Grown added ∧ ¬e.cause.LacksHandler
  | exhausted => True

theorem Tended.after {added more : List (Addition E)} {o : Outcome E α}
    (h : o.Tended (added ++ more)) : o.Tended added := by
  have hgrown : ∀ m : Machine E, m.Grown (added ++ more) → m.Grown added := by
    rintro m ⟨later, hm⟩
    exact ⟨more ++ later, by rwa [← List.append_assoc]⟩
  cases o with
  | done a m => exact hgrown m h
  | raised e m => exact ⟨hgrown m h.1, h.2⟩
  | exhausted => trivial

end Outcome

namespace Exec

/-- A computation that changes the vocabulary by adding words only, and does not find a handler
missing. -/
def Tends (x : Exec E α) : Prop :=
  ∀ (m : Machine E) (added : List (Addition E)), m.Learned added → (x m).Tended added

/-- A word is added, or the call is refused and nothing has changed. -/
theorem tends_register (call : Registration E) : Tends call.run := by
  intro m added hm
  rcases call.run_cases m with ⟨word, -, hrun⟩ | ⟨-, e, hkind, hrun⟩
  · rw [hrun]
    exact ⟨[word], hm.register word⟩
  · rw [hrun]
    exact ⟨hm.grown, Cause.not_lacksHandler_of_kind hkind⟩

theorem tends_pure (a : α) : Tends (pure a : Exec E α) :=
  fun _ _ hm => hm.grown

theorem tends_bind {x : Exec E α} {f : α → Exec E β} (hx : Tends x) (hf : ∀ a, Tends (f a)) :
    Tends (x >>= f) := by
  intro m added hm
  have h := hx m added hm
  cases hxm : x m with
  | done a m' =>
    rw [hxm] at h
    obtain ⟨more, hm'⟩ := h
    rw [bind_of_done hxm]
    exact (hf a m' (added ++ more) hm').after
  | raised e m' =>
    rw [hxm] at h
    rw [bind_of_raised hxm]
    exact h
  | exhausted =>
    rw [bind_of_exhausted hxm]
    trivial

theorem tends_machine {k : Machine E → Exec E α} (hk : ∀ m, Tends (k m)) :
    Tends (machine >>= k) :=
  fun m => hk m m

theorem tends_giveUp : Tends (giveUp : Exec E α) :=
  fun _ _ _ => trivial

theorem tends_throw {e : Error} (h : ¬e.cause.LacksHandler) : Tends (throw e : Exec E α) :=
  fun _ _ hm => ⟨hm.grown, h⟩

theorem tends_raise {cause : Cause} (h : ¬cause.LacksHandler) : Tends (raise cause : Exec E α) :=
  fun _ _ hm => ⟨hm.grown, h⟩

theorem tends_ofExcept {result : Except Cause α}
    (h : ∀ cause, result = .error cause → ¬cause.LacksHandler) :
    Tends (ofExcept result : Exec E α) := by
  cases result with
  | ok a => exact tends_pure a
  | error cause => exact tends_throw (h cause rfl)

/-- A change of the machine that leaves its words alone. -/
theorem tends_modify {f : Machine E → Machine E}
    (hf : ∀ m, (f m).dictionary = m.dictionary ∧ (f m).handlers = m.handlers) :
    Tends (modify f) := by
  intro m added hm
  have hsame : (f m).Learned added := by
    rw [Machine.Learned, (hf m).1, (hf m).2]
    exact hm
  exact hsame.grown

theorem tends_withContext {x : Exec E α} (hx : Tends x) : Tends (withContext x) := by
  intro m added hm
  have h := hx m added hm
  cases hxm : x m with
  | done a m' => rw [hxm] at h; rw [withContext_of_done hxm]; exact h
  | raised e m' =>
    rw [hxm] at h
    rw [withContext_of_raised hxm]
    exact ⟨h.1, fun hlacks => h.2 ((m'.lacksHandler_addContext e).mp hlacks)⟩
  | exhausted => rw [withContext_of_exhausted hxm]; trivial

theorem tends_within (name : String) {x : Exec E α} (hx : Tends x) : Tends (within name x) := by
  intro m added hm
  have h := hx { m with calls := name :: m.calls } added hm
  rw [within_apply]
  cases hxm : x { m with calls := name :: m.calls } with
  | done a m' => rw [hxm] at h; exact h
  | raised e m' => rw [hxm] at h; exact h
  | exhausted => trivial

/-- What an attempt ended with is not that a handler is missing. -/
theorem tends_attempt {x : Exec E α} {k : Except Error α → Exec E β} (hx : Tends x)
    (hk : ∀ result, (∀ e, result = .error e → ¬e.cause.LacksHandler) → Tends (k result)) :
    Tends (attempt x >>= k) := by
  intro m added hm
  have h := hx m added hm
  rw [bind_apply, attempt]
  cases hxm : x m with
  | done a m' =>
    rw [hxm] at h
    obtain ⟨more, hm'⟩ := h
    have hresult : ∀ e, (.ok a : Except Error α) = .error e → ¬e.cause.LacksHandler := by
      intro e heq
      cases heq
    exact (hk (.ok a) hresult m' (added ++ more) hm').after
  | raised e m' =>
    rw [hxm] at h
    obtain ⟨⟨more, hm'⟩, he⟩ := h
    have hresult : ∀ e', (.error e : Except Error α) = .error e' → ¬e'.cause.LacksHandler :=
      fun e' heq => Except.error.inj heq ▸ he
    exact (hk (.error e) hresult m' (added ++ more) hm').after
  | exhausted => trivial

theorem tends_conclude {result : Except Error α}
    (h : ∀ e, result = .error e → ¬e.cause.LacksHandler) :
    Tends (conclude result : Exec E α) := by
  cases result with
  | ok a => exact tends_pure a
  | error e => exact tends_throw (h e rfl)

/-! ### The value stack, the heap and the parses in progress -/

theorem tends_push (value : Value) : Tends (push value : Exec E Unit) :=
  tends_modify fun _ => ⟨rfl, rfl⟩

theorem tends_pop : Tends (pop : Exec E Value) := by
  intro m added hm
  unfold pop
  split
  · exact ⟨hm.grown, not_false⟩
  · exact hm.grown

theorem tends_newArray (values : List Value) : Tends (newArray values : Exec E ArrayId) :=
  fun _ _ hm => hm.grown

theorem tends_items (id : ArrayId) : Tends (items id : Exec E (List Value)) :=
  tends_machine fun _ => tends_pure _

theorem tends_scan : Tends (scan : Exec E (Option Scan)) := by
  intro m added hm
  unfold scan
  split
  · exact hm.grown
  · exact hm.grown

theorem tends_popLexer : Tends (popLexer : Exec E Buffer) := by
  intro m added hm
  unfold popLexer
  split
  · exact ⟨hm.grown, not_false⟩
  · exact hm.grown

theorem tends_popAccumulator : Tends (popAccumulator : Exec E (List Value)) := by
  intro m added hm
  unfold popAccumulator
  split
  · exact ⟨hm.grown, not_false⟩
  · exact hm.grown

theorem tends_accumulate (value : Value) : Tends (accumulate value : Exec E Unit) := by
  intro m added hm
  unfold accumulate
  split
  · exact ⟨hm.grown, not_false⟩
  · exact hm.grown

/-! ### Between the stack and a handler -/

theorem tends_takeInputs (word : Entry) : Tends (takeInputs word : Exec E (List Payload)) := by
  intro m added hm
  rcases takeInputs_cases word m with ⟨-, h⟩ | ⟨-, -, wanted, found, h⟩ | ⟨-, inputs, -, h⟩
  · rw [h]
    exact ⟨hm.grown, not_false⟩
  · rw [h]
    exact ⟨hm.grown, not_false⟩
  · rw [h]
    exact hm.grown

theorem tends_toValue (heap : Heap) (slot : Slot) (payload : Payload) :
    Tends (withContext (ofExcept (payload.toValue heap slot)) : Exec E Value) :=
  tends_withContext <| tends_ofExcept fun _ h =>
    Cause.not_lacksHandler_of_kind (Slot.kind_of_toValue h)

theorem tends_payloads (returned : Returned) (count : Nat) :
    Tends (withContext (ofExcept (returned.payloads count)) : Exec E (List Payload)) := by
  refine tends_withContext (tends_ofExcept fun cause h hlacks => ?_)
  unfold Returned.payloads at h
  split at h
  · cases h
  · obtain rfl := Except.error.inj h
    exact hlacks

end Exec

open Exec

/-! ### The words that run no code -/

namespace Taking

/-- Inputs that are not as asked for are a fault of the declaration. -/
def Asks (taking : Taking α) : Prop :=
  ∀ inputs cause, taking.run inputs = .error cause → cause.kind = .invalidSignature

theorem asks_pure (a : α) : Asks (pure a : Taking α) :=
  fun _ _ h => nomatch h

theorem asks_bind {taking : Taking β} {k : β → Taking α} (h : Asks taking) (hk : ∀ b, Asks (k b)) :
    Asks (taking >>= k) := by
  intro inputs cause hcause
  rw [StateT.run_bind] at hcause
  cases hrun : taking.run inputs with
  | error refused =>
    rw [hrun] at hcause
    obtain rfl := Except.error.inj hcause
    exact h inputs _ hrun
  | ok taken =>
    rw [hrun] at hcause
    exact hk taken.1 taken.2 cause hcause

theorem asks_next {wanted : String} {read : Payload → Option α} : Asks (next wanted read) := by
  intro inputs cause h
  simp only [StateT.run, next] at h
  split at h
  · obtain rfl := Except.error.inj h
    rfl
  · split at h
    · cases h
    · obtain rfl := Except.error.inj h
      rfl

theorem asks_pair {γ : Type} {a : Taking β} {b : Taking γ} (ha : Asks a) (hb : Asks b) :
    Asks (do return (← a, ← b)) :=
  asks_bind ha fun _ => asks_bind hb fun _ => asks_pure _

theorem asks_triple {γ δ : Type} {a : Taking β} {b : Taking γ} {c : Taking δ} (ha : Asks a)
    (hb : Asks b) (hc : Asks c) : Asks (do return (← a, ← b, ← c)) :=
  asks_bind ha fun _ => asks_bind hb fun _ => asks_bind hc fun _ => asks_pure _

end Taking

open Taking

theorem Exec.tends_arguments {taking : Taking β} (h : taking.Asks) (inputs : List Payload)
    {k : β → Exec E α} (hk : ∀ b, Tends (k b)) : Tends (arguments taking inputs >>= k) := by
  refine tends_bind (tends_ofExcept fun cause hcause => ?_) hk
  cases hrun : taking.run inputs with
  | ok taken =>
    rw [hrun] at hcause
    cases hcause
  | error refused =>
    rw [hrun] at hcause
    obtain rfl := Except.error.inj hcause
    exact Cause.not_lacksHandler_of_kind (h inputs _ hrun)

namespace Vocabulary

variable (inputs : List Payload)

theorem returnArray_tends (values : List Value) : (returnArray values : Exec E Returned).Tends :=
  tends_bind (tends_newArray values) fun _ => tends_pure _

theorem arithmetic_tends {op : Operation} (hop : op.Sound) :
    (arithmetic op inputs : Exec E Returned).Tends := by
  refine tends_arguments (asks_pair asks_next asks_next) _ fun (a, b) => ?_
  dsimp only
  split
  · exact tends_pure _
  · next cause hcause => exact tends_raise fun h => hop.apply hcause h.isInternal

theorem ordering_tends (test : Ordering → Bool) :
    (ordering test inputs : Exec E Returned).Tends := by
  refine tends_arguments (asks_pair asks_next asks_next) _ fun (a, b) => ?_
  dsimp only
  split
  · exact tends_pure _
  · exact tends_machine fun _ => tends_raise not_false

theorem endElement_tends (select : List Value → Option Value) {cause : Cause}
    (h : ¬cause.LacksHandler) : (endElement select cause inputs : Exec E Returned).Tends := by
  refine tends_arguments asks_next _ fun id => tends_bind (tends_items _) fun values => ?_
  split
  · exact tends_pure _
  · exact tends_raise h

theorem nth_tends : (nth inputs : Exec E Returned).Tends := by
  refine tends_arguments (asks_pair asks_next asks_next) _ fun (id, index) =>
    tends_bind (tends_items _) fun values => ?_
  split
  · exact tends_raise not_false
  · split
    · exact tends_pure _
    · exact tends_raise not_false

theorem getScope_tends : (getScope inputs : Exec E Returned).Tends := by
  refine tends_arguments asks_next _ fun name => tends_machine fun m => ?_
  split
  · exact tends_pure _
  · exact tends_raise not_false

theorem getField_tends : (getField inputs : Exec E Returned).Tends := by
  refine tends_arguments (asks_pair asks_next asks_next) _ fun (id, key) =>
    tends_machine fun m => ?_
  dsimp only
  split
  · exact tends_pure _
  · exact tends_raise not_false

theorem adjust_tends (id : ScopeId) (key : String) (amount : Int64) :
    (adjust id key amount : Exec E Returned).Tends := by
  refine tends_machine fun m => ?_
  dsimp only
  split
  · split
    · exact tends_bind (tends_modify fun _ => ⟨rfl, rfl⟩) fun _ => tends_pure _
    · exact tends_raise not_false
  · exact tends_raise not_false

theorem decrease_tends : (decrease inputs : Exec E Returned).Tends := by
  refine tends_arguments (asks_triple asks_next asks_next asks_next) _ fun (id, key, amount) => ?_
  dsimp only
  split
  · exact adjust_tends _ _ _
  · exact tends_raise not_false

end Vocabulary

open Vocabulary in
theorem Builtin.run_tends {b : Builtin} (hb : b.IsPassive) (engine : Engine E)
    (inputs : List Payload) : (b.run engine inputs).Tends := by
  cases b with
  | clear | call | choose | times | each | map => exact hb.elim
  | dup | drop | not => exact tends_arguments asks_next _ fun _ => tends_pure _
  | swap | and | or | textConcat =>
    exact tends_arguments (asks_pair asks_next asks_next) _ fun _ => tends_pure _
  | add => exact arithmetic_tends _ Operation.add_sound
  | subtract => exact arithmetic_tends _ Operation.subtract_sound
  | multiply => exact arithmetic_tends _ Operation.multiply_sound
  | divide => exact arithmetic_tends _ Operation.divide_sound
  | equal | notEqual | join =>
    exact tends_arguments (asks_pair asks_next asks_next) _ fun _ =>
      tends_machine fun _ => tends_pure _
  | less | greater | lessEqual | greaterEqual => exact ordering_tends _ _
  | append | prepend =>
    exact tends_arguments (asks_pair asks_next asks_next) _ fun _ =>
      tends_bind (tends_items _) fun _ => returnArray_tends _
  | concat =>
    exact tends_arguments (asks_pair asks_next asks_next) _ fun _ =>
      tends_bind (tends_items _) fun _ => tends_bind (tends_items _) fun _ => returnArray_tends _
  | appendInPlace | prependInPlace | concatInPlace =>
    exact tends_arguments (asks_pair asks_next asks_next) _ fun _ =>
      tends_bind (tends_modify fun _ => ⟨rfl, rfl⟩) fun _ => tends_pure _
  | count | length =>
    exact tends_arguments asks_next _ fun _ => tends_bind (tends_items _) fun _ => tends_pure _
  | first | last => exact endElement_tends _ _ not_false
  | nth => exact nth_tends _
  | split =>
    exact tends_arguments (asks_pair asks_next asks_next) _ fun _ => returnArray_tends _
  | words => exact tends_arguments asks_next _ fun _ => returnArray_tends _
  | newScope =>
    refine tends_arguments asks_next _ fun _ => tends_bind (fun _ _ hm => hm.grown) fun _ => ?_
    exact tends_bind (tends_modify fun _ => ⟨rfl, rfl⟩) fun _ => tends_pure _
  | getScope => exact getScope_tends _
  | setField =>
    exact tends_arguments (asks_triple asks_next asks_next asks_next) _ fun _ =>
      tends_bind (tends_modify fun _ => ⟨rfl, rfl⟩) fun _ => tends_pure _
  | getField => exact getField_tends _
  | increase =>
    exact tends_arguments (asks_triple asks_next asks_next asks_next) _ fun _ =>
      adjust_tends _ _ _
  | decrease => exact decrease_tends _
  | increment | decrement =>
    exact tends_arguments (asks_pair asks_next asks_next) _ fun _ => adjust_tends _ _ _
  | print | puts =>
    exact tends_arguments asks_next _ fun _ =>
      tends_bind (tends_modify fun _ => ⟨rfl, rfl⟩) fun _ => tends_pure _

end Wordstack
