import Wordstack.Proofs.Quotation
import Wordstack.Proofs.Sharing

/-!
# Loops and branches as calls

A word that chooses between quotations, or runs one a number of times or on each element of an
array, does what the calls of the quotation do, written out one after the other.  The elements are
those at the start, and each of them is pushed, also if it is a word; the quotation is read again
for each call.  So it does not matter what the quotation changes: the array, itself, or an array
that holds them.

* `Builtin.Unrolls`: the calls that a word comes to, given its inputs.
* `Builtin.perform_within`: a word does, as a running word, what it does with its inputs.
* `endsAlike_call`, `endsAlike_callOnEach` and their like: a loop ends as the calls do.
* `loops_unrolled`: so does the word.
-/

namespace Wordstack

variable {E : Embedding} {α : Type}

open Exec Vocabulary

/-! ### Calls written out -/

/-- The code that calls a quotation a number of times. -/
def callsOf (quotation : ArrayId) (n : Nat) : List Value :=
  (List.replicate n (calling quotation)).flatten

/-- Pushes each value in turn and calls a quotation after it. -/
def callOnEach (quotation : ArrayId) : List Value → Engine E → Exec E Unit
  | [], _ => pure ()
  | v :: values, engine => do
    push v
    engine.executeAll (calling quotation)
    callOnEach quotation values engine

/-- Pushes each value in turn, calls a quotation after it, and pops what is then on top. -/
def collectCalls (quotation : ArrayId) : List Value → Engine E → Exec E (List Value)
  | [], _ => pure []
  | v :: values, engine => do
    push v
    engine.executeAll (calling quotation)
    let result ← pop
    let results ← collectCalls quotation values engine
    return result :: results

/-- Pushes a new array. -/
def pushArray (values : List Value) : Exec E Unit := do
  push (.array (← newArray values))

/-- The calls that a word comes to, given its inputs, top first, and the heap. -/
inductive Builtin.Unrolls (heap : Heap) :
    Builtin → List Value → (Engine E → Exec E Unit) → Prop
  | choose (flag : Bool) (yes no : ArrayId) :
      Unrolls heap .choose [.array no, .array yes, .bool flag]
        (·.executeAll (calling (if flag then yes else no)))
  | times (n : Int64) (quotation : ArrayId) :
      Unrolls heap .times [.array quotation, .int n]
        (·.executeAll (callsOf quotation (max n.toInt 0).toNat))
  | each (id quotation : ArrayId) :
      Unrolls heap .each [.array quotation, .array id] (callOnEach quotation (heap.items id))
  | map (id quotation : ArrayId) :
      Unrolls heap .map [.array quotation, .array id]
        (fun engine => collectCalls quotation (heap.items id) engine >>= pushArray)

/-! ### What the words do inside -/

/-- What a word returns is pushed behind what it does, and that can not fail. -/
theorem withContext_returning {word : Entry} {x : Exec E α} {returned : α → Returned}
    {f : α → Exec E Unit}
    (h : ∀ a n, ∃ n', pushOutputs word (returned a) n = .done () n' ∧ f a n = .done () n') :
    (withContext (x >>= fun a => pure (returned a)) >>= pushOutputs word) =
      withContext (x >>= f) := by
  funext m
  simp only [bind_apply, withContext]
  cases x m with
  | done a n =>
    obtain ⟨n', hpush, hf⟩ := h a n
    simp only [pure_apply, hpush, hf]
  | raised e n => rfl
  | exhausted => rfl

/-- A word whose inputs are there does, as a running word, what it does with them. -/
theorem Builtin.perform_within {b : Builtin} {engine : Engine E} {m : Machine E}
    {inputs : List Value} {payloads : List Payload} {x : Exec E α} {returned : α → Returned}
    {f : α → Exec E Unit}
    (htake : takeInputs (b.entry 0) { m with stack := inputs ++ m.stack } = .done payloads m)
    (hrun : b.run engine payloads (m.entering b.name) =
      (x >>= fun a => pure (returned a)) (m.entering b.name))
    (hpush : ∀ a n, ∃ n', pushOutputs (b.entry 0) (returned a) n = .done () n' ∧
      f a n = .done () n') :
    b.perform engine { m with stack := inputs ++ m.stack } =
      within b.name (withContext (x >>= f)) m := by
  have hsame : withContext (b.run engine payloads) (m.entering b.name) =
      withContext (x >>= fun a => pure (returned a)) (m.entering b.name) := by
    rw [withContext, withContext, hrun]
  have hpushed : (withContext (b.run engine payloads) >>= pushOutputs (b.entry 0))
      (m.entering b.name) = withContext (x >>= f) (m.entering b.name) := by
    rw [← withContext_returning hpush, bind_apply, bind_apply, hsame]
  rw [Builtin.perform, bind_of_done htake, within_apply, within_apply]
  exact congrArg _ hpushed

/-- A word ends as what it does inside does by itself. -/
theorem endsAlike_word {host : Host E} {m : Machine E} (hm : m.Standard) {b : Builtin}
    {inputs : List Value} {x : Engine E → Exec E Unit} (hx : Steady x)
    (hperform : ∀ engine : Engine E,
      b.perform engine { m with stack := inputs ++ m.stack } = inside b.name x engine m) :
    host.EndsAlike (·.execute (.word b.name)) { m with stack := inputs ++ m.stack } x m := by
  have hstack : ({ m with stack := inputs ++ m.stack } : Machine E).Standard :=
    hm.frame (.of_values m _ _ _ _)
  refine Host.EndsAlike.trans (.of_iff fun o => Host.ends_succ_iff fun fuel => ?_)
    (hx.endsAlike_inside hm.plain b.name).symm
  change host.performWith (host.engine fuel) b.name _ = _
  rw [hstack.performWith_name, hperform]

/-! ### Loops and calls -/

section Loops

variable {host : Host E} {m : Machine E} (quotation : ArrayId)

theorem steady_callOnEach (values : List Value) :
    Steady (callOnEach (E := E) quotation values) := by
  induction values with
  | nil => exact steady_pure ()
  | cons v values ih =>
    exact steady_bind (steady_push v) fun _ => steady_bind (steady_executeAll _) fun _ => ih

theorem steady_collectCalls (values : List Value) :
    Steady (collectCalls (E := E) quotation values) := by
  induction values with
  | nil => exact steady_pure []
  | cons v values ih =>
    exact steady_bind (steady_push v) fun _ => steady_bind (steady_executeAll _) fun _ =>
      steady_bind steady_pop fun result => steady_bind ih fun results => steady_pure _

/-- One run of a quotation is one call. -/
theorem endsAlike_call (hm : m.Standard) :
    host.EndsAlike (runQuotation · quotation) m (·.executeAll (calling quotation)) m := by
  have hrun : host.EndsAlike (runQuotation · quotation) m
      (·.executeAll (m.heap.items quotation)) m := .of_iff fun _ => Iff.rfl
  refine hrun.trans (((steady_executeAll _).endsAlike_inside hm.plain Builtin.call.name).trans ?_)
  exact .of_iff fun _ => (ends_calling_iff hm).symm

/-- A machine on which code has run is as standard as it was. -/
theorem standard_of_ends_runQuotation (hm : m.Standard) {n : Machine E}
    (h : host.Ends (runQuotation · quotation) m (.done () n)) : n.Standard :=
  hm.frame (h.frame (fun _ hruns => hruns.runs_runQuotation quotation) hm.plain)

theorem endsAlike_callsOf (hm : m.Standard) (k : Nat) :
    host.EndsAlike (repeatQuotation · quotation k) m
      (·.executeAll (callsOf quotation k)) m := by
  induction k generalizing m with
  | zero => exact .refl _ m
  | succ k ih =>
    have hcalls : callsOf quotation (k + 1) = calling quotation ++ callsOf quotation k := by
      simp [callsOf, List.replicate_succ]
    simp only [hcalls, Engine.executeAll_append]
    refine (endsAlike_call quotation hm).bind (steady_runQuotation quotation)
      (steady_executeAll _) hm.plain fun _ n hn => ?_
    exact ih (standard_of_ends_runQuotation quotation hm hn)

/-- One round of a loop: a value is pushed and the quotation runs, or is called. -/
theorem endsAlike_round (hm : m.Standard) (v : Value)
    {f g : Engine E → Exec E α}
    (hfg : ∀ n : Machine E, n.Standard → host.EndsAlike f n g n) :
    host.EndsAlike (fun engine => do push v; runQuotation engine quotation; f engine) m
      (fun engine => do push v; engine.executeAll (calling quotation); g engine) m := by
  refine (Host.EndsAlike.refl _ m).bind (steady_push v) (steady_push v) hm.plain fun _ n hn => ?_
  have hn' : n.Standard := hm.frame (hn.frame (fun _ _ => runs_push v) hm.plain)
  refine (endsAlike_call quotation hn').bind (steady_runQuotation quotation)
    (steady_executeAll _) hn'.plain fun _ k hk => ?_
  exact hfg k (standard_of_ends_runQuotation quotation hn' hk)

theorem endsAlike_callOnEach (hm : m.Standard) (values : List Value) :
    host.EndsAlike (runOnEach · quotation values) m (callOnEach quotation values) m := by
  induction values generalizing m with
  | nil => exact .refl _ m
  | cons v values ih => exact endsAlike_round quotation hm v fun n hn => ih hn

theorem endsAlike_collectCalls (hm : m.Standard) (values : List Value) :
    host.EndsAlike (collectOnEach · quotation values) m (collectCalls quotation values) m := by
  induction values generalizing m with
  | nil => exact .refl _ m
  | cons v values ih =>
    refine endsAlike_round quotation hm v fun n hn => ?_
    refine (Host.EndsAlike.refl _ n).bind steady_pop steady_pop hn.plain fun result k hk => ?_
    have hk' : k.Standard := hn.frame (hk.frame (fun _ _ => runs_pop) hn.plain)
    refine (ih hk').bind (steady_collectOnEach quotation values)
      (steady_collectCalls quotation values) hk'.plain fun results l _ => ?_
    exact .refl _ l

/-- As many values are popped as calls are made. -/
theorem length_of_collectCalls {engine : Engine E} {values results : List Value} {n : Machine E}
    (h : collectCalls quotation values engine m = .done results n) :
    results.length = values.length := by
  induction values generalizing m n results with
  | nil =>
    obtain ⟨rfl, -⟩ := Outcome.done.inj h
    rfl
  | cons v values ih =>
    obtain ⟨-, k, -, h⟩ := exists_of_bind_done h
    obtain ⟨-, k, -, h⟩ := exists_of_bind_done h
    obtain ⟨result, k, -, h⟩ := exists_of_bind_done h
    obtain ⟨rest, k, hrest, h⟩ := exists_of_bind_done h
    obtain ⟨rfl, -⟩ := Outcome.done.inj h
    simp [ih hrest]

end Loops

/-! ### The words -/

theorem ends_pushArray {host : Host E} (values : List Value) (m : Machine E) :
    host.Ends (fun _ => pushArray values) m (.done () (m.withArray values)) :=
  ⟨nofun, 0, fun _ _ => rfl⟩

/-- What is returned by a word that returns nothing is pushed by doing nothing. -/
theorem pushOutputs_nothing {word : Entry} (h : word.effect.outputs = []) (m : Machine E) :
    pushOutputs word .nothing m = .done () m := by
  rw [pushOutputs, h]
  rfl

/-- A word that returns nothing ends as what it does inside. -/
theorem endsAlike_word_nothing {host : Host E} {m : Machine E} (hm : m.Standard) {b : Builtin}
    {inputs : List Value} {payloads : List Payload} {x : Engine E → Exec E Unit} (hx : Steady x)
    (hb : b.effect.outputs = [])
    (htake : takeInputs (b.entry 0) { m with stack := inputs ++ m.stack } = .done payloads m)
    (hrun : ∀ engine : Engine E, b.run engine payloads (m.entering b.name) =
      (x engine >>= fun _ => pure .nothing) (m.entering b.name)) :
    host.EndsAlike (·.execute (.word b.name)) { m with stack := inputs ++ m.stack } x m := by
  refine endsAlike_word hm hx fun engine => ?_
  have hpush : ∀ (_ : Unit) (n : Machine E), ∃ n',
      pushOutputs (b.entry 0) .nothing n = .done () n' ∧ (pure () : Exec E Unit) n = .done () n' :=
    fun _ n => ⟨n, pushOutputs_nothing hb n, rfl⟩
  have hwithin := Builtin.perform_within htake (hrun engine) hpush
  rwa [bind_pure_unit] at hwithin

theorem takeInputs_map (m : Machine E) (id quotation : ArrayId) :
    takeInputs (Builtin.map.entry 0) { m with stack := [.array quotation, .array id] ++ m.stack } =
      .done [.array id, .array quotation] m := rfl

/-- A `map` ends as its calls do, and an array of what these leave is pushed. -/
theorem endsAlike_map {host : Host E} {m : Machine E} (hm : m.Standard) (id quotation : ArrayId) :
    host.EndsAlike (·.execute (.word Builtin.map.name))
      { m with stack := [.array quotation, .array id] ++ m.stack }
      (fun engine => collectCalls quotation (m.heap.items id) engine >>= pushArray) m := by
  have hcollect : Steady fun engine : Engine E =>
      collectOnEach engine quotation (m.heap.items id) := steady_collectOnEach quotation _
  have hpush : ∀ values, Steady fun _ : Engine E => pushArray values := fun values =>
    steady_bind (steady_newArray values) fun made => steady_push _
  have hinside : ∀ engine : Engine E,
      Builtin.map.perform engine { m with stack := [.array quotation, .array id] ++ m.stack } =
        inside Builtin.map.name
          (fun engine => collectOnEach engine quotation (m.heap.items id) >>= pushArray)
          engine m := by
    intro engine
    have hrun : Builtin.map.run engine [.array id, .array quotation]
        (m.entering Builtin.map.name) =
          ((collectOnEach engine quotation (m.heap.items id) >>= newArray) >>= fun made =>
            pure (.one (.array made))) (m.entering Builtin.map.name) := by
      rw [bind_assoc]
      rfl
    have hone : ∀ (made : ArrayId) (n : Machine E), ∃ n',
        pushOutputs (Builtin.map.entry 0) (.one (.array made)) n = .done () n' ∧
        push (.array made) n = .done () n' := fun _ _ => ⟨_, rfl, rfl⟩
    have hwithin := Builtin.perform_within (takeInputs_map m id quotation) hrun hone
    rwa [bind_assoc] at hwithin
  refine (endsAlike_word hm (steady_bind hcollect hpush) hinside).trans ?_
  exact (endsAlike_collectCalls quotation hm _).bind hcollect (steady_collectCalls quotation _)
    hm.plain fun results n _ => .refl _ n

/-- **Loops and branches are calls written out.**  From every state of a standard machine: a word
that runs quotations ends if the calls it comes to end, and then alike, with the same machine left
and with success or an error of the same kind.  And if a `map` succeeds, it leaves a new array of
what was popped after each of the calls, one value for each element at the start. -/
theorem loops_unrolled (host : Host E) {m : Machine E} (hm : m.Standard) :
    (∀ (b : Builtin) inputs calls, b.Unrolls m.heap inputs calls →
      host.EndsAlike (·.execute (.word b.name)) { m with stack := inputs ++ m.stack } calls m) ∧
    (∀ id quotation m', host.Ends (·.execute (.word Builtin.map.name))
        { m with stack := .array quotation :: .array id :: m.stack } (.done () m') →
      ∃ results n new,
        host.Ends (collectCalls quotation (m.heap.items id)) m (.done results n) ∧
        results.length = (m.heap.items id).length ∧ ArrayMade n m' new results) := by
  refine ⟨fun b inputs calls h => ?_, fun id quotation m' h => ?_⟩
  · cases h with
    | choose flag yes no =>
      exact (endsAlike_word_nothing hm (steady_runQuotation _) rfl rfl fun _ => rfl).trans
        (endsAlike_call _ hm)
    | times n quotation =>
      have hcount : (max n.toInt 0).toNat = n.toInt.toNat := by omega
      rw [hcount]
      exact (endsAlike_word_nothing hm (steady_repeatQuotation quotation _) rfl rfl
        fun _ => rfl).trans (endsAlike_callsOf quotation hm _)
    | each id quotation =>
      exact (endsAlike_word_nothing hm (steady_runOnEach quotation _) rfl rfl
        fun _ => rfl).trans (endsAlike_callOnEach quotation hm _)
    | map id quotation => exact endsAlike_map hm id quotation
  · have hcalls := (endsAlike_map hm id quotation).done_iff.mp h
    obtain ⟨o, ho⟩ := hcalls.exists_first (steady_collectCalls quotation _) hm.plain
    -- the calls succeed, since an error of theirs would be that of the word
    cases o with
    | done results n =>
      obtain ⟨-, rfl⟩ := Outcome.done.inj ((ho.bind.mp hcalls).unique (ends_pushArray results n))
      refine ⟨results, n, _, ho, ?_, arrayMade_withArray n results⟩
      obtain ⟨-, fuel, hfuel⟩ := ho
      exact length_of_collectCalls quotation (hfuel fuel (Nat.le_refl _))
    | raised e n => exact nomatch hcalls.unique (ho.bind_raised _)
    | exhausted => exact absurd rfl ho.1

/-- The machine with an array of a number and an unknown word, and a quotation that appends the
value it is given to that array. -/
def Machine.appending (m : Machine E) : Machine E :=
  { m with
    stack := []
    heap := { arrays := #[[.int 1, .word "nobody"], [.array ⟨0⟩, .word "swap", .word "append!"]] } }

theorem Machine.Standard.appending {m : Machine E} (hm : m.Standard) : m.appending.Standard :=
  hm.frame (.of_values m _ _ _ _)

/-- An array that grows under the loop is visited once for each element it had at the start, and its
words are not run. -/
theorem loops_unrolled_appending :
    ∃ m' : Machine .bare,
      Host.bare.Ends (·.execute (.word "each"))
        { (Machine.standard (E := .bare) ()).appending with stack := [.array ⟨1⟩, .array ⟨0⟩] }
        (.done () m') ∧
      (m'.heap.items ⟨0⟩).length = 4 := by
  have hm := (Machine.standard_standard (E := .bare) ()).appending
  have hruns : ((callOnEach ⟨1⟩ [.int 1, .word "nobody"] (Host.bare.engine 3)
        (Machine.standard (E := .bare) ()).appending).isDone,
      (callOnEach ⟨1⟩ [.int 1, .word "nobody"] (Host.bare.engine 3)
        (Machine.standard (E := .bare) ()).appending).machine?.map
          fun m => (m.heap.items ⟨0⟩).length) = (true, some 4) := by decide +kernel
  obtain ⟨hdone, hlength⟩ := Prod.mk.inj hruns
  obtain ⟨⟨⟩, m', hm'⟩ := Outcome.exists_of_isDone hdone
  rw [hm'] at hlength
  have heach := (loops_unrolled Host.bare hm).1 _ _ _ (.each ⟨0⟩ ⟨1⟩)
  have hcalls := Host.ends_of_fuel hm.plain (steady_callOnEach _ _) hm' nofun
  exact ⟨m', heach.done_iff.mpr hcalls, Option.some.inj hlength⟩

end Wordstack
