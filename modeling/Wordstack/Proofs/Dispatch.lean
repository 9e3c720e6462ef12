import Wordstack.Proofs.Signature

/-!
# Running a word that runs no code

A word that runs no code is refused, fails or succeeds, and each of the three leaves the machine in
one way only: as it was, without the word's inputs, or with the word's outputs in their place.
-/

namespace Wordstack

variable {E : Embedding}

/-- How running a word of some stack effect may end. -/
inductive Dispatched (effect : StackEffect) (m : Machine E) : Outcome E Unit → Prop
  /-- There are too few values or one does not fit its slot, and nothing has happened. -/
  | refused {e : Error} (unfit : ¬effect.Fits m.stack)
      (kind : e.kind =
        if m.stack.length < effect.inputs.length then .stackUnderflow else .typeMismatch) :
      Dispatched effect m (.raised e m)
  /-- The word failed: its inputs are gone, and nothing else has happened. -/
  | failed {e : Error} (fits : effect.Fits m.stack) (kind : e.kind ≠ .invalidSignature) :
      Dispatched effect m (.raised e { m with stack := m.stack.drop effect.inputs.length })
  /-- The word succeeded: in place of its inputs there is one value for each output, which the
  output accepts. -/
  | succeeded {results : List Value} {heap : Heap} {registry : Registry} {output : String}
      (fits : effect.Fits m.stack)
      (accepted : List.Forall₂ (fun slot value => slot.spec.accepts value = true) effect.outputs
        results) :
      Dispatched effect m (.done ()
        { m with
          stack := results.reverse ++ m.stack.drop effect.inputs.length
          heap, registry, output })

theorem StackEffect.Fits.length_le {effect : StackEffect} {stack : List Value}
    (h : effect.Fits stack) : effect.inputs.length ≤ stack.length := by
  have hlength := h.length_eq
  rw [List.length_reverse, List.length_take] at hlength
  omega

open Exec

/-- The machine on which a word does what it does: its inputs are gone, and it is a running word. -/
def Machine.running (b : Builtin) (m : Machine E) : Machine E :=
  Machine.entering b.name { m with stack := m.stack.drop b.effect.inputs.length }

namespace Builtin

variable {b : Builtin} {engine : Engine E} {m : Machine E} {inputs : List Payload}

/-- A word whose inputs are taken runs on them and pushes what it returns. -/
theorem perform_of_taken
    (h : takeInputs (b.entry 0) m =
      .done inputs { m with stack := m.stack.drop b.effect.inputs.length }) :
    b.perform engine m =
      ((withContext (b.run engine inputs) >>= pushOutputs (b.entry 0)) (m.running b)).mapMachine
        Machine.leaving := by
  rw [perform, bind_of_done h, within_apply]
  rfl

/-- A word that fails leaves the machine without its inputs. -/
theorem dispatched_of_raised {e : Error} (hfits : b.effect.Fits m.stack)
    (hrun : b.run engine inputs (m.running b) = .raised e (m.running b))
    (he : ¬e.cause.IsInternal) :
    Dispatched b.effect m
      (((withContext (b.run engine inputs) >>= pushOutputs (b.entry 0)) (m.running b)).mapMachine
        Machine.leaving) := by
  rw [bind_of_raised (withContext_of_raised hrun)]
  refine .failed hfits fun hkind => he ?_
  exact (Machine.isInternal_addContext _ _).mp (Cause.isInternal_of_kind hkind)

/-- A word that returns what it promised leaves the machine with its outputs. -/
theorem dispatched_of_done {returned : Returned} {heap : Heap} {registry : Registry}
    {output : String} (hfits : b.effect.Fits m.stack)
    (hrun : b.run engine inputs (m.running b) =
      .done returned { m.running b with heap, registry, output })
    (hmeets : returned.Meets b.effect.outputs) :
    Dispatched b.effect m
      (((withContext (b.run engine inputs) >>= pushOutputs (b.entry 0)) (m.running b)).mapMachine
        Machine.leaving) := by
  have hmeets' : returned.Meets (b.entry 0).effect.outputs := hmeets
  obtain ⟨results, hresults, hpush⟩ := pushOutputs_of_meets hmeets'
    { m.running b with heap, registry, output }
  rw [bind_of_done (withContext_of_done hrun), hpush]
  exact .succeeded hfits hresults

/-- A word that runs no code is refused, or it does its deed and what it returns is pushed. -/
theorem perform_dispatched (hb : b.IsPassive) (engine : Engine E) (m : Machine E) :
    Dispatched b.effect m (b.perform engine m) := by
  rcases takeInputs_cases (b.entry 0) m with
    ⟨hfew, htake⟩ | ⟨henough, hunfit, wanted, found, htake⟩ | ⟨hfits, inputs, hinputs, htake⟩
  · rw [perform, bind_of_raised htake]
    refine .refused (fun hfits => ?_) (if_pos hfew).symm
    exact absurd hfits.length_le (Nat.not_le_of_lt hfew)
  · rw [perform, bind_of_raised htake]
    exact .refused hunfit (if_neg (Nat.not_lt_of_le henough)).symm
  · rw [perform_of_taken htake]
    obtain ⟨deed, hdeed⟩ := run_isDeed hb engine inputs
    have hyields := run_yields hb engine hinputs (m.running b)
    have hrun := hdeed (m.running b)
    generalize deed _ _ = done at hrun
    rw [hrun] at hyields
    cases done with
    | failed cause => exact dispatched_of_raised hfits hrun hyields
    | refused cause => exact dispatched_of_raised hfits hrun hyields
    | made returned heap registry written => exact dispatched_of_done hfits hrun hyields

end Builtin

/-- **Running a word that runs no code** is refused, fails or succeeds, in every state of a machine
that knows the word.  It is refused exactly if its inputs are not there, and then nothing has
happened; if it fails, its inputs are gone and nothing else has happened; and if it succeeds, its
outputs are where its inputs were, as many as declared and each as its slot accepts. -/
theorem passive_word_dispatched (host : Host E) {m : Machine E} {b : Builtin} (hm : m.Knows b)
    (hb : b.IsPassive) :
    ∃ o, host.Ends (·.execute (.word b.name)) m o ∧ Dispatched b.effect m o := by
  have hdispatched : ∀ engine : Engine E, Dispatched b.effect m (b.perform engine m) :=
    fun engine => Builtin.perform_dispatched hb engine m
  -- one level of fuel is enough, since the word does not look at the engine below
  have hsame : ∀ engine : Engine E, b.perform engine m = b.perform (host.engine 0) m := by
    intro engine
    unfold Builtin.perform
    rw [Builtin.run_congr hb engine (host.engine 0)]
  refine ⟨b.perform (host.engine 0) m, ⟨fun hexhausted => ?_, 1, fun more hmore => ?_⟩,
    hdispatched _⟩
  · have := hdispatched (host.engine 0)
    rw [hexhausted] at this
    cases this
  · obtain ⟨fuel, rfl⟩ : ∃ k, more = k + 1 := ⟨more - 1, by omega⟩
    change host.performWith (host.engine fuel) b.name m = _
    rw [hm.performWith, hsame]

/-- A division by zero: its inputs fit, so it is not refused. -/
theorem passive_word_dispatched_division :
    Builtin.divide.effect.Fits [.int 0, .int 7] ∧
    ∃ o, Host.bare.Ends (·.execute (.word "/"))
        ((Machine.standard (E := .bare) ()).holding [.int 0, .int 7] []) o ∧
      Dispatched Builtin.divide.effect
        ((Machine.standard (E := .bare) ()).holding [.int 0, .int 7] []) o := by
  have hm := (Machine.standard_standard (E := .bare) ()).holding [.int 0, .int 7] []
  refine ⟨?_, passive_word_dispatched Host.bare (hm.knows .divide) trivial⟩
  exact .cons rfl (.cons rfl .nil)

end Wordstack
