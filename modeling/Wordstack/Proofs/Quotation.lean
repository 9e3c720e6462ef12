import Wordstack.Proofs.Endings
import Wordstack.Proofs.Standard

/-!
# Calling a quotation

To push a quotation and call it is to execute its elements.  The two runs differ in one running word
and in nothing that this word has an influence on: not in how they end, not in the machine they
leave, and of an error only in its context.

* `Reported`: the error of the called quotation, given that of its elements.
* `executeAll_call`: the called quotation runs its elements with one more running word.
* `ends_calling_of_ends`, `ends_of_ends_calling`: from how one of the two runs ends to the other.
-/

namespace Wordstack

variable {E : Embedding}

/-- What a call that leaves the machine `m'` makes of an error, where `outer` are the words running
around the call: the call is one more running word, and an error that came without context gets that
of the call. -/
inductive Reported (outer : List String) (m' : Machine E) : Error → Error → Prop
  | traced {cause : Cause} {location : Option Location} (running : List String) :
      Reported outer m' { cause, location, calls := some (running ++ outer) }
        { cause, location, calls := some (running ++ Builtin.call.name :: outer) }
  | bare {cause : Cause} {location : Option Location} :
      Reported outer m' { cause, location }
        { cause := .inWord Builtin.call.name cause
          location := m'.location?
          calls := some (Builtin.call.name :: outer) }

theorem Reported.kind {outer : List String} {m' : Machine E} {e e' : Error}
    (h : Reported outer m' e e') : e'.kind = e.kind := by
  cases h with
  | traced => rfl
  | bare => rfl

/-- The code that pushes a quotation and calls it. -/
def calling (quotation : ArrayId) : List Value :=
  [.array quotation, .word Builtin.call.name]

open Exec

/-- What a call does with its input: it runs the elements of the quotation and hands back
nothing. -/
theorem run_call (engine : Engine E) (quotation : ArrayId) :
    Builtin.call.run engine [.array quotation] =
      (Vocabulary.runQuotation engine quotation >>= fun _ => pure Returned.nothing) := rfl

theorem takeInputs_call (quotation : ArrayId) (m : Machine E) :
    takeInputs (Builtin.call.entry 0) { m with stack := .array quotation :: m.stack } =
      .done [.array quotation] m := rfl

theorem withContext_call (x : Exec E Unit) :
    (withContext (x >>= fun _ => pure Returned.nothing) >>= pushOutputs (Builtin.call.entry 0)) =
      withContext x := by
  funext m
  simp only [bind_apply, withContext]
  cases x m with
  | done a m' => rfl
  | raised e m' => rfl
  | exhausted => rfl

/-- Pushing a quotation and calling it runs its elements with the call as one more running word. -/
theorem executeAll_call (host : Host E) {m : Machine E} (hm : m.Standard) (quotation : ArrayId)
    (fuel : Nat) :
    (host.engine (fuel + 1)).executeAll (calling quotation) m =
      (withContext ((host.engine fuel).executeAll (m.heap.items quotation))
        (m.entering Builtin.call.name)).mapMachine Machine.leaving := by
  have hpushed : ({ m with stack := .array quotation :: m.stack } : Machine E).Standard :=
    hm.frame (.of_values m _ _ _ _)
  change (host.performWith (host.engine fuel) Builtin.call.name >>= fun _ => pure ())
    { m with stack := .array quotation :: m.stack } = _
  rw [bind_pure_unit, hpushed.performWith_name, Builtin.perform,
    bind_of_done (takeInputs_call quotation m), within_apply, run_call, withContext_call]
  rfl

/-! ### From one run to the other -/

section

variable {host : Host E} {m : Machine E} {quotation : ArrayId}

/-- The call ends as its elements do inside it. -/
theorem ends_calling_iff (hm : m.Standard) {o : Outcome E Unit} :
    host.Ends (·.executeAll (calling quotation)) m o ↔
      host.Ends (inside Builtin.call.name (·.executeAll (m.heap.items quotation))) m o := by
  refine Host.ends_succ_iff fun fuel => ?_
  rw [executeAll_call host hm, inside_apply]

/-- How the call ends, given how the elements end. -/
theorem ends_calling_of_ends (hm : m.Standard) {o : Outcome E Unit}
    (h : host.Ends (·.executeAll (m.heap.items quotation)) m o) :
    (∃ m', o = .done () m' ∧ host.Ends (·.executeAll (calling quotation)) m (.done () m')) ∨
    (∃ e e' m', o = .raised e m' ∧ Reported m.calls m' e e' ∧
      host.Ends (·.executeAll (calling quotation)) m (.raised e' m')) := by
  rcases (steady_executeAll _).ends_inside hm.plain Builtin.call.name h with
    ⟨a, n, rfl, hn⟩ | ⟨e, e', n, rfl, hcalls, he, hn⟩
  · exact .inl ⟨n, rfl, (ends_calling_iff hm).mpr hn⟩
  · refine .inr ⟨e, _, n, rfl, ?_, (ends_calling_iff hm).mpr hn⟩
    cases he with
    | traced running => exact .traced running
    | bare =>
      rw [← hcalls]
      exact .bare

/-- If the call ends, so do the elements. -/
theorem ends_of_ends_calling (hm : m.Standard) {o : Outcome E Unit}
    (h : host.Ends (·.executeAll (calling quotation)) m o) :
    ∃ o', host.Ends (·.executeAll (m.heap.items quotation)) m o' :=
  (steady_executeAll _).ends_of_inside hm.plain ((ends_calling_iff hm).mp h)

end

/-- **A call is transparent.**  From every state of a standard machine and for every quotation:
pushing the quotation and calling it succeeds exactly if executing its elements does, and leaves the
same machine; and if one of them fails, so does the other, with an error of the same kind that
differs in its context only, and leaves the same machine. -/
theorem call_transparent (host : Host E) {m : Machine E} (hm : m.Standard) (quotation : ArrayId) :
    (∀ m', host.Ends (·.executeAll (calling quotation)) m (.done () m') ↔
      host.Ends (·.executeAll (m.heap.items quotation)) m (.done () m')) ∧
    (∀ e m', host.Ends (·.executeAll (m.heap.items quotation)) m (.raised e m') →
      ∃ e', host.Ends (·.executeAll (calling quotation)) m (.raised e' m') ∧
        e'.kind = e.kind ∧ Reported m.calls m' e e') ∧
    (∀ e' m', host.Ends (·.executeAll (calling quotation)) m (.raised e' m') →
      ∃ e, host.Ends (·.executeAll (m.heap.items quotation)) m (.raised e m') ∧
        e'.kind = e.kind ∧ Reported m.calls m' e e') := by
  refine ⟨fun m' => ⟨fun h => ?_, fun h => ?_⟩, fun e m' h => ?_, fun e' m' h => ?_⟩
  · obtain ⟨o, ho⟩ := ends_of_ends_calling hm h
    rcases ends_calling_of_ends hm ho with ⟨n, rfl, hn⟩ | ⟨e, e', n, rfl, -, hn⟩
    · obtain ⟨-, rfl⟩ := Outcome.done.inj (h.unique hn)
      exact ho
    · cases h.unique hn
  · rcases ends_calling_of_ends hm h with ⟨n, hdone, hn⟩ | ⟨e, e', n, hraised, -⟩
    · obtain ⟨-, rfl⟩ := Outcome.done.inj hdone
      exact hn
    · cases hraised
  · rcases ends_calling_of_ends hm h with ⟨n, hdone, -⟩ | ⟨_, e', n, hraised, hreported, hn⟩
    · cases hdone
    · obtain ⟨rfl, rfl⟩ := Outcome.raised.inj hraised
      exact ⟨e', hn, hreported.kind, hreported⟩
  · obtain ⟨o, ho⟩ := ends_of_ends_calling hm h
    rcases ends_calling_of_ends hm ho with ⟨n, rfl, hn⟩ | ⟨e, _, n, rfl, hreported, hn⟩
    · cases h.unique hn
    · obtain ⟨rfl, rfl⟩ := Outcome.raised.inj (h.unique hn)
      exact ⟨e, ho, hreported.kind, hreported⟩

/-- A division by zero in a quotation: the call is reported as one more running word. -/
theorem call_transparent_division :
    ∃ (e : Error) (m' : Machine .bare),
      Host.bare.Ends (·.executeAll (calling ⟨0⟩))
        ((Machine.standard (E := .bare) ()).holding [] [.int 7, .int 0, .word "/"]) (.raised e m') ∧
      Reported [] m' { cause := .divisionByZero, calls := some ["/"] } e := by
  have hm := (Machine.standard_standard (E := .bare) ()).holding [] [.int 7, .int 0, .word "/"]
  have hruns : ((Host.bare.engine 6).executeAll [.int 7, .int 0, .word "/"]
      ((Machine.standard (E := .bare) ()).holding [] [.int 7, .int 0, .word "/"])).error? =
        some { cause := .divisionByZero, calls := some ["/"] } := by
    decide +kernel
  obtain ⟨m', hm'⟩ := Outcome.eq_raised_of_error? hruns
  obtain ⟨e, he, -, hreported⟩ := (call_transparent Host.bare hm ⟨0⟩).2.1 _ m'
    (Host.ends_executeAll hm.plain hm' nofun)
  have hcalls :
      ((Machine.standard (E := .bare) ()).holding [] [.int 7, .int 0, .word "/"]).calls = [] := by
    decide +kernel
  exact ⟨e, m', he, hcalls ▸ hreported⟩

end Wordstack
