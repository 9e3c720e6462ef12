import Wordstack.Proofs.Ground
import Wordstack.Proofs.Standard

/-!
# Locality of the value stack

Code that ends without having run `clear` does not notice what lies below the values it reaches.
With more values at the bottom of the stack it ends alike and leaves them there; only a failure for
want of values may turn into something else.
-/

namespace Wordstack

variable {E : Embedding}

/-- On a standard machine `clear` is the one name that empties the stack. -/
theorem Machine.Standard.holds_under {m : Machine E} (h : m.Standard) (below : List Value) :
    (Ground.under below m.calls [Builtin.clear.name]).Holds [] m where
  plain := h.plain
  calls := rfl
  safe := by
    intro _ name word handler hword hhandler hclear
    have hname : name = Builtin.clear.name := h.name_eq hword hhandler hclear
    exact hname ▸ List.mem_singleton_self _

/-- **Locality of the value stack.**  Take any state of a standard machine, any code, and any values
to be put below the stack.  A run from that state that never gets to `clear` is how the code ends
there; if it succeeds, the code also succeeds with the values put below, and leaves the same machine
with the values still below; and if it fails for another reason than the want of values, the code
fails with the same error, and again leaves the same machine with the values still below. -/
theorem stack_locality (host : Host E) {m : Machine E} (hm : m.Standard) (code below : List Value) :
    (∀ o, host.EndsAvoiding [Builtin.clear.name] (·.executeAll code) m o →
      host.Ends (·.executeAll code) m o) ∧
    (∀ m', host.EndsAvoiding [Builtin.clear.name] (·.executeAll code) m (.done () m') →
      host.Ends (·.executeAll code) (m.upon below) (.done () (m'.upon below))) ∧
    (∀ e m', host.EndsAvoiding [Builtin.clear.name] (·.executeAll code) m (.raised e m') →
      e.kind ≠ .stackUnderflow →
      host.Ends (·.executeAll code) (m.upon below) (.raised e (m'.upon below))) := by
  refine ⟨fun o h => h.ends hm.plain, fun m' h => ?_, fun e m' h hkind => ?_⟩
  · exact h.upon below (hm.holds_under below) fun _ e m' hraised => by cases hraised
  · refine h.upon below (hm.holds_under below) fun _ e' m'' hraised => ?_
    obtain ⟨rfl, -⟩ := Outcome.raised.inj hraised
    exact hkind

/-- A division by zero in a quotation fails alike over another value, and leaves it there. -/
theorem stack_locality_division :
    ∃ m' : Machine .bare, Host.bare.Ends (·.executeAll [.word "call"])
      (((Machine.standard (E := .bare) ()).holding [.array ⟨0⟩, .int 7] [.int 0, .word "/"]).upon
        [.string "below"])
      (.raised { cause := .divisionByZero, calls := some ["/", "call"] }
        (m'.upon [.string "below"])) := by
  have hm := (Machine.standard_standard (E := .bare) ()).holding [.array ⟨0⟩, .int 7]
    [.int 0, .word "/"]
  have hruns : ((Host.bare.engineAvoiding [Builtin.clear.name] 6).executeAll [.word "call"]
      ((Machine.standard (E := .bare) ()).holding [.array ⟨0⟩, .int 7] [.int 0, .word "/"])).error? =
        some { cause := .divisionByZero, calls := some ["/", "call"] } := by
    decide +kernel
  obtain ⟨m', hm'⟩ := Outcome.eq_raised_of_error? hruns
  exact ⟨m', (stack_locality Host.bare hm _ _).2.2 _ m' ⟨nofun, 6, hm'⟩ (by decide)⟩

end Wordstack
