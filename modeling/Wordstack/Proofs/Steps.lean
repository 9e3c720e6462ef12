import Wordstack.Machine.Host

/-!
# How computations run

Equations for the computations that clean up after a part of them: a word in progress, a parse with
a reader and an accumulator of its own, a collection up to a delimiter.  Each says how the whole
ends from how the part ends, so that no proof has to open `attempt` and `conclude` again.

* `Outcome.Leaves`: what holds of the machine that a computation leaves, if it ends.
* `within_apply`, `parseSource_of_done`, `parseUntil_of_done` and their like.
* `Host.Ends`: how a computation ends, whatever the fuel, as long as it is enough.
-/

namespace Wordstack

variable {E : Embedding} {α β : Type}

namespace Outcome

/-- Changes the machine that is left. -/
def mapMachine (f : Machine E → Machine E) : Outcome E α → Outcome E α
  | done a m => .done a (f m)
  | raised e m => .raised e (f m)
  | exhausted => .exhausted

/-- The machine that is left, if the computation ended. -/
def machine? : Outcome E α → Option (Machine E)
  | done _ m => some m
  | raised _ m => some m
  | exhausted => none

/-- The error, if the computation raised one. -/
def error? : Outcome E α → Option Error
  | raised e _ => some e
  | _ => none

theorem eq_raised_of_error? {o : Outcome E α} {e : Error} (h : o.error? = some e) :
    ∃ m, o = .raised e m := by
  cases o with
  | raised e' m => exact ⟨m, Option.some.inj h ▸ rfl⟩
  | done a m => cases h
  | exhausted => cases h

/-- Whether a computation has succeeded. -/
def isDone : Outcome E α → Bool
  | done _ _ => true
  | _ => false

theorem exists_of_isDone {o : Outcome E α} (h : o.isDone = true) :
    ∃ a m, o = .done a m := by
  cases o with
  | done a m => exact ⟨a, m, rfl⟩
  | raised e m => cases h
  | exhausted => cases h

/-- The machine that is left, if the computation ended, is as said. -/
def Leaves (P : Machine E → Prop) : Outcome E α → Prop
  | done _ m => P m
  | raised _ m => P m
  | exhausted => True

theorem Leaves.of_machine? {P : Machine E → Prop} {o : Outcome E α} {m : Machine E} (h : o.Leaves P)
    (hm : o.machine? = some m) : P m := by
  cases o with
  | done a m' => exact Option.some.inj hm ▸ h
  | raised e m' => exact Option.some.inj hm ▸ h
  | exhausted => cases hm

theorem Leaves.mono {P Q : Machine E → Prop} {o : Outcome E α} (h : o.Leaves P)
    (hPQ : ∀ m, P m → Q m) : o.Leaves Q := by
  cases o with
  | done a m => exact hPQ m h
  | raised e m => exact hPQ m h
  | exhausted => trivial

theorem Leaves.and {P Q : Machine E → Prop} {o : Outcome E α} (h : o.Leaves P) (h' : o.Leaves Q) :
    o.Leaves fun m => P m ∧ Q m := by
  cases o with
  | done a m => exact ⟨h, h'⟩
  | raised e m => exact ⟨h, h'⟩
  | exhausted => trivial

theorem Leaves.mapMachine {P Q : Machine E → Prop} {o : Outcome E α} {f : Machine E → Machine E}
    (h : o.Leaves P) (hPQ : ∀ m, P m → Q (f m)) : (o.mapMachine f).Leaves Q := by
  cases o with
  | done a m => exact hPQ m h
  | raised e m => exact hPQ m h
  | exhausted => trivial

end Outcome

namespace Machine

/-- The machine with one more running word. -/
def entering (name : String) (m : Machine E) : Machine E :=
  { m with calls := name :: m.calls }

/-- The machine with the innermost running word gone. -/
def leaving (m : Machine E) : Machine E :=
  { m with calls := m.calls.tail }

end Machine

namespace Exec

theorem bind_of_done {x : Exec E α} {f : α → Exec E β} {m n : Machine E} {a : α}
    (h : x m = .done a n) : (x >>= f) m = f a n := by
  rw [bind_apply, h]

theorem bind_of_raised {x : Exec E α} {f : α → Exec E β} {m n : Machine E} {e : Error}
    (h : x m = .raised e n) : (x >>= f) m = .raised e n := by
  rw [bind_apply, h]

theorem bind_of_exhausted {x : Exec E α} {f : α → Exec E β} {m : Machine E}
    (h : x m = .exhausted) : (x >>= f) m = .exhausted := by
  rw [bind_apply, h]

/-- If a sequence succeeds, so does its first part, and what follows it. -/
theorem exists_of_bind_done {x : Exec E α} {f : α → Exec E β} {m n : Machine E} {b : β}
    (h : (x >>= f) m = .done b n) : ∃ a k, x m = .done a k ∧ f a k = .done b n := by
  rw [bind_apply] at h
  cases hx : x m with
  | done a k =>
    rw [hx] at h
    exact ⟨a, k, rfl, h⟩
  | raised e k =>
    rw [hx] at h
    cases h
  | exhausted =>
    rw [hx] at h
    cases h

/-- A look at the machine. -/
theorem machine_bind (k : Machine E → Exec E α) (m : Machine E) : (machine >>= k) m = k m m := rfl

theorem withContext_of_done {x : Exec E α} {m n : Machine E} {a : α} (h : x m = .done a n) :
    withContext x m = .done a n := by
  rw [withContext, h]

theorem withContext_of_raised {x : Exec E α} {m n : Machine E} {e : Error} (h : x m = .raised e n) :
    withContext x m = .raised (n.addContext e) n := by
  rw [withContext, h]

theorem withContext_of_exhausted {x : Exec E α} {m : Machine E} (h : x m = .exhausted) :
    withContext x m = .exhausted := by
  rw [withContext, h]

/-- A computation inside a word runs with the word among the running words, and takes the first of
them away when it ends. -/
theorem within_apply (name : String) (x : Exec E α) (m : Machine E) :
    within name x m =
      (x { m with calls := name :: m.calls }).mapMachine
        fun m' => { m' with calls := m'.calls.tail } := by
  change (attempt x >>= fun result => do
    modify fun m => { m with calls := m.calls.tail }
    conclude result : Exec E α) { m with calls := name :: m.calls } = _
  rw [bind_apply, attempt]
  cases x { m with calls := name :: m.calls } <;> rfl

end Exec

namespace Engine

open Exec

variable (engine : Engine E) {m m' : Machine E} {values : List Value}

/-! ### Parsing with a reader and an accumulator of its own -/

section Parse

variable {path source : String} {buffer : Buffer}

/-- The machine on which a parse reads: the source is the innermost reader, and an empty accumulator
the innermost accumulator. -/
def opened (path source : String) (m : Machine E) : Machine E :=
  { m with
    lexers := .ofSource path source :: m.lexers
    accumulators := [] :: m.accumulators }

theorem parseSource_apply :
    engine.parseSource path source m =
      (do let parsed ← attempt (engine.parseAll engine.rounds)
          let collected ← attempt popAccumulator
          let _ ← popLexer
          conclude parsed
          conclude collected : Exec E (List Value)) (opened path source m) := rfl

theorem parseSource_of_done (h : engine.parseAll engine.rounds (opened path source m) = .done () m')
    (hl : m'.lexers = buffer :: m.lexers) (ha : m'.accumulators = values :: m.accumulators) :
    engine.parseSource path source m =
      .done values.reverse { m' with lexers := m.lexers, accumulators := m.accumulators } := by
  rw [parseSource_apply, bind_of_done (a := .ok ()) (n := m') (by rw [attempt, h]),
    bind_of_done (a := .ok values.reverse) (n := { m' with accumulators := m.accumulators })
      (by rw [attempt, popAccumulator, ha]),
    bind_of_done (a := buffer)
      (n := { m' with lexers := m.lexers, accumulators := m.accumulators })
      (by rw [popLexer, hl])]
  rfl

theorem parseSource_of_raised {e : Error}
    (h : engine.parseAll engine.rounds (opened path source m) = .raised e m')
    (hl : m'.lexers = buffer :: m.lexers) (ha : m'.accumulators = values :: m.accumulators) :
    engine.parseSource path source m =
      .raised e { m' with lexers := m.lexers, accumulators := m.accumulators } := by
  rw [parseSource_apply, bind_of_done (a := .error e) (n := m') (by rw [attempt, h]),
    bind_of_done (a := .ok values.reverse) (n := { m' with accumulators := m.accumulators })
      (by rw [attempt, popAccumulator, ha]),
    bind_of_done (a := buffer)
      (n := { m' with lexers := m.lexers, accumulators := m.accumulators })
      (by rw [popLexer, hl])]
  rfl

theorem parseSource_of_exhausted
    (h : engine.parseAll engine.rounds (opened path source m) = .exhausted) :
    engine.parseSource path source m = .exhausted := by
  rw [parseSource_apply, bind_of_exhausted (by rw [attempt, h])]

end Parse

/-! ### Collecting up to a delimiter -/

section Until

variable {delimiter : String}

/-- The machine on which a collection reads: an empty accumulator is the innermost one. -/
def collecting (m : Machine E) : Machine E :=
  { m with accumulators := [] :: m.accumulators }

theorem parseUntil_apply :
    engine.parseUntil delimiter m =
      if m.lexers.isEmpty then .raised (m.error .untilOutsideParse) m
      else
        (do let result ← attempt (engine.collectUntil delimiter engine.rounds)
            let collected ← popAccumulator
            conclude result
            pure collected.dropLast : Exec E (List Value)) (collecting m) := by
  change (if m.lexers.isEmpty then raise .untilOutsideParse else _ : Exec E (List Value)) m = _
  split <;> rfl

theorem parseUntil_of_idle (h : m.lexers = []) :
    engine.parseUntil delimiter m = .raised (m.error .untilOutsideParse) m := by
  rw [parseUntil_apply, h]
  rfl

theorem parseUntil_of_done (h : m.lexers ≠ [])
    (hc : engine.collectUntil delimiter engine.rounds (collecting m) = .done () m')
    (ha : m'.accumulators = values :: m.accumulators) :
    engine.parseUntil delimiter m =
      .done values.reverse.dropLast { m' with accumulators := m.accumulators } := by
  rw [parseUntil_apply, if_neg (by simpa using h),
    bind_of_done (a := .ok ()) (n := m') (by rw [attempt, hc]),
    bind_of_done (a := values.reverse) (n := { m' with accumulators := m.accumulators })
      (by rw [popAccumulator, ha])]
  rfl

theorem parseUntil_of_raised {e : Error} (h : m.lexers ≠ [])
    (hc : engine.collectUntil delimiter engine.rounds (collecting m) = .raised e m')
    (ha : m'.accumulators = values :: m.accumulators) :
    engine.parseUntil delimiter m = .raised e { m' with accumulators := m.accumulators } := by
  rw [parseUntil_apply, if_neg (by simpa using h),
    bind_of_done (a := .error e) (n := m') (by rw [attempt, hc]),
    bind_of_done (a := values.reverse) (n := { m' with accumulators := m.accumulators })
      (by rw [popAccumulator, ha])]
  rfl

theorem parseUntil_of_exhausted (h : m.lexers ≠ [])
    (hc : engine.collectUntil delimiter engine.rounds (collecting m) = .exhausted) :
    engine.parseUntil delimiter m = .exhausted := by
  rw [parseUntil_apply, if_neg (by simpa using h), bind_of_exhausted (by rw [attempt, hc])]

end Until

end Engine

namespace Host

/-- The computation ends like this: there is an amount of fuel from which on it always does. -/
def Ends (host : Host E) (x : Engine E → Exec E α) (m : Machine E) (o : Outcome E α) : Prop :=
  o ≠ .exhausted ∧ ∃ fuel, ∀ more, fuel ≤ more → x (host.engine more) m = o

theorem Ends.unique {host : Host E} {x : Engine E → Exec E α} {m : Machine E} {o o' : Outcome E α}
    (h : host.Ends x m o) (h' : host.Ends x m o') : o = o' := by
  obtain ⟨-, fuel, hfuel⟩ := h
  obtain ⟨-, fuel', hfuel'⟩ := h'
  rw [← hfuel (max fuel fuel') (Nat.le_max_left _ _), hfuel' _ (Nat.le_max_right _ _)]

end Host

end Wordstack
