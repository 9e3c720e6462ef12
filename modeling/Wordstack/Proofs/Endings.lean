import Wordstack.Proofs.Ground

/-!
# Endings compared

How a computation ends, whatever the fuel, and when two computations end alike: if one of them ends,
so does the other, both with success or both with an error of one kind, and they leave the same
machine.

* `Steady`: a computation that does the same on every ground and with every engine that has the fuel
  for it; `Host.ends_of_fuel`: how it ends is settled by one amount of fuel.
* `Host.Ends.bind`, `Host.EndsAlike.bind`: computations in sequence.
* `inside`: a computation as part of a word; `Steady.endsAlike_inside`: it ends as it does by
  itself.
-/

namespace Wordstack

variable {E : Embedding} {α β : Type}

open Correspondence

/-! ### Steady computations -/

/-- A computation that does the same on every other ground, whatever words of its own are running,
with every engine that has no less fuel. -/
def Steady (x : Engine E → Exec E α) : Prop :=
  ∀ (g : Ground) (inner : List String) (engine engine' : Engine E),
    (g.moving E).Engines engine engine' →
      (g.moving E).Sim inner (fun _ => Eq) (x engine) (x engine')

theorem steady_bind {x : Engine E → Exec E α} {f : Engine E → α → Exec E β} (hx : Steady x)
    (hf : ∀ a, Steady (f · a)) : Steady fun engine => x engine >>= f engine := by
  intro g inner engine engine' h
  refine h.closed.bind (hx g inner engine engine' h) ?_
  rintro inner' a _ - rfl
  exact hf a g inner' engine engine' h

theorem steady_pure (a : α) : Steady fun _ : Engine E => (pure a : Exec E α) :=
  fun _ _ _ _ h => h.closed.pure rfl

/-- What has no result to speak of. -/
theorem steady_of_sim {x : Engine E → Exec E Unit}
    (hx : ∀ (g : Ground) (inner : List String) (engine engine' : Engine E),
      (g.moving E).Engines engine engine' →
        (g.moving E).Sim inner Anything (x engine) (x engine')) : Steady x :=
  fun g inner engine engine' h =>
    h.closed.imp (hx g inner engine engine' h) fun _ _ _ _ => rfl

theorem steady_push (value : Value) : Steady fun _ : Engine E => Exec.push value :=
  steady_of_sim fun _ _ _ _ h => h.closed.push rfl

theorem steady_pop : Steady fun _ : Engine E => Exec.pop :=
  fun _ _ _ _ h => h.closed.pop

theorem steady_newArray (values : List Value) : Steady fun _ : Engine E => Exec.newArray values :=
  fun _ _ _ _ h => h.closed.newArray ((rows_iff_eq rfl).mpr rfl)

theorem steady_executeAll (code : List Value) :
    Steady fun engine : Engine E => engine.executeAll code :=
  steady_of_sim fun _ _ _ _ h => h.executeAll ((rows_iff_eq rfl).mpr rfl)

theorem steady_parse (path source : String) :
    Steady fun engine : Engine E => engine.parse path source :=
  fun _ inner _ _ h => h.closed.imp (h.parse inner path source) fun _ _ _ => (rows_iff_eq rfl).mp

theorem steady_process (path source : String) :
    Steady fun engine : Engine E => engine.process path source :=
  steady_of_sim fun _ _ _ _ h => h.process path source

theorem steady_runQuotation (quotation : ArrayId) :
    Steady fun engine : Engine E => Vocabulary.runQuotation engine quotation :=
  steady_of_sim fun _ _ _ _ h => h.runQuotation rfl

theorem steady_repeatQuotation (quotation : ArrayId) (n : Nat) :
    Steady fun engine : Engine E => Vocabulary.repeatQuotation engine quotation n :=
  steady_of_sim fun _ _ _ _ h => h.repeatQuotation rfl n

theorem steady_runOnEach (quotation : ArrayId) (values : List Value) :
    Steady fun engine : Engine E => Vocabulary.runOnEach engine quotation values :=
  steady_of_sim fun _ _ _ _ h => h.runOnEach rfl ((rows_iff_eq rfl).mpr rfl)

theorem steady_collectOnEach (quotation : ArrayId) (values : List Value) :
    Steady fun engine : Engine E => Vocabulary.collectOnEach engine quotation values :=
  fun _ _ _ _ h => h.closed.imp
    (h.collectOnEach rfl ((rows_iff_eq rfl).mpr rfl)) fun _ _ _ => (rows_iff_eq rfl).mp

theorem Engine.executeAll_append (engine : Engine E) (code code' : List Value) :
    engine.executeAll (code ++ code') =
      engine.executeAll code >>= fun _ => engine.executeAll code' := by
  induction code with
  | nil => rfl
  | cons value code ih =>
    change (engine.execute value >>= fun _ => engine.executeAll (code ++ code')) = _
    rw [ih, ← bind_assoc]
    rfl

namespace Host

variable {host : Host E} {x : Engine E → Exec E α} {m n : Machine E}

/-- More fuel does not change how a steady computation ends on a plain machine. -/
theorem ends_of_fuel {o : Outcome E α} (hm : m.Plain) (hx : Steady x) {fuel : Nat}
    (h : x (host.engine fuel) m = o) (ho : o ≠ .exhausted) : host.Ends x m o := by
  have hholds : (Ground.under [] m.calls []).Holds [] m :=
    ⟨hm, rfl, fun hbelow => absurd rfl hbelow⟩
  refine ⟨ho, fuel, fun more hle => ?_⟩
  have hfollows := hx _ [] _ _
    (host.engineAvoiding_moving (Ground.under [] m.calls []) hle) m _ ⟨rfl, hholds⟩
  rw [hholds.lift_under, Machine.upon_nil] at hfollows
  change Ground.Follows _ [] _ (x (host.engineAvoiding [] fuel) m) _ at hfollows
  rw [host.engineAvoiding_nil, h] at hfollows
  generalize x (host.engine more) m = o' at hfollows ⊢
  cases hfollows with
  | exhausted => exact absurd rfl ho
  | excused hbelow => exact absurd rfl hbelow
  | done result hm' => rw [hm'.lift_under, Machine.upon_nil, result]
  | raised he hm' => rw [hm'.lift_under, he.eq_under, Machine.upon_nil]

/-- Behind a computation that succeeds, the ending is that of what follows. -/
theorem Ends.bind {a : α} (hx : host.Ends x m (.done a n)) {f : Engine E → α → Exec E β}
    {o : Outcome E β} : host.Ends (fun engine => x engine >>= f engine) m o ↔
      host.Ends (f · a) n o := by
  obtain ⟨-, fuel, hfuel⟩ := hx
  have hbind : ∀ more, fuel ≤ more →
      (x (host.engine more) >>= f (host.engine more)) m = f (host.engine more) a n :=
    fun more hle => Exec.bind_of_done (hfuel more hle)
  constructor
  · rintro ⟨ho, fuel', hfuel'⟩
    refine ⟨ho, max fuel fuel', fun more hle => ?_⟩
    rw [← hfuel' more (by omega)]
    exact (hbind more (by omega)).symm
  · rintro ⟨ho, fuel', hfuel'⟩
    refine ⟨ho, max fuel fuel', fun more hle => ?_⟩
    rw [← hfuel' more (by omega)]
    exact hbind more (by omega)

theorem Ends.bind_raised {e : Error} (hx : host.Ends x m (.raised e n))
    (f : Engine E → α → Exec E β) :
    host.Ends (fun engine => x engine >>= f engine) m (.raised e n) := by
  obtain ⟨-, fuel, hfuel⟩ := hx
  exact ⟨nofun, fuel, fun more hle => Exec.bind_of_raised (hfuel more hle)⟩

/-- A computation that runs a course leaves a machine inside the frame. -/
theorem Ends.frame {a : α} (h : host.Ends x m (.done a n))
    (hx : ∀ engine : Engine E, engine.Runs → (x engine).Runs) (hm : m.Plain) : m.Frame n := by
  obtain ⟨-, fuel, hfuel⟩ := h
  have hframe := (hx _ (host.engine_runs fuel) m hm).frame
  rw [hfuel fuel (Nat.le_refl _)] at hframe
  exact hframe

/-- If a sequence ends, so does its first part. -/
theorem Ends.exists_first (hx : Steady x) (hm : m.Plain) {f : Engine E → α → Exec E β}
    {o : Outcome E β} (h : host.Ends (fun engine => x engine >>= f engine) m o) :
    ∃ o', host.Ends x m o' := by
  obtain ⟨ho, fuel, hfuel⟩ := h
  have hfirst : x (host.engine fuel) m ≠ .exhausted := by
    intro hexhausted
    refine ho ?_
    rw [← hfuel fuel (Nat.le_refl _)]
    exact Exec.bind_of_exhausted hexhausted
  exact ⟨_, ends_of_fuel hm hx rfl hfirst⟩

/-- What one level of fuel more does on one machine, the level below does on another: they end the
same. -/
theorem ends_succ_iff {y : Engine E → Exec E α}
    (h : ∀ fuel, y (host.engine (fuel + 1)) n = x (host.engine fuel) m) {o : Outcome E α} :
    host.Ends y n o ↔ host.Ends x m o := by
  constructor
  · rintro ⟨ho, fuel, hfuel⟩
    refine ⟨ho, fuel, fun more hle => ?_⟩
    rw [← h more]
    exact hfuel (more + 1) (by omega)
  · rintro ⟨ho, fuel, hfuel⟩
    refine ⟨ho, fuel + 1, fun more hle => ?_⟩
    obtain ⟨k, rfl⟩ : ∃ k, more = k + 1 := ⟨more - 1, by omega⟩
    rw [h k]
    exact hfuel k (by omega)

end Host

/-! ### Computations that end alike -/

/-- Both succeed with one result, or both fail with errors of one kind, and they leave the same
machine. -/
inductive Outcome.Alike : Outcome E α → Outcome E α → Prop
  | done (a : α) (m : Machine E) : Alike (.done a m) (.done a m)
  | raised {e e' : Error} (m : Machine E) (kind : e'.kind = e.kind) :
      Alike (.raised e m) (.raised e' m)

theorem Outcome.Alike.refl {o : Outcome E α} (ho : o ≠ .exhausted) : o.Alike o := by
  cases o with
  | done a m => exact .done a m
  | raised e m => exact .raised m rfl
  | exhausted => exact absurd rfl ho

theorem Outcome.Alike.symm {o o' : Outcome E α} (h : o.Alike o') : o'.Alike o := by
  cases h with
  | done a m => exact .done a m
  | raised m kind => exact .raised m kind.symm

theorem Outcome.Alike.trans {o o' o'' : Outcome E α} (h : o.Alike o') (h' : o'.Alike o'') :
    o.Alike o'' := by
  cases h with
  | done a m => exact h'
  | raised m kind =>
    cases h' with
    | raised m kind' => exact .raised m (kind'.trans kind)

/-- Two computations, each on a machine of its own, end alike: if one of them ends, so does the
other. -/
structure Host.EndsAlike (host : Host E) (x : Engine E → Exec E α) (m : Machine E)
    (y : Engine E → Exec E α) (n : Machine E) : Prop where
  right : ∀ o, host.Ends x m o → ∃ o', host.Ends y n o' ∧ o.Alike o'
  left : ∀ o', host.Ends y n o' → ∃ o, host.Ends x m o ∧ o.Alike o'

namespace Host.EndsAlike

variable {host : Host E} {x y z : Engine E → Exec E α} {k m n : Machine E}

/-- Computations that end the same end alike. -/
theorem of_iff (h : ∀ o, host.Ends x m o ↔ host.Ends y n o) : host.EndsAlike x m y n where
  right := fun o ho => ⟨o, (h o).mp ho, .refl ho.1⟩
  left := fun o ho => ⟨o, (h o).mpr ho, .refl ho.1⟩

theorem refl (x : Engine E → Exec E α) (m : Machine E) : host.EndsAlike x m x m :=
  of_iff fun _ => Iff.rfl

theorem symm (h : host.EndsAlike x m y n) : host.EndsAlike y n x m where
  right := by
    intro o ho
    obtain ⟨o', ho', halike⟩ := h.left o ho
    exact ⟨o', ho', halike.symm⟩
  left := by
    intro o ho
    obtain ⟨o', ho', halike⟩ := h.right o ho
    exact ⟨o', ho', halike.symm⟩

theorem trans (h : host.EndsAlike x k y m) (h' : host.EndsAlike y m z n) :
    host.EndsAlike x k z n where
  right := by
    intro o ho
    obtain ⟨o', ho', halike⟩ := h.right o ho
    obtain ⟨o'', ho'', halike'⟩ := h'.right o' ho'
    exact ⟨o'', ho'', halike.trans halike'⟩
  left := by
    intro o ho
    obtain ⟨o', ho', halike⟩ := h'.left o ho
    obtain ⟨o'', ho'', halike'⟩ := h.left o' ho'
    exact ⟨o'', ho'', halike'.trans halike⟩

/-- From success to success: the result and the machine are the same. -/
theorem done_iff (h : host.EndsAlike x m y n) {a : α} :
    host.Ends x m (.done a k) ↔ host.Ends y n (.done a k) := by
  constructor
  · intro hx
    obtain ⟨o, ho, halike⟩ := h.right _ hx
    cases halike
    exact ho
  · intro hy
    obtain ⟨o, ho, halike⟩ := h.left _ hy
    cases halike
    exact ho

/-- One half of `bind`; the other is the same with the sides changed. -/
theorem bind_right (hx : Steady x) (hm : m.Plain) (h : host.EndsAlike x m y m)
    {f g : Engine E → α → Exec E β}
    (hfg : ∀ a n, host.Ends x m (.done a n) → host.EndsAlike (f · a) n (g · a) n)
    {o : Outcome E β} (ho : host.Ends (fun engine => x engine >>= f engine) m o) :
    ∃ o', host.Ends (fun engine => y engine >>= g engine) m o' ∧ o.Alike o' := by
  obtain ⟨first, hfirst⟩ := ho.exists_first hx hm
  obtain ⟨first', hfirst', halike⟩ := h.right first hfirst
  cases halike with
  | done a n =>
    obtain ⟨o', ho', halike'⟩ := (hfg a n hfirst).right o (hfirst.bind.mp ho)
    exact ⟨o', hfirst'.bind.mpr ho', halike'⟩
  | raised n kind =>
    obtain rfl := ho.unique (hfirst.bind_raised f)
    exact ⟨_, hfirst'.bind_raised g, .raised n kind⟩

/-- Sequences end alike if their first parts do, and then what follows these. -/
theorem bind (hx : Steady x) (hy : Steady y) (hm : m.Plain) (h : host.EndsAlike x m y m)
    {f g : Engine E → α → Exec E β}
    (hfg : ∀ a n, host.Ends x m (.done a n) → host.EndsAlike (f · a) n (g · a) n) :
    host.EndsAlike (fun engine => x engine >>= f engine) m
      (fun engine => y engine >>= g engine) m where
  right := fun _ ho => h.bind_right hx hm hfg ho
  left := by
    intro o ho
    obtain ⟨o', ho', halike⟩ :=
      h.symm.bind_right hy hm (fun a n hn => (hfg a n (h.done_iff.mpr hn)).symm) ho
    exact ⟨o', ho', halike.symm⟩

end Host.EndsAlike

/-! ### Computations inside a word -/

open Exec

/-- A computation as part of a word, which adds its context to an error that has none. -/
def inside (name : String) (x : Engine E → Exec E α) (engine : Engine E) : Exec E α :=
  within name (withContext (x engine))

theorem inside_apply (name : String) (x : Engine E → Exec E α) (engine : Engine E) (m : Machine E) :
    inside name x engine m =
      (withContext (x engine) (m.entering name)).mapMachine Machine.leaving :=
  within_apply name _ m

theorem Steady.inside {x : Engine E → Exec E α} (hx : Steady x) (name : String) :
    Steady (inside name x) :=
  fun g inner engine engine' h =>
    Ground.sim_within rfl (Ground.sim_withContext (hx g (name :: inner) engine engine' h))

/-- The ground with one running word more. -/
def Ground.inside (name : String) (running : List String) : Ground :=
  { below := [], outer := running, outer' := name :: running, avoided := [] }

/-- The ground with one running word less. -/
def Ground.outside (name : String) (running : List String) : Ground :=
  { below := [], outer := name :: running, outer' := running, avoided := [] }

theorem Ground.Holds.lift_inside {name : String} {running : List String} {m : Machine E}
    (h : (inside name running).Holds [] m) : (inside name running).lift [] m = m.entering name := by
  have hcalls : running = m.calls := h.calls.symm
  simp [lift, inside, Machine.entering, hcalls]

theorem Ground.lift_outside (name : String) (m : Machine E) :
    (outside name m.calls).lift [] (m.entering name) = m := by
  simp [lift, outside, Machine.entering]

namespace Steady

variable {host : Host E} {x : Engine E → Exec E α} {m : Machine E} (hx : Steady x) (hm : m.Plain)
include hx hm

/-- How a computation ends inside a word, given how it ends by itself: an error that came without
context has that of the word, and any other has the word among its running words. -/
theorem ends_inside (name : String) {o : Outcome E α} (h : host.Ends x m o) :
    (∃ a n, o = .done a n ∧ host.Ends (Wordstack.inside name x) m (.done a n)) ∨
    (∃ e e' n, o = .raised e n ∧ n.calls = m.calls ∧ (Ground.inside name m.calls).Moves e e' ∧
      host.Ends (Wordstack.inside name x) m (.raised ((n.entering name).addContext e') n)) := by
  obtain ⟨ho, fuel, hfuel⟩ := h
  have hdirect : x (host.engine fuel) m = o := hfuel fuel (Nat.le_refl _)
  have hm' : (Ground.inside name m.calls).Holds [] m :=
    ⟨hm, rfl, fun hbelow => absurd rfl hbelow⟩
  have hfollows := hx _ [] _ _
    (host.engineAvoiding_moving (.inside name m.calls) (Nat.le_refl fuel)) m _ ⟨rfl, hm'⟩
  change Ground.Follows _ [] _ (x (host.engineAvoiding [] fuel) m) _ at hfollows
  rw [host.engineAvoiding_nil, hdirect, hm'.lift_inside] at hfollows
  have hinside := inside_apply name x (host.engine fuel) m
  -- with the same fuel, the computation ends inside the word as it does outside
  generalize hinner : x (host.engine fuel) (m.entering name) = inner at hfollows
  cases hfollows with
  | exhausted => exact absurd rfl ho
  | excused hbelow => exact absurd rfl hbelow
  | @done n a _ result hn =>
    obtain rfl := result
    rw [hn.lift_inside] at hinner
    rw [withContext_of_done hinner] at hinside
    exact .inl ⟨a, n, rfl, Host.ends_of_fuel hm (hx.inside name) hinside nofun⟩
  | @raised n e e' he hn =>
    rw [hn.lift_inside] at hinner
    rw [withContext_of_raised hinner] at hinside
    exact .inr ⟨e, e', n, rfl, hn.calls, he, Host.ends_of_fuel hm (hx.inside name) hinside nofun⟩

/-- If a computation ends inside a word, it ends by itself. -/
theorem ends_of_inside {name : String} {o : Outcome E α}
    (h : host.Ends (Wordstack.inside name x) m o) : ∃ o', host.Ends x m o' := by
  obtain ⟨ho, fuel, hfuel⟩ := h
  have hinner : x (host.engine fuel) (m.entering name) ≠ .exhausted := by
    intro hexhausted
    refine ho ?_
    rw [← hfuel fuel (Nat.le_refl _), inside_apply, withContext_of_exhausted hexhausted]
    rfl
  -- the run inside the word is the first one here, and the direct run follows it
  have hm' : (Ground.outside name m.calls).Holds [] (m.entering name) :=
    ⟨⟨hm.hook, hm.action⟩, rfl, fun hbelow => absurd rfl hbelow⟩
  have hfollows := hx _ [] _ _
    (host.engineAvoiding_moving (.outside name m.calls) (Nat.le_refl fuel)) _ _ ⟨rfl, hm'⟩
  change Ground.Follows _ [] _ (x (host.engineAvoiding [] fuel) _) _ at hfollows
  rw [host.engineAvoiding_nil, Ground.lift_outside] at hfollows
  exact ⟨_, Host.ends_of_fuel hm hx rfl (hfollows.ne_exhausted rfl hinner)⟩

/-- **A computation ends inside a word as it does by itself.** -/
theorem endsAlike_inside (name : String) :
    host.EndsAlike x m (Wordstack.inside name x) m := by
  have hright : ∀ o, host.Ends x m o →
      ∃ o', host.Ends (Wordstack.inside name x) m o' ∧ o.Alike o' := by
    intro o ho
    rcases hx.ends_inside hm name ho with ⟨a, n, rfl, hn⟩ | ⟨e, e', n, rfl, -, he, hn⟩
    · exact ⟨_, hn, .done a n⟩
    · refine ⟨_, hn, .raised n ?_⟩
      cases he <;> rfl
  refine ⟨hright, fun o' ho' => ?_⟩
  obtain ⟨o, ho⟩ := hx.ends_of_inside hm ho'
  obtain ⟨o'', ho'', halike⟩ := hright o ho
  exact ⟨o, ho, ho'.unique ho'' ▸ halike⟩

end Steady

end Wordstack
