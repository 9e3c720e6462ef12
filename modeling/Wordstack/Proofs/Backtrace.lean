import Wordstack.Proofs.Course

/-!
# Errors report the running words

An error that leaves a word carries the words that were running where it arose.  To say which these
were, a second interpreter stops dead at an error: no word that it was running is left, so its
machine still has them all, and no context is added to the error on its way.  The interpreter itself
ends alike, but for the running words, which it takes off one by one, and for the context, which it
adds once.

* `Halting.engine`: the engine that stops dead.
* `Halting.Named`, `Halting.Told`: what becomes of an error on its way out.
* `Halting.unwinding`: runs of which one stops dead where the other unwinds, with one lemma for each
  operation.
* `Halting.engine_unwinding`: the engines of a host correspond in this way.
* `errors_report_running_words`: how a word that fails reports it.
-/

namespace Wordstack

variable {E : Embedding} {α β : Type}

namespace Halting

open Exec

/-! ### The interpreter that stops dead -/

/-- Runs a computation as part of a word, which is still a running word if the computation fails. -/
def within (name : String) (x : Exec E α) : Exec E α := do
  modify fun m => { m with calls := name :: m.calls }
  let result ← x
  modify fun m => { m with calls := m.calls.tail }
  pure result

/-- Pushes payloads in order; one that does not fit its slot is reported without context. -/
def pushPayloads : List Slot → List Payload → Exec E Unit
  | slot :: slots, payload :: payloads => do
    let heap := (← machine).heap
    let value ← ofExcept (payload.toValue heap slot)
    push value
    pushPayloads slots payloads
  | _, _ => pure ()

/-- Pushes what a handler returned; another number of values than declared is reported without
context. -/
def pushOutputs (word : Entry) (returned : Returned) : Exec E Unit := do
  let payloads ← ofExcept (returned.payloads word.effect.outputs.length)
  pushPayloads word.effect.outputs payloads

variable (host : Host E)

/-- Runs the word of an entry. -/
def dispatchWith (engine : Engine E) (word : Entry) : Exec E Unit := do
  match (← machine).handlers[word.handlerIndex]? with
  | none => raise (.missingHandler word.name word.handlerIndex)
  | some handler =>
    let inputs ← takeInputs word
    within word.name do
      let returned ← host.act engine handler.action inputs
      pushOutputs word returned

/-- Runs the word of a name. -/
def performWith (engine : Engine E) (name : String) : Exec E Unit :=
  if name = untilWord then Host.collectSource engine
  else if name = collectWord then Host.collectTop
  else
    match Host.path? name with
    | some path => Host.pushPath path
    | none => do
      match (← machine).dictionary.get? name with
      | some word => dispatchWith host engine word
      | none => host.offerUnknown engine name

/-- The engine with an amount of fuel that stops dead at an error. -/
def engine : Nat → Engine E
  | 0 => host.engine 0
  | fuel + 1 =>
    { parse := fun path source => (engine fuel).parseSource path source
      perform := fun name => performWith host (engine fuel) name
      dispatch := fun word => dispatchWith host (engine fuel) word
      rounds := fuel + 1 }

/-! ### What becomes of an error -/

/-- The error as it arose, while the given words were running, and the error that reports them.  If
it arose without context, it is put under the name of the innermost of them. -/
inductive Named (standing : List String) : Error → Error → Prop
  | traced {cause : Cause} {location : Option Location} :
      Named standing { cause, location, calls := some standing }
        { cause, location, calls := some standing }
  | wrapped {cause : Cause} {location : Option Location} (name : String)
      (hname : standing.head? = some name) (place : Option Location) :
      Named standing { cause, location }
        { cause := .inWord name cause, location := place, calls := some standing }

/-- The error as it arose and the error that leaves the computation.  One without context may leave
it as it is, as long as no word was running that is not running outside. -/
inductive Told (outer standing : List String) : Error → Error → Prop
  | named {e e' : Error} (h : Named standing e e') : Told outer standing e e'
  | bare {cause : Cause} {location : Option Location} (h : standing = outer) :
      Told outer standing { cause, location } { cause, location }

/-- The error that leaves a word, past its input checks: the words it reports are those that were
running outside, the word, and the words inside it that were running where the error arose. -/
structure Reported (name : String) (outer standing : List String) (e e' : Error) : Prop where
  named : Named standing e e'
  inside : ∃ inner, standing = inner ++ name :: outer

namespace Named

variable {standing : List String} {e e' : Error}

theorem calls (h : Named standing e e') : e'.calls = some standing := by
  cases h with
  | traced => rfl
  | wrapped => rfl

theorem kind (h : Named standing e e') : e'.kind = e.kind := by
  cases h with
  | traced => rfl
  | wrapped => rfl

theorem message (h : Named standing e e') : e'.message = e.message ∨
    ∃ name, standing.head? = some name ∧ e'.message = name ++ ": " ++ e.message := by
  cases h with
  | traced => exact .inl rfl
  | wrapped name hname => exact .inr ⟨name, hname, rfl⟩

end Named

/-- How a computation ends that unwinds, given how it ends if it stops dead.  The words `outer` were
running when it started. -/
inductive Unwinds (told : List String → Error → Error → Prop) (outer : List String)
    (R : List String → α → α → Prop) : Outcome E α → Outcome E α → Prop
  | exhausted : Unwinds told outer R .exhausted .exhausted
  | done {m : Machine E} {a b : α} (result : R outer a b) (hm : m.Plain)
      (hcalls : m.calls = outer) :
      Unwinds told outer R (.done a m) (.done b m)
  | raised {m : Machine E} {e e' : Error} (inner : List String) (hcalls : m.calls = inner ++ outer)
      (he : told m.calls e e') :
      Unwinds told outer R (.raised e m) (.raised e' { m with calls := outer })

open Correspondence

/-- A run that stops dead and one that unwinds, where what is told of an error depends on the words
running outside. -/
def unwinding (E : Embedding) (told : List String → List String → Error → Error → Prop) :
    Correspondence E where
  World := List String
  Later := Eq
  Reading _ := True
  Values _ := Eq
  Arrays _ := Eq
  Inputs _ _ := Eq
  Outputs _ _ := Eq
  Machines outer m m' := m' = m ∧ m.Plain ∧ m.calls = outer
  Ends outer _ := Unwinds (told outer) outer
  Fuel := Eq
  Known _ engine := engine.Runs

/-! ### Computations -/

variable {told : List String → List String → Error → Error → Prop} {outer : List String}
  {R : List String → α → α → Prop}

theorem composes : (unwinding E told).Composes where
  pure hR := by
    rintro _ m ⟨rfl, hm, hcalls⟩
    exact .done hR hm hcalls
  bind := by
    intro α β outer R S x y f f' hx hf
    rintro _ m ⟨rfl, hm, hcalls⟩
    have h := hx m m ⟨rfl, hm, hcalls⟩
    rw [bind_apply, bind_apply]
    generalize x m = o at h ⊢
    generalize y m = o' at h ⊢
    cases h with
    | exhausted => exact .exhausted
    | done result hm' hcalls' => exact hf outer _ _ rfl result _ _ ⟨rfl, hm', hcalls'⟩
    | raised inner hcalls' he => exact .raised inner hcalls' he
  push := by
    rintro outer value _ rfl _ m ⟨rfl, hm, hcalls⟩
    exact .done trivial ⟨hm.hook, hm.action⟩ hcalls

theorem kinds : (unwinding E told).Kinds :=
  .of_eq rfl rfl (fun _ => rfl) (fun h h' => Eq.trans h h') (fun _ _ => trivial)

theorem sim_mono {told' : List String → List String → Error → Error → Prop} {x y : Exec E α}
    (h : (unwinding E told).Sim outer R x y)
    (hmono : ∀ standing e e', told outer standing e e' → told' outer standing e e') :
    (unwinding E told').Sim outer R x y := by
  rintro _ m ⟨rfl, hm, hcalls⟩
  have hxy := h m m ⟨rfl, hm, hcalls⟩
  generalize x m = o at hxy ⊢
  generalize y m = o' at hxy ⊢
  cases hxy with
  | exhausted => exact .exhausted
  | done result hm' hcalls' => exact .done result hm' hcalls'
  | raised inner hcalls' he => exact .raised inner hcalls' (hmono _ _ _ he)

theorem sim_giveUp : (unwinding E told).Sim outer R giveUp giveUp :=
  fun _ _ _ => .exhausted

/-- An error that arises where the computation starts. -/
theorem unwinds_raised {m : Machine E} {e : Error} (hcalls : m.calls = outer)
    (he : Told outer outer e e) :
    Unwinds (Told outer) outer R (.raised e m : Outcome E α) (.raised e m) := by
  have hraised : Unwinds (Told outer) outer R (.raised e m : Outcome E α)
      (.raised e { m with calls := outer }) := .raised [] hcalls (hcalls ▸ he)
  rw [← hcalls] at hraised ⊢
  exact hraised

theorem sim_raise (cause : Cause) :
    (unwinding E Told).Sim outer R (raise cause) (raise cause) := by
  rintro _ m ⟨rfl, -, hcalls⟩
  refine unwinds_raised hcalls (.named ?_)
  rw [Machine.error, hcalls]
  exact .traced

theorem sim_throw_bare (cause : Cause) (location : Option Location) :
    (unwinding E Told).Sim outer R (throw { cause, location }) (throw { cause, location }) := by
  rintro _ m ⟨rfl, -, hcalls⟩
  exact unwinds_raised hcalls (.bare rfl)

theorem sim_ofExcept (result : Except Cause α) (hR : ∀ a, R outer a a) :
    (unwinding E Told).Sim outer R (ofExcept result) (ofExcept result) := by
  cases result with
  | ok a => exact composes.pure (hR a)
  | error cause => exact sim_throw_bare cause none

/-- Once the context is added, an error reports the words that were running where it arose. -/
theorem sim_withContext {name : String} {x y : Exec E α}
    (h : (unwinding E Told).Sim (name :: outer) R x y) :
    (unwinding E fun _ => Named).Sim (name :: outer) R x (withContext y) := by
  rintro _ m ⟨rfl, hm, hcalls⟩
  have hxy := h m m ⟨rfl, hm, hcalls⟩
  unfold withContext
  generalize x m = o at hxy ⊢
  generalize y m = o' at hxy ⊢
  cases hxy with
  | exhausted => exact .exhausted
  | done result hm' hcalls' => exact .done result hm' hcalls'
  | raised inner hcalls' he =>
    refine .raised inner hcalls' ?_
    cases he with
    | named he =>
      rw [Machine.addContext, he.calls]
      exact he
    | bare hstanding =>
      rw [hstanding]
      exact .wrapped name rfl _

/-- A word that is left takes itself off the running words, but not off those that the error
reports. -/
theorem sim_within {name : String} {x y : Exec E α} (hR : R (name :: outer) = R outer)
    (h : (unwinding E fun _ => Named).Sim (name :: outer) R x y) :
    (unwinding E (Reported name)).Sim outer R (within name x) (Exec.within name y) := by
  rintro _ m ⟨rfl, hm, hcalls⟩
  have hxy := h (m.entering name) _
    ⟨rfl, ⟨hm.hook, hm.action⟩, congrArg (name :: ·) hcalls⟩
  rw [within_apply]
  change Unwinds _ _ _ ((x >>= fun result => do
    modify Machine.leaving
    pure result : Exec E α) (m.entering name)) ((y (m.entering name)).mapMachine Machine.leaving)
  rw [bind_apply]
  generalize x (m.entering name) = o at hxy ⊢
  generalize y (m.entering name) = o' at hxy ⊢
  cases hxy with
  | exhausted => exact .exhausted
  | done result hm' hcalls' =>
    exact .done (hR ▸ result) ⟨hm'.hook, hm'.action⟩ (congrArg List.tail hcalls')
  | raised inner hcalls' he =>
    refine .raised (inner ++ [name]) ?_ ⟨he, inner, hcalls'⟩
    rw [hcalls', List.append_assoc]
    rfl

theorem sim_isDeed {x : Exec E α} (hx : IsDeed x) (hR : ∀ a, R outer a a) :
    (unwinding E Told).Sim outer R x x := by
  obtain ⟨f, hf⟩ := hx
  rintro _ m ⟨rfl, hm, hcalls⟩
  rw [hf]
  cases f m.heap m.registry with
  | made a heap registry written => exact .done (hR a) ⟨hm.hook, hm.action⟩ hcalls
  | failed cause => exact sim_raise cause m m ⟨rfl, hm, hcalls⟩
  | refused cause => exact sim_throw_bare cause none m m ⟨rfl, hm, hcalls⟩

/-! ### The value stack and the parses in progress -/

theorem sim_pop : (unwinding E Told).Sim outer (fun _ => Eq) pop pop := by
  rintro _ m ⟨rfl, hm, hcalls⟩
  unfold pop
  split
  · exact sim_raise _ m m ⟨rfl, hm, hcalls⟩
  · exact .done rfl ⟨hm.hook, hm.action⟩ hcalls

theorem sim_scan : (unwinding E told).Sim outer (unwinding E told).Scanned scan scan := by
  rintro _ m ⟨rfl, hm, hcalls⟩
  unfold scan
  split
  · exact .done ⟨rfl, fun _ _ => rfl⟩ hm hcalls
  · exact .done ⟨rfl, fun _ _ => rfl⟩ ⟨hm.hook, hm.action⟩ hcalls

theorem sim_accumulate (value : Value) :
    (unwinding E Told).Sim outer Anything (accumulate value) (accumulate value) := by
  rintro _ m ⟨rfl, hm, hcalls⟩
  unfold accumulate
  split
  · exact sim_raise _ m m ⟨rfl, hm, hcalls⟩
  · exact .done trivial ⟨hm.hook, hm.action⟩ hcalls

/-- Both take the reader and the accumulator away; they differ in the running words only. -/
theorem sim_parseSource {dead engine : Engine E} (path source : String) (hruns : engine.Runs)
    (h : (unwinding E Told).Sim outer Anything (dead.parseAll dead.rounds)
      (engine.parseAll engine.rounds)) :
    (unwinding E Told).Sim outer (unwinding E Told).Rows (dead.parseSource path source)
      (engine.parseSource path source) := by
  rintro _ m ⟨rfl, hm, hcalls⟩
  have hopened : (Engine.opened path source m).Plain := ⟨hm.hook, hm.action⟩
  have hframe := (hruns.runs_parseAll engine.rounds _ hopened).frame
  have hsim := h _ _ ⟨rfl, hopened, hcalls⟩
  generalize hx : dead.parseAll dead.rounds (Engine.opened path source m) = o at hsim
  generalize hy : engine.parseAll engine.rounds (Engine.opened path source m) = o' at hsim hframe
  cases hsim with
  | exhausted =>
    rw [dead.parseSource_of_exhausted hx, engine.parseSource_of_exhausted hy]
    exact .exhausted
  | done _ hm' hcalls' =>
    obtain ⟨buffer, values, hl, ha⟩ := hframe.exists_opened
    rw [dead.parseSource_of_done hx hl ha, engine.parseSource_of_done hy hl ha]
    exact .done ((rows_iff_eq rfl).mpr rfl) ⟨hm'.hook, hm'.action⟩ hcalls'
  | raised inner hcalls' he =>
    obtain ⟨buffer, values, hl, ha⟩ := hframe.exists_opened
    rw [dead.parseSource_of_raised hx hl ha, engine.parseSource_of_raised hy hl ha]
    exact .raised inner hcalls' he

theorem sim_parseUntil {dead engine : Engine E} (delimiter : String) (hruns : engine.Runs)
    (h : (unwinding E Told).Sim outer Anything (dead.collectUntil delimiter dead.rounds)
      (engine.collectUntil delimiter engine.rounds)) :
    (unwinding E Told).Sim outer (unwinding E Told).Rows (dead.parseUntil delimiter)
      (engine.parseUntil delimiter) := by
  rintro _ m ⟨rfl, hm, hcalls⟩
  by_cases hidle : m.lexers = []
  · rw [dead.parseUntil_of_idle hidle, engine.parseUntil_of_idle hidle]
    exact sim_raise .untilOutsideParse m m ⟨rfl, hm, hcalls⟩
  have hcollecting : (Engine.collecting m).Plain := ⟨hm.hook, hm.action⟩
  have hframe := (hruns.runs_collectUntil delimiter engine.rounds _ hcollecting).frame
  have hsim := h _ _ ⟨rfl, hcollecting, hcalls⟩
  generalize hx : dead.collectUntil delimiter dead.rounds (Engine.collecting m) = o at hsim
  generalize hy : engine.collectUntil delimiter engine.rounds (Engine.collecting m) = o'
    at hsim hframe
  cases hsim with
  | exhausted =>
    rw [dead.parseUntil_of_exhausted hidle hx, engine.parseUntil_of_exhausted hidle hy]
    exact .exhausted
  | done _ hm' hcalls' =>
    obtain ⟨values, -, ha⟩ := hframe.accumulators.exists_cons
    rw [dead.parseUntil_of_done hidle hx ha, engine.parseUntil_of_done hidle hy ha]
    exact .done ((rows_iff_eq rfl).mpr rfl) ⟨hm'.hook, hm'.action⟩ hcalls'
  | raised inner hcalls' he =>
    obtain ⟨values, -, ha⟩ := hframe.accumulators.exists_cons
    rw [dead.parseUntil_of_raised hidle hx ha, engine.parseUntil_of_raised hidle hy ha]
    exact .raised inner hcalls' he

theorem closed : (unwinding E Told).Closed where
  toComposes := composes
  toKinds := kinds
  views := by
    rintro outer _ m ⟨rfl, -⟩
    exact .of_eq rfl rfl rfl rfl rfl rfl rfl
  raise _ := sim_raise _
  giveUp hfuel hy := by
    rw [hy hfuel.symm]
    exact sim_giveUp
  fuel h := ⟨_, h.symm, rfl⟩
  pop := sim_pop
  newArray hvalues := by
    obtain rfl := (rows_iff_eq rfl).mp hvalues
    rintro _ m ⟨rfl, hm, hcalls⟩
    exact .done rfl ⟨hm.hook, hm.action⟩ hcalls
  accumulate := by
    rintro outer value _ rfl
    exact sim_accumulate value
  parseOne _ htake :=
    composes.parseOne sim_scan (fun _ => sim_raise _) (fun _ _ => sim_throw_bare _ _) htake
  parseSource path source hruns h := sim_parseSource path source hruns (h _ trivial)
  parseUntil delimiter hruns h := sim_parseUntil delimiter hruns (h _ trivial)
  passive := by
    rintro outer b inputs _ hb rfl dead engine
    rw [Builtin.run_congr hb dead engine]
    exact sim_isDeed (Builtin.run_isDeed hb engine inputs) fun _ => rfl
  clear := by
    rintro outer inputs _ rfl _ m ⟨rfl, hm, hcalls⟩
    exact .done rfl ⟨hm.hook, hm.action⟩ hcalls
  arguments := by
    rintro α outer b taking R inputs _ hasks rfl
    exact sim_ofExcept _ (hasks.refl rfl outer)
  nothing _ := rfl
  made h := by
    obtain rfl := h
    rfl

/-! ### Running words -/

theorem sim_takeInputs (word : Entry) :
    (unwinding E Told).Sim outer Same (takeInputs word) (takeInputs word) := by
  rintro _ m ⟨rfl, hm, hcalls⟩
  unfold takeInputs
  dsimp only
  split
  · exact sim_raise _ m m ⟨rfl, hm, hcalls⟩
  · split
    · exact sim_raise _ m m ⟨rfl, hm, hcalls⟩
    · exact .done rfl ⟨hm.hook, hm.action⟩ hcalls

theorem sim_pushPayloads {name : String} (slots : List Slot) (payloads : List Payload) :
    (unwinding E fun _ => Named).Sim (name :: outer) Anything (pushPayloads slots payloads)
      (Wordstack.pushPayloads slots payloads) := by
  induction slots generalizing payloads with
  | nil => cases payloads <;> exact composes.pure trivial
  | cons slot slots ih =>
    cases payloads with
    | nil => exact composes.pure trivial
    | cons payload payloads =>
      refine sim_machine ?_
      rintro _ m ⟨rfl, -⟩
      refine composes.bind (sim_withContext (sim_ofExcept (R := Same) _ fun _ => rfl)) ?_
      rintro _ value _ rfl rfl
      refine composes.bind (composes.push rfl) ?_
      rintro _ _ _ rfl -
      exact ih payloads

theorem sim_pushOutputs {name : String} (word : Entry) (returned : Returned) :
    (unwinding E fun _ => Named).Sim (name :: outer) Anything (pushOutputs word returned)
      (Wordstack.pushOutputs word returned) := by
  refine composes.bind (sim_withContext (sim_ofExcept (R := Same) _ fun _ => rfl)) ?_
  rintro _ payloads _ rfl rfl
  exact sim_pushPayloads _ payloads

section Words

variable {dead engine : Engine E} (h : (unwinding E Told).Engines dead engine) (host : Host E)
include h

/-- A word past its input checks: whatever fails, the word is among the words reported. -/
theorem past (word : Entry) (b : Builtin) (inputs : List Payload) :
    (unwinding E (Reported word.name)).Sim outer Anything
      (within word.name do
        let returned ← host.act dead (.builtin b) inputs
        pushOutputs word returned)
      (Exec.within word.name do
        let returned ← withContext (host.act engine (.builtin b) inputs)
        Wordstack.pushOutputs word returned) := by
  refine sim_within rfl (composes.bind (sim_withContext (h.run b rfl)) ?_)
  rintro _ returned _ rfl rfl
  exact sim_pushOutputs word returned

theorem sim_dispatchWith (word : Entry) :
    (unwinding E Told).Sim outer Anything (dispatchWith host dead word)
      (host.dispatchWith engine word) := by
  refine sim_machine ?_
  rintro _ m ⟨rfl, hm, -⟩
  cases hhandler : m.handlers[word.handlerIndex]? with
  | none => exact sim_raise _
  | some handler =>
    obtain ⟨b, hb⟩ := hm.action _ _ hhandler
    dsimp only
    rw [hb]
    refine composes.bind (sim_takeInputs word) ?_
    rintro _ inputs _ rfl rfl
    exact sim_mono (past h host word b inputs) fun _ _ _ he => .named he.named

/-- What is said of a word past its input checks, for a word that gets past them. -/
theorem dispatched {word : Entry} {handler : Handler E} {m n : Machine E}
    {inputs : List Payload} (hm : m.Plain)
    (hhandler : m.handlers[word.handlerIndex]? = some handler)
    (hinputs : takeInputs word m = .done inputs n) :
    Unwinds (Reported word.name m.calls) m.calls Anything (dispatchWith host dead word m)
      (host.dispatchWith engine word m) := by
  obtain ⟨b, hb⟩ := hm.action _ _ hhandler
  have hframe := (runs_takeInputs word m hm).frame
  rw [hinputs] at hframe
  rw [Halting.dispatchWith, Host.dispatchWith, machine_bind, machine_bind, hhandler]
  dsimp only
  rw [bind_of_done hinputs, bind_of_done hinputs, hb]
  exact past h host word b inputs n n ⟨rfl, hframe.plain hm, hframe.calls⟩

theorem sim_performWith (name : String) :
    (unwinding E Told).Sim outer Anything (performWith host dead name)
      (host.performWith engine name) := by
  change (unwinding E Told).Sim outer Anything
    (dead.performing (dispatchWith host dead) (host.offerUnknown dead name) name)
    (engine.performing (host.dispatchWith engine) (host.offerUnknown engine name) name)
  refine h.performing (fun m m' word hm _ => sim_dispatchWith h host word m m' hm) ?_
  rintro _ m ⟨rfl, hm, hcalls⟩
  rw [Host.offerUnknown, Host.offerUnknown, machine_bind, machine_bind, hm.hook]
  exact sim_raise _ m m ⟨rfl, hm, hcalls⟩

end Words

theorem engine_tower : Engine.Tower (engine host) where
  rounds fuel := by
    cases fuel with
    | zero => rfl
    | succ fuel => rfl
  parse_zero := rfl
  perform_zero := rfl
  parse_succ _ := rfl

/-- **The interpreter unwinds where the other stops dead.** -/
theorem engine_unwinding (fuel : Nat) :
    (unwinding E Told).Engines (engine host fuel) (host.engine fuel) := by
  refine closed.engines (engine_tower host) host.engine_tower (fun _ k => host.engine_runs k) ?_ rfl
  rintro n _ rfl hbelow outer name
  exact sim_performWith hbelow host name

end Halting

/-! ### Words that fail -/

theorem takeInputs_raised {word : Entry} {m n : Machine E} {e : Error}
    (h : takeInputs word m = .raised e n) : e.calls = some m.calls ∧ n = m := by
  unfold takeInputs at h
  dsimp only at h
  split at h
  · cases h
    exact ⟨rfl, rfl⟩
  · split at h
    · cases h
      exact ⟨rfl, rfl⟩
    · cases h

/-- **Errors report the running words.**  A word of a standard machine, in whatever state and at
whatever depth, that fails in its input checks reports the words that were running before it.  If it
fails later, the error reports the words that the interpreter which stops dead has running in the
end: those running before, the word itself, and exactly the words inside it that were running where
the error arose.  The kind is the one it arose with, and at most one name, that of the innermost
running word, was put before its message.  But for errors the two interpreters do not differ. -/
theorem errors_report_running_words (host : Host E) {m : Machine E} (hm : m.Standard)
    {name : String} {word : Entry} (hword : m.dictionary.get? name = some word) (fuel : Nat) :
    (∀ e n, takeInputs word m = .raised e n →
      host.dispatchWith (host.engine fuel) word m = .raised e m ∧ e.calls = some m.calls) ∧
    (∀ inputs n, takeInputs word m = .done inputs n →
      ∀ e m', host.dispatchWith (host.engine fuel) word m = .raised e m' →
        ∃ arisen standing inner,
          Halting.dispatchWith host (Halting.engine host fuel) word m = .raised arisen standing ∧
          standing.calls = inner ++ word.name :: m.calls ∧
          e.calls = some standing.calls ∧
          e.kind = arisen.kind ∧
          (e.message = arisen.message ∨ ∃ running, standing.calls.head? = some running ∧
            e.message = running ++ ": " ++ arisen.message) ∧
          m' = { standing with calls := m.calls }) ∧
    (∀ m', host.dispatchWith (host.engine fuel) word m = .done () m' ↔
      Halting.dispatchWith host (Halting.engine host fuel) word m = .done () m') := by
  obtain ⟨b, -, -, hhandler⟩ := hm.faithful.entry name word hword
  refine ⟨fun e n hchecks => ?_, fun inputs n hchecks e m' hraised => ?_, fun m' => ?_⟩
  · obtain ⟨hcalls, rfl⟩ := takeInputs_raised hchecks
    refine ⟨?_, hcalls⟩
    rw [Host.dispatchWith, Exec.machine_bind, hhandler]
    exact Exec.bind_of_raised hchecks
  · have hunwinds :=
      Halting.dispatched (Halting.engine_unwinding host fuel) host hm.plain hhandler hchecks
    rw [hraised] at hunwinds
    generalize Halting.dispatchWith host (Halting.engine host fuel) word m = o at hunwinds
    cases hunwinds with
    | raised _ _ he =>
      obtain ⟨inner, hinside⟩ := he.inside
      exact ⟨_, _, inner, rfl, hinside, he.named.calls, he.named.kind, he.named.message, rfl⟩
  · have hunwinds := Halting.sim_dispatchWith (Halting.engine_unwinding host fuel) host word m m
      ⟨rfl, hm.plain, rfl⟩
    generalize Halting.dispatchWith host (Halting.engine host fuel) word m = o at hunwinds ⊢
    generalize host.dispatchWith (host.engine fuel) word m = o' at hunwinds ⊢
    cases hunwinds with
    | exhausted => exact Iff.rfl
    | done => exact Iff.rfl
    | raised => simp

/-- The machine in the middle of a text that ends inside quotes, with a quotation that collects
source text inside a quotation that calls it. -/
def Machine.calling (m : Machine E) : Machine E :=
  { m with
    stack := [.array ⟨1⟩]
    heap :=
      { arrays := #[[.string "]", .word untilWord], [.array ⟨0⟩, .word Builtin.call.name]]
        scopes := #[] }
    lexers := [.ofSource "<input>" " \"abc"]
    accumulators := [[]]
    calls := ["each"] }

theorem Machine.Standard.calling {m : Machine E} (hm : m.Standard) : m.calling.Standard :=
  ⟨hm.dictionary, hm.handlers, hm.hook⟩

/-- An error that arises without context passes two words, and is put under one name only. -/
theorem errors_report_running_words_nested :
    ∃ (e : Error) (m' : Machine .bare) (arisen : Error) (standing : Machine .bare),
      (Machine.standard (E := .bare) ()).calling.dictionary.get? "call" =
        some (Builtin.call.entry 32) ∧
      Host.bare.dispatchWith (Host.bare.engine 6) (Builtin.call.entry 32)
        (Machine.standard ()).calling = .raised e m' ∧
      Halting.dispatchWith Host.bare (Halting.engine Host.bare 6) (Builtin.call.entry 32)
        (Machine.standard ()).calling = .raised arisen standing ∧
      standing.calls = ["call", "call", "each"] ∧ e.calls = some standing.calls ∧
      arisen.calls = none ∧ e.message = "call: " ++ arisen.message := by
  have hm := (Machine.standard_standard (E := .bare) ()).calling
  have hword : (Machine.standard (E := .bare) ()).calling.dictionary.get? "call" =
      some (Builtin.call.entry 32) := by decide +kernel
  have hchecks : takeInputs (Builtin.call.entry 32) (Machine.standard (E := .bare) ()).calling =
      .done [.array ⟨1⟩] { (Machine.standard (E := .bare) ()).calling with stack := [] } := rfl
  have hraised : (Host.bare.dispatchWith (Host.bare.engine 6) (Builtin.call.entry 32)
      (Machine.standard ()).calling).error? =
        some {
          cause := .inWord "call" .unclosedQuote
          location := some { path := "<input>", line := 1, column := 7 }
          calls := some ["call", "call", "each"] } := by
    decide +kernel
  obtain ⟨m', hm'⟩ := Outcome.eq_raised_of_error? hraised
  obtain ⟨arisen, standing, inner, hstanding, hinner, hcalls, hkind, hmessage, rfl⟩ :=
    (errors_report_running_words Host.bare hm hword 6).2.1 _ _ hchecks _ _ hm'
  have harisen : (Halting.dispatchWith Host.bare (Halting.engine Host.bare 6)
      (Builtin.call.entry 32) (Machine.standard ()).calling).error? =
        some {
          cause := .unclosedQuote
          location := some { path := "<input>", line := 1, column := 2 } } := by
    decide +kernel
  rw [hstanding] at harisen
  obtain rfl := Option.some.inj harisen
  exact ⟨_, _, _, _, hword, hm', hstanding, (Option.some.inj hcalls).symm, hcalls, rfl, rfl⟩

end Wordstack
