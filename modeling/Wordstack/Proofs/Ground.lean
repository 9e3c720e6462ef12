import Wordstack.Proofs.Course

/-!
# Runs on another ground

A run stands on a ground that it does not reach: the values far enough down the stack and the words
that were running when it started.  Moved to a machine with another ground, and given more fuel, the
run does the same.  Only two things can tell the difference.  A word that takes more values than
there are above the ground fails on the one machine and may go on on the other, and `clear` empties
the stack with all that is below.  So a run that fails for want of values is excused, and values may
be put below only if `clear` is avoided.

* `Host.engineAvoiding`: the engine that gives up at some names.
* `Ground`, `Ground.lift`: the other machine; `Ground.Follows`: how the other run ends.
* `Ground.moving`: runs that correspond to those on the other ground, with one lemma for each
  operation.
* `Host.engineAvoiding_moving`: an engine corresponds to one with more fuel.
* `Host.EndsAvoiding.upon`, `Host.ends_executeAll`: what this says of how code ends.
-/

namespace Wordstack

variable {E : Embedding} {α β : Type}

open Exec Correspondence

/-- The engine with an amount of fuel that gives up when a word of an avoided name is to be run. -/
def Host.engineAvoiding (host : Host E) (avoided : List String) : Nat → Engine E
  | 0 => host.engine 0
  | fuel + 1 =>
    { parse := fun path source => (engineAvoiding host avoided fuel).parseSource path source
      perform := fun name =>
        if name ∈ avoided then Exec.giveUp
        else host.performWith (engineAvoiding host avoided fuel) name
      dispatch := fun word => host.dispatchWith (engineAvoiding host avoided fuel) word
      rounds := fuel + 1 }

theorem Host.engineAvoiding_nil (host : Host E) (fuel : Nat) :
    host.engineAvoiding [] fuel = host.engine fuel := by
  induction fuel with
  | zero => rfl
  | succ fuel ih => simp [engineAvoiding, engine, ih]

theorem Host.engineAvoiding_tower (host : Host E) (avoided : List String) :
    Engine.Tower (host.engineAvoiding avoided) where
  rounds fuel := by
    cases fuel with
    | zero => rfl
    | succ fuel => rfl
  parse_zero := rfl
  perform_zero := rfl
  parse_succ _ := rfl

theorem Host.engineAvoiding_runs (host : Host E) (avoided : List String) (fuel : Nat) :
    (host.engineAvoiding avoided fuel).Runs := by
  have htower := host.engineAvoiding_tower avoided
  refine Running.closed.engines htower htower (fun _ _ => trivial) ?_ rfl
  rintro n _ rfl hbelow w name
  change (running E False).Sim w Anything (if name ∈ avoided then giveUp else _)
    (if name ∈ avoided then giveUp else _)
  have hnone : (running E False).Fuel 0 0 := rfl
  split
  · exact Running.closed.giveUp hnone fun _ => rfl
  · exact Running.performWith host hbelow name

/-! ### Grounds -/

/-- A change of the ground under a run. -/
structure Ground where
  /-- The values put below the stack. -/
  below : List Value
  /-- The words that were running. -/
  outer : List String
  /-- The words that are running instead. -/
  outer' : List String
  /-- The names of words that the run does not get to. -/
  avoided : List String

namespace Ground

variable (g : Ground) (inner : List String)

/-- The machine on the other ground, while the words `inner` of the run are running. -/
def lift (m : Machine E) : Machine E :=
  { m with stack := m.stack ++ g.below, calls := inner ++ g.outer' }

/-- The machine is on the first ground, and no name that the run may get to empties the stack. -/
structure Holds (m : Machine E) : Prop where
  plain : m.Plain
  calls : m.calls = inner ++ g.outer
  safe : g.below ≠ [] → ∀ (name : String) (word : Entry) (handler : Handler E),
    m.dictionary.get? name = some word → m.handlers[word.handlerIndex]? = some handler →
    handler.action = .builtin .clear → name ∈ g.avoided

/-- What becomes of an error: its running words end in those of the ground. -/
inductive Moves : Error → Error → Prop
  | bare {cause : Cause} {location : Option Location} :
      Moves { cause, location } { cause, location }
  | traced {cause : Cause} {location : Option Location} (running : List String) :
      Moves { cause, location, calls := some (running ++ g.outer) }
        { cause, location, calls := some (running ++ g.outer') }

/-- How a run may end on the other ground, given how it ends on the first. -/
inductive Follows (R : List String → α → α → Prop) : Outcome E α → Outcome E α → Prop
  | exhausted (o : Outcome E α) : Follows R .exhausted o
  | excused {e : Error} (hbelow : g.below ≠ []) (hkind : e.kind = .stackUnderflow) (m : Machine E)
      (o : Outcome E α) : Follows R (.raised e m) o
  | done {m : Machine E} {a b : α} (result : R inner a b) (hm : g.Holds inner m) :
      Follows R (.done a m) (.done b (g.lift inner m))
  | raised {m : Machine E} {e e' : Error} (he : g.Moves e e') (hm : g.Holds inner m) :
      Follows R (.raised e m) (.raised e' (g.lift inner m))

/-- Runs that correspond to those on the other ground.  `clear` is not run with values below. -/
def moving (E : Embedding) : Correspondence E where
  World := List String
  Later := Eq
  Reading _ := True
  Values _ := Eq
  Arrays _ := Eq
  Inputs _ b inputs inputs' := inputs' = inputs ∧ (b = .clear → g.below = [])
  Outputs _ _ := Eq
  Machines inner m m' := m' = g.lift inner m ∧ g.Holds inner m
  Ends inner _ := g.Follows inner
  Fuel := (· ≤ ·)
  Known engine _ := engine.Runs

variable {g inner} {R : List String → α → α → Prop}

theorem Holds.of_frame {m m' : Machine E} (h : g.Holds inner m) (hf : m.Frame m') :
    g.Holds inner m' where
  plain := hf.plain h.plain
  calls := hf.calls.trans h.calls
  safe := by
    rw [hf.dictionary, hf.handlers]
    exact h.safe

/-- The parses in progress may change. -/
theorem Holds.turn {m : Machine E} (h : g.Holds inner m) (lexers : List Buffer)
    (accumulators : List (List Value)) : g.Holds inner { m with lexers, accumulators } where
  plain := ⟨h.plain.hook, h.plain.action⟩
  calls := h.calls
  safe := h.safe

theorem Holds.of_values {m : Machine E} (h : g.Holds inner m) (stack : List Value) (heap : Heap)
    (registry : Registry) (output : String) :
    g.Holds inner { m with stack, heap, registry, output } :=
  h.of_frame (.of_values m _ _ _ _)

/-- An error with the context of the machine moves to the one with the context of the other. -/
theorem Holds.moves_error {m : Machine E} (h : g.Holds inner m) (cause : Cause) :
    g.Moves (m.error cause) ((g.lift inner m).error cause) := by
  rw [Machine.error, h.calls]
  exact .traced inner

/-- With nothing put below, the other run ends if the first does. -/
theorem Follows.ne_exhausted {o o' : Outcome E α} (h : g.Follows inner R o o')
    (hbelow : g.below = []) (ho : o ≠ .exhausted) : o' ≠ .exhausted := by
  cases h with
  | exhausted => exact absurd rfl ho
  | excused hne => exact absurd hbelow hne
  | done => exact nofun
  | raised => exact nofun

/-! ### Computations -/

theorem sim_giveUp (y : Exec E α) : (g.moving E).Sim inner R giveUp y :=
  fun _ _ _ => .exhausted _

theorem sim_raise (cause : Cause) : (g.moving E).Sim inner R (raise cause) (raise cause) := by
  rintro m _ ⟨rfl, hm⟩
  exact .raised (hm.moves_error cause) hm

theorem sim_throw_bare (cause : Cause) (location : Option Location) :
    (g.moving E).Sim inner R (throw { cause, location }) (throw { cause, location }) := by
  rintro m _ ⟨rfl, hm⟩
  exact .raised .bare hm

theorem sim_ofExcept (result : Except Cause α) (hR : ∀ a, R inner a a) :
    (g.moving E).Sim inner R (ofExcept result) (ofExcept result) := by
  cases result with
  | ok a =>
    rintro m _ ⟨rfl, hm⟩
    exact .done (hR a) hm
  | error cause => exact sim_throw_bare cause none

/-- Inside a word of the run, the word that an error is reported under is on no ground. -/
theorem sim_withContext {name : String} {x y : Exec E α}
    (h : (g.moving E).Sim (name :: inner) R x y) :
    (g.moving E).Sim (name :: inner) R (withContext x) (withContext y) := by
  rintro m _ ⟨rfl, hm⟩
  have hxy := h m _ ⟨rfl, hm⟩
  unfold withContext
  generalize x m = o at hxy ⊢
  generalize y (g.lift (name :: inner) m) = o' at hxy ⊢
  cases hxy with
  | exhausted => exact .exhausted _
  | @excused e hbelow hkind m' =>
    refine .excused hbelow ?_ m' _
    unfold Machine.addContext
    split
    · exact hkind
    · exact hkind
  | done result hm' => exact .done result hm'
  | @raised m' _ _ he hm' =>
    refine .raised ?_ hm'
    cases he with
    | traced running => exact .traced running
    | @bare cause location =>
      have hcall : m'.innermostCall = name := by rw [Machine.innermostCall, hm'.calls]; rfl
      change g.Moves (m'.error (.inWord m'.innermostCall cause))
        ((g.lift (name :: inner) m').error (.inWord name cause))
      rw [hcall]
      exact hm'.moves_error _

theorem sim_within {name : String} {x y : Exec E α} (hR : R (name :: inner) = R inner)
    (h : (g.moving E).Sim (name :: inner) R x y) :
    (g.moving E).Sim inner R (within name x) (within name y) := by
  rintro m _ ⟨rfl, hm⟩
  have henter : g.Holds (name :: inner) (m.entering name) :=
    ⟨⟨hm.plain.hook, hm.plain.action⟩, congrArg (name :: ·) hm.calls, hm.safe⟩
  have hleave : ∀ m' : Machine E, g.Holds (name :: inner) m' → g.Holds inner m'.leaving :=
    fun m' hm' =>
      ⟨⟨hm'.plain.hook, hm'.plain.action⟩, congrArg List.tail hm'.calls, hm'.safe⟩
  have hxy := h _ _ ⟨rfl, henter⟩
  rw [within_apply, within_apply]
  change g.Follows inner R ((x (m.entering name)).mapMachine Machine.leaving)
    ((y (g.lift (name :: inner) (m.entering name))).mapMachine Machine.leaving)
  generalize x (m.entering name) = o at hxy ⊢
  generalize y (g.lift (name :: inner) (m.entering name)) = o' at hxy ⊢
  cases hxy with
  | exhausted => exact .exhausted _
  | excused hbelow hkind m' => exact .excused hbelow hkind _ _
  | done result hm' => exact .done (hR ▸ result) (hleave _ hm')
  | raised he hm' => exact .raised he (hleave _ hm')

theorem sim_isDeed {x : Exec E α} (hx : IsDeed x) (hR : ∀ a, R inner a a) :
    (g.moving E).Sim inner R x x := by
  obtain ⟨f, hf⟩ := hx
  rintro m _ ⟨rfl, hm⟩
  rw [hf, hf]
  change g.Follows inner R ((f m.heap m.registry).on m) ((f m.heap m.registry).on (g.lift inner m))
  cases f m.heap m.registry with
  | made a heap registry written => exact .done (hR a) (hm.of_values _ _ _ _)
  | failed cause => exact .raised (hm.moves_error cause) hm
  | refused cause => exact .raised .bare hm

/-! ### The value stack and the parses in progress -/

/-- Nothing to pop above the ground: an excuse, unless there is nothing below either. -/
theorem sim_pop : (g.moving E).Sim inner (fun _ => Eq) pop pop := by
  rintro m _ ⟨rfl, hm⟩
  unfold pop
  cases hstack : m.stack with
  | nil =>
    by_cases hbelow : g.below = []
    · have hlift : (g.lift inner m).stack = [] := by rw [lift, hstack, hbelow]; rfl
      rw [hlift]
      exact sim_raise .emptyStack m _ ⟨rfl, hm⟩
    · exact .excused hbelow rfl _ _
  | cons value stack =>
    have hlift : (g.lift inner m).stack = value :: (stack ++ g.below) := by rw [lift, hstack]; rfl
    rw [hlift]
    exact .done rfl (hm.of_values stack _ _ _)

theorem sim_scan : (g.moving E).Sim inner (g.moving E).Scanned scan scan := by
  rintro m _ ⟨rfl, hm⟩
  have hlift : (g.lift inner m).lexers = m.lexers := rfl
  unfold scan
  rw [hlift]
  cases m.lexers with
  | nil => exact .done ⟨rfl, fun _ _ => rfl⟩ hm
  | cons buffer lexers => exact .done ⟨rfl, fun _ _ => rfl⟩ (hm.turn _ m.accumulators)

theorem sim_accumulate (value : Value) :
    (g.moving E).Sim inner Anything (accumulate value) (accumulate value) := by
  rintro m _ ⟨rfl, hm⟩
  have hlift : (g.lift inner m).accumulators = m.accumulators := rfl
  unfold accumulate
  rw [hlift]
  cases m.accumulators with
  | nil => exact sim_raise .notParsing m _ ⟨rfl, hm⟩
  | cons values accumulators => exact .done trivial (hm.turn m.lexers _)

theorem composes : (g.moving E).Composes where
  pure hR := by
    rintro m _ ⟨rfl, hm⟩
    exact .done hR hm
  bind := by
    intro α β inner R S x y f f' hx hf
    rintro m _ ⟨rfl, hm⟩
    have h := hx m _ ⟨rfl, hm⟩
    rw [bind_apply, bind_apply]
    generalize x m = o at h ⊢
    generalize y (g.lift inner m) = o' at h ⊢
    cases h with
    | exhausted => exact .exhausted _
    | excused hbelow hkind m' => exact .excused hbelow hkind m' _
    | done result hm' => exact hf inner _ _ rfl result _ _ ⟨rfl, hm'⟩
    | raised he hm' => exact .raised he hm'
  push := by
    rintro inner value _ rfl m _ ⟨rfl, hm⟩
    exact .done trivial (hm.of_values _ _ _ _)

theorem kinds : (g.moving E).Kinds :=
  .of_eq rfl rfl (fun _ => rfl) (fun h h' => Eq.trans h h') (fun _ _ => trivial)

/-- The reader and the accumulator of a parse are taken away on either ground. -/
theorem sim_parseSource {engine engine' : Engine E} (path source : String) (hruns : engine.Runs)
    (h : (g.moving E).Sim inner Anything (engine.parseAll engine.rounds)
      (engine'.parseAll engine'.rounds)) :
    (g.moving E).Sim inner (g.moving E).Rows (engine.parseSource path source)
      (engine'.parseSource path source) := by
  rintro m _ ⟨rfl, hm⟩
  have hopened : g.Holds inner (Engine.opened path source m) := hm.turn _ _
  have hframe := (hruns.runs_parseAll engine.rounds _ hopened.plain).frame
  have hsim : g.Follows inner Anything (engine.parseAll engine.rounds (Engine.opened path source m))
      (engine'.parseAll engine'.rounds (Engine.opened path source (g.lift inner m))) :=
    h _ _ ⟨rfl, hopened⟩
  generalize hx : engine.parseAll engine.rounds (Engine.opened path source m) = o at hframe hsim
  generalize hy : engine'.parseAll engine'.rounds
    (Engine.opened path source (g.lift inner m)) = o' at hsim
  cases hsim with
  | exhausted =>
    rw [engine.parseSource_of_exhausted hx]
    exact .exhausted _
  | excused hbelow hkind m' =>
    obtain ⟨buffer, values, hl, ha⟩ := hframe.exists_opened
    rw [engine.parseSource_of_raised hx hl ha]
    exact .excused hbelow hkind _ _
  | done _ hm' =>
    obtain ⟨buffer, values, hl, ha⟩ := hframe.exists_opened
    rw [engine.parseSource_of_done hx hl ha,
      engine'.parseSource_of_done (m := g.lift inner m) hy hl ha]
    exact .done ((rows_iff_eq rfl).mpr rfl) (hm'.turn _ _)
  | raised he hm' =>
    obtain ⟨buffer, values, hl, ha⟩ := hframe.exists_opened
    rw [engine.parseSource_of_raised hx hl ha,
      engine'.parseSource_of_raised (m := g.lift inner m) hy hl ha]
    exact .raised he (hm'.turn _ _)

theorem sim_parseUntil {engine engine' : Engine E} (delimiter : String) (hruns : engine.Runs)
    (h : (g.moving E).Sim inner Anything (engine.collectUntil delimiter engine.rounds)
      (engine'.collectUntil delimiter engine'.rounds)) :
    (g.moving E).Sim inner (g.moving E).Rows (engine.parseUntil delimiter)
      (engine'.parseUntil delimiter) := by
  rintro m _ ⟨rfl, hm⟩
  by_cases hidle : m.lexers = []
  · rw [engine.parseUntil_of_idle hidle, engine'.parseUntil_of_idle (m := g.lift inner m) hidle]
    exact sim_raise .untilOutsideParse m _ ⟨rfl, hm⟩
  have hcollecting : g.Holds inner (Engine.collecting m) := hm.turn m.lexers _
  have hframe := (hruns.runs_collectUntil delimiter engine.rounds _ hcollecting.plain).frame
  have hsim : g.Follows inner Anything
      (engine.collectUntil delimiter engine.rounds (Engine.collecting m))
      (engine'.collectUntil delimiter engine'.rounds (Engine.collecting (g.lift inner m))) :=
    h _ _ ⟨rfl, hcollecting⟩
  generalize hx : engine.collectUntil delimiter engine.rounds (Engine.collecting m) = o
    at hframe hsim
  generalize hy : engine'.collectUntil delimiter engine'.rounds
    (Engine.collecting (g.lift inner m)) = o' at hsim
  cases hsim with
  | exhausted =>
    rw [engine.parseUntil_of_exhausted hidle hx]
    exact .exhausted _
  | excused hbelow hkind m' =>
    obtain ⟨values, -, ha⟩ := hframe.accumulators.exists_cons
    rw [engine.parseUntil_of_raised hidle hx ha]
    exact .excused hbelow hkind _ _
  | done _ hm' =>
    obtain ⟨values, -, ha⟩ := hframe.accumulators.exists_cons
    rw [engine.parseUntil_of_done hidle hx ha,
      engine'.parseUntil_of_done (m := g.lift inner m) hidle hy ha]
    exact .done ((rows_iff_eq rfl).mpr rfl) (hm'.turn _ _)
  | raised he hm' =>
    obtain ⟨values, -, ha⟩ := hframe.accumulators.exists_cons
    rw [engine.parseUntil_of_raised hidle hx ha,
      engine'.parseUntil_of_raised (m := g.lift inner m) hidle hy ha]
    exact .raised he (hm'.turn _ _)

/-- With nothing below, `clear` empties the stack on either ground. -/
theorem sim_clear (hbelow : g.below = []) (inputs : List Payload) :
    (g.moving E).Sim inner (fun _ => Eq) (Vocabulary.clear inputs) (Vocabulary.clear inputs) := by
  rintro m _ ⟨rfl, hm⟩
  have hlift : ({ g.lift inner m with stack := [] } : Machine E) =
      g.lift inner { m with stack := [] } := by
    simp [lift, hbelow]
  change g.Follows inner _ (.done Returned.nothing { m with stack := [] })
    (.done Returned.nothing { g.lift inner m with stack := [] })
  rw [hlift]
  exact .done rfl (hm.of_values _ _ _ _)

theorem closed : (g.moving E).Closed where
  toComposes := composes
  toKinds := kinds
  views := by
    rintro inner m _ ⟨rfl, -⟩
    exact .of_eq rfl rfl rfl rfl rfl rfl rfl
  raise _ := sim_raise _
  giveUp _ _ := sim_giveUp _
  fuel := by
    intro n k hle
    exact ⟨k - 1, by dsimp only [moving] at hle ⊢; omega⟩
  pop := sim_pop
  newArray hvalues := by
    obtain rfl := (rows_iff_eq rfl).mp hvalues
    rintro m _ ⟨rfl, hm⟩
    exact .done rfl (hm.of_values _ _ _ _)
  accumulate := by
    rintro inner value _ rfl
    exact sim_accumulate value
  parseOne _ htake :=
    composes.parseOne sim_scan (fun _ => sim_raise _) (fun _ _ => sim_throw_bare _ _) htake
  parseSource path source hruns h := sim_parseSource path source hruns (h _ trivial)
  parseUntil delimiter hruns h := sim_parseUntil delimiter hruns (h _ trivial)
  passive hb hinputs engine engine' := by
    rw [Builtin.run_congr hb engine' engine, hinputs.1]
    exact sim_isDeed (Builtin.run_isDeed hb engine _) fun _ => rfl
  clear hinputs := by
    rw [hinputs.1]
    exact sim_clear (hinputs.2 rfl) _
  arguments hasks hinputs := by
    rw [hinputs.1]
    exact sim_ofExcept _ (hasks.refl rfl _)
  nothing _ := rfl
  made h := by
    obtain rfl := h
    rfl

/-! ### Running words -/

/-- As long as a word's inputs lie above the ground, they are the same. -/
theorem sim_takeInputs (word : Entry) :
    (g.moving E).Sim inner Same (takeInputs word) (takeInputs word) := by
  rintro m _ ⟨rfl, hm⟩
  have hstack : (g.lift inner m).stack = m.stack ++ g.below := rfl
  have hheap : (g.lift inner m).heap = m.heap := rfl
  unfold takeInputs
  rw [hstack, hheap]
  dsimp only
  by_cases hfew : m.stack.length < word.effect.inputs.length
  · rw [if_pos hfew]
    by_cases hbelow : g.below = []
    · rw [hbelow, List.append_nil, if_pos hfew]
      exact sim_raise _ m _ ⟨rfl, hm⟩
    · exact .excused hbelow rfl _ _
  · have hle : word.effect.inputs.length ≤ m.stack.length := Nat.le_of_not_lt hfew
    have henough : ¬(m.stack ++ g.below).length < word.effect.inputs.length := by
      rw [List.length_append]
      omega
    rw [if_neg hfew, if_neg henough, List.take_append_of_le_length hle,
      List.drop_append_of_le_length hle]
    split
    · exact sim_raise _ m _ ⟨rfl, hm⟩
    · exact .done rfl (hm.of_values _ _ _ _)

theorem sim_pushOutputs {name : String} (word : Entry) (returned : Returned) :
    (g.moving E).Sim (name :: inner) Anything (pushOutputs word returned)
      (pushOutputs word returned) := by
  have hcheck : ∀ {α : Type} (result : Except Cause α), (g.moving E).Sim (name :: inner)
      (fun _ => Eq) (withContext (ofExcept result)) (withContext (ofExcept result)) :=
    fun result => sim_withContext (sim_ofExcept result fun _ => rfl)
  refine composes.bind (hcheck _) ?_
  rintro _ payloads _ rfl rfl
  refine composes.pushPayloads kinds (P := fun _ => Eq) (fun _ _ _ _ _ h => h) ?_
    (List.forall₂_refl _)
  rintro _ rfl slot - p _ rfl m _ ⟨rfl, -⟩
  exact hcheck _

section Words

variable {engine engine' : Engine E} (h : (g.moving E).Engines engine engine') (host : Host E)
include h

theorem dispatchWith (word : Entry) {m : Machine E} (hm : g.Holds inner m)
    (hclear : ∀ handler : Handler E, m.handlers[word.handlerIndex]? = some handler →
      handler.action = .builtin .clear → g.below = []) :
    g.Follows inner Anything (host.dispatchWith engine word m)
      (host.dispatchWith engine' word (g.lift inner m)) := by
  have hlift : (g.lift inner m).handlers = m.handlers := rfl
  unfold Host.dispatchWith
  rw [machine_bind, machine_bind, hlift]
  cases hhandler : m.handlers[word.handlerIndex]? with
  | none => exact sim_raise _ m _ ⟨rfl, hm⟩
  | some handler =>
    obtain ⟨b, hb⟩ := hm.plain.action _ _ hhandler
    have hclear' : b = .clear → g.below = [] := fun hbc => hclear handler hhandler (hbc ▸ hb)
    dsimp only
    rw [hb]
    refine composes.bind (sim_takeInputs word) ?_ m _ ⟨rfl, hm⟩
    rintro w' inputs _ - rfl
    refine sim_within rfl (composes.bind (sim_withContext (h.run b ⟨rfl, hclear'⟩)) ?_)
    rintro _ returned _ rfl rfl
    exact sim_pushOutputs word returned

/-- A word that is not avoided corresponds to itself on the other ground. -/
theorem performWith {name : String} (hname : name ∉ g.avoided) :
    (g.moving E).Sim inner Anything (host.performWith engine name)
      (host.performWith engine' name) := by
  change (g.moving E).Sim inner Anything
    (engine.performing (host.dispatchWith engine) (host.offerUnknown engine name) name)
    (engine'.performing (host.dispatchWith engine') (host.offerUnknown engine' name) name)
  refine h.performing ?_ ?_
  · rintro m _ word ⟨rfl, hm⟩ hword
    refine dispatchWith h host word hm fun handler hhandler hclear => ?_
    by_cases hbelow : g.below = []
    · exact hbelow
    · exact absurd (hm.safe hbelow name word handler hword hhandler hclear) hname
  · rintro m _ ⟨rfl, hm⟩
    have hhook' : (g.lift inner m).hook = none := hm.plain.hook
    rw [Host.offerUnknown, Host.offerUnknown, machine_bind, machine_bind, hm.plain.hook, hhook']
    exact sim_raise _ m _ ⟨rfl, hm⟩

end Words

end Ground

/-- **A run corresponds to one on another ground**, which has no less fuel. -/
theorem Host.engineAvoiding_moving (host : Host E) (g : Ground) {fuel more : Nat}
    (hle : fuel ≤ more) :
    (g.moving E).Engines (host.engineAvoiding g.avoided fuel) (host.engine more) := by
  refine Ground.closed.engines (host.engineAvoiding_tower g.avoided) host.engine_tower
    (fun n _ => host.engineAvoiding_runs g.avoided n) (fun n k _ hbelow inner name => ?_) hle
  change (g.moving E).Sim inner Anything (if name ∈ g.avoided then giveUp else _) _
  split
  · exact Ground.sim_giveUp _
  · next hname => exact Ground.performWith hbelow host hname

/-! ### Endings -/

/-- The machine with values put below its stack. -/
def Machine.upon (m : Machine E) (below : List Value) : Machine E :=
  { m with stack := m.stack ++ below }

theorem Machine.upon_nil (m : Machine E) : m.upon [] = m := by
  simp [upon]

/-- The ground with values put below the stack and the same running words. -/
def Ground.under (below : List Value) (running avoided : List String) : Ground :=
  { below, outer := running, outer' := running, avoided }

theorem Ground.Holds.lift_under {below : List Value} {running avoided : List String} {m : Machine E}
    (h : (under below running avoided).Holds [] m) :
    (under below running avoided).lift [] m = m.upon below := by
  have hcalls : running = m.calls := h.calls.symm
  rw [Machine.upon, lift]
  simp only [under, List.nil_append, hcalls]

theorem Ground.Moves.eq_under {below : List Value} {running avoided : List String} {e e' : Error}
    (h : (under below running avoided).Moves e e') : e' = e := by
  cases h with
  | bare => rfl
  | traced => rfl

namespace Host

/-- The computation ends like this, and no word of an avoided name is run on the way. -/
def EndsAvoiding (host : Host E) (avoided : List String) (x : Engine E → Exec E α) (m : Machine E)
    (o : Outcome E α) : Prop :=
  o ≠ .exhausted ∧ ∃ fuel, x (host.engineAvoiding avoided fuel) m = o

variable {host : Host E} {avoided : List String} {code : List Value} {m : Machine E}
  {o : Outcome E Unit}

/-- Code that ends without emptying the stack ends alike with values put below, however much fuel
there is beyond what it needs. -/
theorem EndsAvoiding.upon (h : host.EndsAvoiding avoided (·.executeAll code) m o)
    (below : List Value) (hm : (Ground.under below m.calls avoided).Holds [] m)
    (hexcuse : below ≠ [] → ∀ e m', o = .raised e m' → e.kind ≠ .stackUnderflow) :
    host.Ends (·.executeAll code) (m.upon below) (o.mapMachine (·.upon below)) := by
  obtain ⟨ho, fuel, hfuel⟩ := h
  refine ⟨fun hmap => ho ?_, fuel, fun more hle => ?_⟩
  · cases o with
    | exhausted => rfl
    | done a m' => cases hmap
    | raised e m' => cases hmap
  have hfollows := (host.engineAvoiding_moving _ hle).executeAll
    ((rows_iff_eq rfl).mpr (Eq.refl code)) m _ ⟨rfl, hm⟩
  rw [hm.lift_under] at hfollows
  change Ground.Follows _ [] _ ((host.engineAvoiding avoided fuel).executeAll code m) _ at hfollows
  dsimp only at hfuel ⊢
  rw [hfuel] at hfollows
  generalize (host.engine more).executeAll code (m.upon below) = o' at hfollows ⊢
  cases hfollows with
  | exhausted => exact absurd rfl ho
  | excused hbelow hkind => exact absurd hkind (hexcuse hbelow _ _ rfl)
  | done a hm' =>
    rw [hm'.lift_under]
    rfl
  | raised he hm' =>
    rw [hm'.lift_under, he.eq_under]
    rfl

/-- More fuel does not change how code ends on a plain machine. -/
theorem EndsAvoiding.ends (hm : m.Plain) (h : host.EndsAvoiding avoided (·.executeAll code) m o) :
    host.Ends (·.executeAll code) m o := by
  have hupon := h.upon [] ⟨hm, rfl, fun hbelow => absurd rfl hbelow⟩ fun hbelow => absurd rfl hbelow
  simp only [Machine.upon_nil] at hupon
  cases o with
  | done a m' => exact hupon
  | raised e m' => exact hupon
  | exhausted => exact absurd rfl h.1

theorem ends_executeAll (hm : m.Plain) {fuel : Nat} (h : (host.engine fuel).executeAll code m = o)
    (ho : o ≠ .exhausted) : host.Ends (·.executeAll code) m o := by
  rw [← host.engineAvoiding_nil] at h
  exact EndsAvoiding.ends hm ⟨ho, fuel, h⟩

end Host

end Wordstack
