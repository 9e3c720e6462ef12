import Wordstack.Proofs.Correspondence

/-!
# The course of a run

What a run on a plain machine can do to it, said once: change values, collect a value, read a
lexeme, parse a text or collect up to a delimiter with readers and accumulators of its own, run a
word, and fail in one of a few ways.  Whatever holds of every run is then shown by induction on its
course.  On a standard machine, where a source text is open if one is to be read, no run fails with
an internal error.

* `Course`: the machine before a run, the error it ended with, if any, and the machine after it.
* `Course.frame`: a run stays inside the frame.
* `Exec.Runs`: a computation whose runs have a course, with one lemma for each operation.
* `Correspondence.running`: a run that corresponds to itself if it has a course and fails with
  nothing internal.
* `Host.engine_running`: so do the runs of every engine of a host.
-/

namespace Wordstack

variable {E : Embedding} {α β : Type}

open Exec

/-- What a run can do: the machine before it, the error if it fails, and the machine after it. -/
inductive Course : Machine E → Option Error → Machine E → Prop
  /-- One run after another. -/
  | append {m m' m'' : Machine E} {e : Option Error} (first : Course m none m')
      (second : Course m' e m'') : Course m e m''
  /-- The stack, the heap, the named scopes and the output change. -/
  | values (m : Machine E) (stack : List Value) (heap : Heap) (registry : Registry)
      (output : String) : Course m none { m with stack, heap, registry, output }
  /-- The run fails with the context of the machine. -/
  | fails (m : Machine E) (cause : Cause) : Course m (some (m.error cause)) m
  /-- The run fails without context. -/
  | refuses (m : Machine E) (cause : Cause) : Course m (some { cause }) m
  /-- The innermost reader is asked for a lexeme. -/
  | reads {m : Machine E} {reader after : Buffer} {lexers : List Buffer} {found : Scan}
      (hlexers : m.lexers = reader :: lexers) (hscan : reader.scan = (found, after))
      (hfound : ∀ start, found ≠ .unclosed start) :
      Course m none { m with lexers := after :: lexers }
  /-- The innermost reader is asked for a lexeme and finds a quote that is never closed. -/
  | unclosed {m : Machine E} {reader after : Buffer} {lexers : List Buffer} {start : Location}
      (hlexers : m.lexers = reader :: lexers) (hscan : reader.scan = (.unclosed start, after)) :
      Course m (some { cause := .unclosedQuote, location := some start })
        { m with lexers := after :: lexers }
  /-- The innermost accumulator collects a value. -/
  | collects {m : Machine E} {values : List Value} {accumulators : List (List Value)}
      (haccumulators : m.accumulators = values :: accumulators) (value : Value) :
      Course m none { m with accumulators := (value :: values) :: accumulators }
  /-- A text is parsed with a reader and an accumulator of its own. -/
  | parses {m m' : Machine E} {e : Option Error} {path source : String}
      (inside : Course (Engine.opened path source m) e m') :
      Course m e { m' with lexers := m.lexers, accumulators := m.accumulators }
  /-- The innermost text is read on with an accumulator of its own. -/
  | gathers {m m' : Machine E} {e : Option Error} (inside : Course (Engine.collecting m) e m') :
      Course m e { m' with accumulators := m.accumulators }
  /-- A word is run.  An error that leaves it gets the context of the machine, if it has none. -/
  | word {m m' : Machine E} {e : Option Error} (name : String)
      (inside : Course (m.entering name) e m') : Course m (e.map m'.addContext) m'.leaving

namespace Course

variable {m m' : Machine E} {e : Option Error}

theorem idle (m : Machine E) : Course m none m :=
  .values m m.stack m.heap m.registry m.output

/-- **A run stays inside the frame.** -/
theorem frame (h : Course m e m') : m.Frame m' := by
  induction h with
  | append _ _ first second => exact Machine.Frame.trans first second
  | values => exact .of_values _ _ _ _ _
  | fails | refuses => exact .refl _
  | @reads _ reader _ _ _ hlexers hscan | @unclosed _ reader _ _ _ hlexers hscan =>
    have hmoves := reader.scan_snd
    rw [hscan] at hmoves
    exact { Machine.Frame.refl _ with lexers := hlexers ▸ .top hmoves }
  | collects haccumulators value =>
    exact { Machine.Frame.refl _ with
      accumulators := haccumulators ▸ .top (List.suffix_cons value _) }
  | parses _ ih =>
    exact { ih with
      lexers := (Machine.Frame.refl _).lexers
      accumulators := (Machine.Frame.refl _).accumulators }
  | gathers _ ih => exact { ih with accumulators := (Machine.Frame.refl _).accumulators }
  | word name _ ih => exact { ih with calls := congrArg List.tail ih.calls }

end Course

namespace Outcome

/-- The computation that started with `m`, if it ended, ran a course. -/
def Follows (m : Machine E) : Outcome E α → Prop
  | done _ m' => Course m none m'
  | raised e m' => Course m (some e) m'
  | exhausted => True

theorem Follows.frame {m : Machine E} {o : Outcome E α} (h : o.Follows m) : o.Leaves m.Frame := by
  cases o with
  | done a m' => exact Course.frame h
  | raised e m' => exact Course.frame h
  | exhausted => trivial

end Outcome

namespace Exec

/-- A computation that runs a course on every plain machine. -/
def Runs (x : Exec E α) : Prop :=
  ∀ m : Machine E, m.Plain → (x m).Follows m

theorem runs_ofExcept (result : Except Cause α) : Runs (ofExcept result : Exec E α) := by
  cases result with
  | ok a => exact fun m _ => .idle m
  | error cause => exact fun m _ => .refuses m cause

theorem runs_isDeed {x : Exec E α} (hx : IsDeed x) : Runs x := by
  obtain ⟨f, hf⟩ := hx
  intro m _
  rw [hf]
  cases f m.heap m.registry with
  | made a heap registry written => exact .values m _ _ _ _
  | failed cause => exact .fails m cause
  | refused cause => exact .refuses m cause

theorem runs_push (value : Value) : Runs (push value : Exec E Unit) :=
  fun m _ => .values m _ _ _ _

theorem runs_pop : Runs (pop : Exec E Value) := by
  intro m _
  unfold pop
  split
  · exact .fails m _
  · exact .values m _ _ _ _

theorem runs_newArray (values : List Value) : Runs (newArray values : Exec E ArrayId) :=
  fun m _ => .values m _ _ _ _

theorem runs_accumulate (value : Value) : Runs (accumulate value : Exec E Unit) := by
  intro m _
  unfold accumulate
  split
  · exact .fails m _
  · next values accumulators ha => exact .collects ha value

theorem runs_takeInputs (word : Entry) : Runs (takeInputs word : Exec E (List Payload)) := by
  intro m _
  unfold takeInputs
  dsimp only
  split
  · exact .fails m _
  · split
    · exact .fails m _
    · exact .values m _ _ _ _

/-! ### Adding context -/

theorem withContext_bind (x : Exec E α) (f : α → Exec E β) :
    withContext (x >>= f) = withContext x >>= fun a => withContext (f a) := by
  funext m
  simp only [withContext, bind_apply]
  cases x m with
  | done a m' => rfl
  | raised e m' => rfl
  | exhausted => rfl

/-- An error that has context keeps it. -/
theorem withContext_withContext (x : Exec E α) : withContext (withContext x) = withContext x := by
  funext m
  simp only [withContext]
  cases x m with
  | done a m' => rfl
  | raised e m' =>
    have hsame : m'.addContext (m'.addContext e) = m'.addContext e := by
      by_cases he : e.calls.isSome = true
      · simp [Machine.addContext, he]
      · simp [Machine.addContext, he, Machine.error]
    simp only [hsame]
  | exhausted => rfl

theorem withContext_pushPayloads (slots : List Slot) (payloads : List Payload) :
    withContext (pushPayloads slots payloads : Exec E Unit) = pushPayloads slots payloads := by
  induction slots generalizing payloads with
  | nil => cases payloads <;> rfl
  | cons slot slots ih =>
    cases payloads with
    | nil => rfl
    | cons payload payloads =>
      simp only [pushPayloads, withContext_bind, withContext_withContext, ih]
      rfl

theorem withContext_pushOutputs (word : Entry) (returned : Returned) :
    withContext (pushOutputs word returned : Exec E Unit) = pushOutputs word returned := by
  simp only [pushOutputs, withContext_bind, withContext_withContext, withContext_pushPayloads]

theorem runs_withContext_ofExcept (result : Except Cause α) :
    Runs (withContext (ofExcept result) : Exec E α) := by
  cases result with
  | ok a => exact fun m _ => .idle m
  | error cause => exact fun m _ => .fails m _

end Exec

/-! ### Runs that have a course -/

/-- What a run starts with.  If the words are the standard ones, there is a source text to read from
where one is to be read. -/
structure Machine.Footing (strict reading : Prop) (m : Machine E) : Prop where
  plain : m.Plain
  standard : strict → m.Standard
  source : strict → reading → m.lexers ≠ []

namespace Machine.Footing

variable {strict reading : Prop} {m m' : Machine E}

theorem of_plain (hm : m.Plain) : m.Footing False reading :=
  ⟨hm, False.elim, False.elim⟩

/-- A machine stays what it was inside the frame: its reader may move on, but it is still there. -/
theorem frame (h : m.Footing strict reading) (hf : m.Frame m') : m'.Footing strict reading where
  plain := hf.plain h.plain
  standard hstrict := (h.standard hstrict).frame hf
  source hstrict hreading hnil := by
    have hlexers := hf.lexers
    rw [hnil] at hlexers
    cases hlexers' : m.lexers with
    | nil => exact h.source hstrict hreading hlexers'
    | cons buffer lexers =>
      rw [hlexers'] at hlexers
      cases hlexers

/-- The parses in progress and the running words may change, as long as there is something to
read. -/
theorem turn (h : m.Footing strict reading) {reading' : Prop} {lexers : List Buffer}
    {accumulators : List (List Value)} {calls : List String}
    (hlexers : strict → reading' → lexers ≠ []) :
    ({ m with lexers, accumulators, calls } : Machine E).Footing strict reading' where
  plain := ⟨h.plain.hook, h.plain.action⟩
  standard hstrict :=
    ⟨(h.standard hstrict).dictionary, (h.standard hstrict).handlers, (h.standard hstrict).hook⟩
  source := hlexers

/-- What the word of an entry is, and that its declaration is that of the word. -/
theorem exists_builtin (h : m.Footing strict reading) {name : String} {word : Entry}
    {handler : Handler E} (hword : m.dictionary.get? name = some word)
    (hhandler : m.handlers[word.handlerIndex]? = some handler) :
    ∃ b, handler.action = .builtin b ∧ (strict → word.effect = b.effect) := by
  obtain ⟨b, hb⟩ := h.plain.action _ _ hhandler
  refine ⟨b, hb, fun hstrict => ?_⟩
  obtain ⟨b', -, hentry, hhandler'⟩ := (h.standard hstrict).faithful.entry _ _ hword
  rw [hhandler'] at hhandler
  obtain rfl := Option.some.inj hhandler
  obtain rfl := Action.builtin.inj hb
  rw [hentry]
  rfl

end Machine.Footing

/-- How a run may end that is compared with itself: it ran a course, and if the words are the
standard ones, what it fails with is not internal. -/
inductive Course.Ending (strict reading : Prop) (m : Machine E) (R : Prop → α → α → Prop) :
    Outcome E α → Outcome E α → Prop
  | done {a b : α} {n : Machine E} (course : Course m none n) (result : R reading a b) :
      Ending strict reading m R (.done a n) (.done b n)
  | raised {e : Error} {n : Machine E} (course : Course m (some e) n)
      (sound : strict → ¬e.cause.IsInternal) : Ending strict reading m R (.raised e n) (.raised e n)
  | exhausted : Ending strict reading m R .exhausted .exhausted

namespace Course.Ending

variable {strict reading : Prop} {m m' : Machine E} {R : Prop → α → α → Prop} {o o' : Outcome E α}

theorem after (h : Ending strict reading m' R o o') (first : Course m none m') :
    Ending strict reading m R o o' := by
  cases h with
  | done course result => exact .done (first.append course) result
  | raised course sound => exact .raised (first.append course) sound
  | exhausted => exact .exhausted

theorem follows (h : Ending strict reading m R o o') : o.Follows m := by
  cases h with
  | done course => exact course
  | raised course => exact course
  | exhausted => trivial

theorem sound (h : Ending strict reading m R o o') (hstrict : strict) :
    o.Sound fun _ => True := by
  cases h with
  | done => trivial
  | raised _ sound => exact sound hstrict
  | exhausted => trivial

end Course.Ending

namespace Correspondence

/-- Runs that are compared with themselves. -/
def running (E : Embedding) (strict : Prop) : Correspondence E where
  World := Prop
  Later := Eq
  Reading reading := reading
  Values _ := Eq
  Arrays _ := Eq
  Inputs _ b inputs inputs' :=
    inputs' = inputs ∧ (strict → List.Forall₂ Slot.Passes b.effect.inputs inputs)
  Outputs b _ returned returned' :=
    returned' = returned ∧ (strict → returned.Meets b.effect.outputs)
  Machines reading m m' := m' = m ∧ m.Footing strict reading
  Ends reading m := Course.Ending strict reading m
  Fuel := Eq
  Known _ _ := True

namespace Running

variable {strict w : Prop} {R : Prop → α → α → Prop}

theorem sim_of_runs {Q : α → Prop} {x : Exec E α} (hx : Runs x) (hy : strict → Yields Q x)
    (hR : ∀ a, (strict → Q a) → R w a a) : (running E strict).Sim w R x x := by
  rintro _ m ⟨rfl, hm⟩
  have hcourse := hx m hm.plain
  have hsound : strict → (x m).Sound Q := fun hstrict => hy hstrict m
  cases hxm : x m with
  | done a n =>
    rw [hxm] at hcourse hsound
    exact .done hcourse (hR a hsound)
  | raised e n =>
    rw [hxm] at hcourse hsound
    exact .raised hcourse hsound
  | exhausted => exact .exhausted

theorem runs_of_sim {x : Exec E α} (hx : (running E False).Sim w R x x) : Runs x :=
  fun m hm => (hx m m ⟨rfl, .of_plain hm⟩).follows

theorem sim_raise {cause : Cause} (h : strict → ¬cause.IsInternal) :
    (running E strict).Sim w R (raise cause) (raise cause) := by
  rintro _ m ⟨rfl, -⟩
  exact .raised (.fails m cause) h

theorem sim_bind {S : Prop → β → β → Prop} {x y : Exec E α} {f f' : α → Exec E β}
    (hx : (running E strict).Sim w R x y)
    (hf : ∀ w' a b, w = w' → R w' a b → (running E strict).Sim w' S (f a) (f' b)) :
    (running E strict).Sim w S (x >>= f) (y >>= f') := by
  rintro _ m ⟨rfl, hm⟩
  have h := hx m m ⟨rfl, hm⟩
  rw [bind_apply, bind_apply]
  generalize x m = o at h ⊢
  generalize y m = o' at h ⊢
  cases h with
  | done course result =>
    exact Course.Ending.after (hf w _ _ rfl result _ _ ⟨rfl, hm.frame course.frame⟩) course
  | raised course sound => exact .raised course sound
  | exhausted => exact .exhausted

theorem composes : (running E strict).Composes where
  pure hR := by
    rintro _ m ⟨rfl, -⟩
    exact .done (.idle m) hR
  bind := sim_bind
  push := by
    rintro w v _ rfl
    exact sim_of_runs (runs_push v) (fun _ => yields_push v) fun _ _ => trivial

theorem kinds : (running E strict).Kinds :=
  .of_eq rfl rfl (fun _ => rfl) (fun h h' => Eq.trans h h') (fun h hw => Eq.mp h hw)

theorem views {m m' : Machine E} (h : (running E strict).Machines w m m') :
    (running E strict).Views w m m' := by
  obtain ⟨rfl, -⟩ := h
  exact .of_eq rfl rfl rfl rfl rfl rfl rfl

/-- Where there is no reader there is nothing to read, unless the words are others. -/
theorem parseOne {engine engine' : Engine E}
    (hw : (running E strict).Reading w)
    (htake : ∀ w' found, (running E strict).Literal w' found →
      (running E strict).Sim w' Anything (engine.take (.ofLexeme found))
        (engine'.take (.ofLexeme found))) :
    (running E strict).Sim w Same engine.parseOne engine'.parseOne := by
  rintro _ m ⟨rfl, hm⟩
  cases hlexers : m.lexers with
  | nil =>
    have hscan : scan m = .done none m := by rw [scan, hlexers]
    rw [Engine.parseOne, Engine.parseOne, bind_of_done hscan, bind_of_done hscan]
    exact .raised (.fails m _) fun hstrict => absurd hlexers (hm.source hstrict hw)
  | cons reader lexers =>
    have hscan : scan m = .done (some reader.scan.1)
        { m with lexers := reader.scan.2 :: lexers } := by rw [scan, hlexers]
    rw [Engine.parseOne, Engine.parseOne, bind_of_done hscan, bind_of_done hscan]
    rcases hfound : reader.scan with ⟨found | _ | start, after⟩
    · have hread := Course.reads hlexers hfound (by simp)
      have htake : (running E strict).Sim w Same
          (engine.take (.ofLexeme found) >>= fun _ => pure true)
          (engine'.take (.ofLexeme found) >>= fun _ => pure true) :=
        sim_bind (htake w found rfl) fun _ _ _ _ _ => composes.pure rfl
      exact Course.Ending.after (htake _ _ ⟨rfl, hm.frame hread.frame⟩) hread
    · exact .done (.reads hlexers hfound (by simp)) rfl
    · exact .raised (.unclosed hlexers hfound) fun _ => not_false

/-- What a parse opened is there to be closed. -/
theorem parseSource {engine engine' : Engine E} (path source : String)
    (hparse : ∀ w', (running E strict).Reading w' → (running E strict).Sim w' Anything
      (engine.parseAll engine.rounds) (engine'.parseAll engine'.rounds)) :
    (running E strict).Sim w (running E strict).Rows (engine.parseSource path source)
      (engine'.parseSource path source) := by
  rintro _ m ⟨rfl, hm⟩
  have hopened : (Engine.opened path source m).Footing strict True :=
    hm.turn fun _ _ => List.cons_ne_nil _ _
  have h := hparse True trivial _ _ ⟨rfl, hopened⟩
  generalize hx : engine.parseAll engine.rounds (Engine.opened path source m) = o at h
  generalize hy : engine'.parseAll engine'.rounds (Engine.opened path source m) = o' at h
  cases h with
  | done course =>
    obtain ⟨buffer, values, hl, ha⟩ := course.frame.exists_opened
    rw [engine.parseSource_of_done hx hl ha, engine'.parseSource_of_done hy hl ha]
    exact .done (.parses course) ((rows_iff_eq rfl).mpr rfl)
  | raised course sound =>
    obtain ⟨buffer, values, hl, ha⟩ := course.frame.exists_opened
    rw [engine.parseSource_of_raised hx hl ha, engine'.parseSource_of_raised hy hl ha]
    exact .raised (.parses course) sound
  | exhausted =>
    rw [engine.parseSource_of_exhausted hx, engine'.parseSource_of_exhausted hy]
    exact .exhausted

/-- Whether there is a source text to collect from is checked first. -/
theorem parseUntil {engine engine' : Engine E} (delimiter : String)
    (hcollect : ∀ w', (running E strict).Reading w' → (running E strict).Sim w' Anything
      (engine.collectUntil delimiter engine.rounds)
      (engine'.collectUntil delimiter engine'.rounds)) :
    (running E strict).Sim w (running E strict).Rows (engine.parseUntil delimiter)
      (engine'.parseUntil delimiter) := by
  rintro _ m ⟨rfl, hm⟩
  by_cases hl : m.lexers = []
  · rw [engine.parseUntil_of_idle hl, engine'.parseUntil_of_idle hl]
    exact .raised (.fails m _) fun _ => not_false
  have hcollecting : (Engine.collecting m).Footing strict True := hm.turn fun _ _ => hl
  have h := hcollect True trivial _ _ ⟨rfl, hcollecting⟩
  generalize hx : engine.collectUntil delimiter engine.rounds (Engine.collecting m) = o at h
  generalize hy : engine'.collectUntil delimiter engine'.rounds (Engine.collecting m) = o' at h
  cases h with
  | done course =>
    obtain ⟨values, -, ha⟩ := course.frame.accumulators.exists_cons
    rw [engine.parseUntil_of_done hl hx ha, engine'.parseUntil_of_done hl hy ha]
    exact .done (.gathers course) ((rows_iff_eq rfl).mpr rfl)
  | raised course sound =>
    obtain ⟨values, -, ha⟩ := course.frame.accumulators.exists_cons
    rw [engine.parseUntil_of_raised hl hx ha, engine'.parseUntil_of_raised hl hy ha]
    exact .raised (.gathers course) sound
  | exhausted =>
    rw [engine.parseUntil_of_exhausted hl hx, engine'.parseUntil_of_exhausted hl hy]
    exact .exhausted

/-- A word that is given what it declared finds what it asks for. -/
theorem arguments {b : Builtin} {taking : Taking α} {inputs inputs' : List Payload}
    (hasks : (running E strict).Asks b taking R)
    (hinputs : (running E strict).Inputs w b inputs inputs') :
    (running E strict).Sim w R (arguments taking inputs) (Exec.arguments taking inputs') := by
  obtain ⟨rfl, hpasses⟩ := hinputs
  refine sim_of_runs (Q := fun _ => True) (runs_ofExcept _) (fun hstrict => ?_) fun a _ =>
    hasks.refl rfl w a
  obtain ⟨a, ha⟩ := hasks.reads.arguments (E := E) (hpasses hstrict)
  rw [ha]
  exact yields_pure trivial

theorem closed : (running E strict).Closed where
  toComposes := composes
  toKinds := kinds
  views := views
  raise h := sim_raise fun _ => h
  giveUp hfuel hy := by
    rw [hy hfuel.symm]
    rintro _ m ⟨rfl, -⟩
    exact .exhausted
  fuel h := ⟨_, h.symm, rfl⟩
  pop := sim_of_runs runs_pop (fun _ => yields_pop) fun _ _ => rfl
  newArray hvalues := by
    obtain rfl := (rows_iff_eq rfl).mp hvalues
    exact sim_of_runs (Q := fun _ => True) (runs_newArray _) (fun _ _ => trivial) fun _ _ => rfl
  accumulate := by
    rintro w v _ rfl
    exact sim_of_runs (runs_accumulate v) (fun _ => yields_accumulate v) fun _ _ => trivial
  parseOne := parseOne
  parseSource path source _ := parseSource path source
  parseUntil delimiter _ := parseUntil delimiter
  passive hb hinputs engine engine' := by
    obtain ⟨rfl, hpasses⟩ := hinputs
    rw [Builtin.run_congr hb engine' engine]
    exact sim_of_runs (runs_isDeed (Builtin.run_isDeed hb engine _))
      (fun hstrict => Builtin.run_yields hb engine (hpasses hstrict))
      fun _ hmeets => ⟨rfl, hmeets⟩
  clear hinputs := by
    obtain ⟨rfl, -⟩ := hinputs
    exact sim_of_runs (Q := Returned.Meets []) (fun m _ => .values m _ _ _ _)
      (fun _ _ => Returned.meets_nothing) fun _ hmeets => ⟨rfl, hmeets⟩
  arguments := arguments
  nothing := fun houtputs => ⟨rfl, fun _ => houtputs ▸ Returned.meets_nothing⟩
  made := by
    rintro w a _ rfl
    exact ⟨rfl, fun _ => Returned.meets_array _⟩

/-! ### Running words -/

/-- A word that is run, with context added to what it fails with. -/
theorem sim_word (name : String) {x y : Exec E α} (h : (running E strict).Sim w R x y) :
    (running E strict).Sim w R (within name (withContext x)) (within name (withContext y)) := by
  rintro _ m ⟨rfl, hm⟩
  have hinside := h (m.entering name) _ ⟨rfl, hm.turn hm.source⟩
  rw [within_apply, within_apply]
  change Course.Ending strict w m R
    ((withContext x (m.entering name)).mapMachine Machine.leaving)
    ((withContext y (m.entering name)).mapMachine Machine.leaving)
  unfold withContext
  generalize x (m.entering name) = o at hinside ⊢
  generalize y (m.entering name) = o' at hinside ⊢
  cases hinside with
  | done course result => exact .done (.word name course) result
  | @raised e n course sound =>
    exact .raised (.word name course) fun hstrict hinternal =>
      sound hstrict ((n.isInternal_addContext e).mp hinternal)
  | exhausted => exact .exhausted

theorem sim_pushOutputs {word : Entry} {returned : Returned}
    (h : strict → returned.Meets word.effect.outputs) :
    (running E strict).Sim w Anything (pushOutputs word returned) (pushOutputs word returned) := by
  have hruns : Runs (pushOutputs word returned : Exec E Unit) := by
    have hcheck : ∀ {α : Type} {w : Prop} (result : Except Cause α), (running E False).Sim w
        (fun _ => Eq) (withContext (ofExcept result)) (withContext (ofExcept result)) :=
      fun result => sim_of_runs (Q := fun _ => True) (runs_withContext_ofExcept result) False.elim
        fun _ _ => rfl
    refine runs_of_sim (w := False) (R := Anything) (composes.bind (hcheck _) ?_)
    rintro w' payloads _ - rfl
    refine composes.pushPayloads kinds (P := fun _ => Eq) (fun _ _ _ _ _ h => h) ?_
      (List.forall₂_refl _)
    rintro w'' - slot - p _ rfl m _ ⟨rfl, -⟩
    exact hcheck _
  exact sim_of_runs hruns (fun hstrict => yields_pushOutputs (h hstrict)) fun _ _ => trivial

variable (host : Host E) {engine : Engine E} (h : (running E strict).Engines engine engine)
include h

/-- The word of an entry.  Standard entries do not point at nothing. -/
theorem dispatchWith {name : String} {word : Entry} {m : Machine E} (hm : m.Footing strict w)
    (hword : m.dictionary.get? name = some word) :
    Course.Ending strict w m Anything (host.dispatchWith engine word m)
      (host.dispatchWith engine word m) := by
  unfold Host.dispatchWith
  rw [machine_bind]
  cases hhandler : m.handlers[word.handlerIndex]? with
  | none =>
    refine .raised (.fails m _) fun hstrict => ?_
    obtain ⟨b, -, -, hb⟩ := (hm.standard hstrict).faithful.entry _ _ hword
    rw [hhandler] at hb
    cases hb
  | some handler =>
    obtain ⟨b, hb, heffect⟩ := hm.exists_builtin hword hhandler
    dsimp only
    rw [hb]
    have htake : (running E strict).Sim w ((running E strict).Inputs · b)
        (takeInputs word) (takeInputs word) :=
      sim_of_runs (runs_takeInputs word) (fun _ => yields_takeInputs word)
        fun inputs hinputs => ⟨rfl, fun hstrict => heffect hstrict ▸ hinputs hstrict⟩
    refine composes.bind htake (fun w' inputs inputs' _ hinputs => ?_) m m ⟨rfl, hm⟩
    -- what fails on the way out has context, so that adding it to the whole makes no difference
    have hwhole : ∀ inputs, (do
        let returned ← withContext (host.act engine (.builtin b) inputs)
        pushOutputs word returned) =
        withContext (b.run engine inputs >>= pushOutputs word) := by
      intro inputs
      simp only [withContext_bind, withContext_pushOutputs]
      rfl
    rw [hwhole, hwhole]
    refine sim_word _ (composes.bind (h.run b hinputs) ?_)
    rintro w'' returned _ - ⟨rfl, hmeets⟩
    exact sim_pushOutputs fun hstrict => heffect hstrict ▸ hmeets hstrict

theorem performWith (name : String) :
    (running E strict).Sim w Anything (host.performWith engine name)
      (host.performWith engine name) := by
  change (running E strict).Sim w Anything
    (engine.performing (host.dispatchWith engine) (host.offerUnknown engine name) name)
    (engine.performing (host.dispatchWith engine) (host.offerUnknown engine name) name)
  refine h.performing ?_ ?_
  · rintro _ m word ⟨rfl, hm⟩ hword
    exact dispatchWith host h hm hword
  · rintro _ m ⟨rfl, hm⟩
    rw [Host.offerUnknown, machine_bind, hm.plain.hook]
    exact .raised (.fails m _) fun _ => not_false

end Running

end Correspondence

open Correspondence

/-- **Every run of an engine has a course**, and fails with nothing internal if the words are the
standard ones. -/
theorem Host.engine_running (host : Host E) (strict : Prop) (fuel : Nat) :
    (running E strict).Engines (host.engine fuel) (host.engine fuel) := by
  refine Running.closed.engines host.engine_tower host.engine_tower (fun _ _ => trivial) ?_ rfl
  rintro n _ rfl hbelow w name
  exact Running.performWith host hbelow name

/-- An engine whose runs have a course. -/
def Engine.Runs (engine : Engine E) : Prop :=
  (running E False).Engines engine engine

theorem Host.engine_runs (host : Host E) (fuel : Nat) : (host.engine fuel).Runs :=
  host.engine_running False fuel

namespace Engine.Runs

variable {engine : Engine E} (h : engine.Runs)
include h

theorem runs_parseAll (rounds : Nat) : (engine.parseAll rounds).Runs :=
  Running.runs_of_sim (w := True) (h.parseAll trivial rfl)

theorem runs_collectUntil (delimiter : String) (rounds : Nat) :
    (engine.collectUntil delimiter rounds).Runs :=
  Running.runs_of_sim (w := True) (h.collectUntil delimiter trivial rfl)

theorem runs_process (path source : String) : (engine.process path source).Runs :=
  Running.runs_of_sim (w := False) (h.process path source)

theorem runs_runQuotation (quotation : ArrayId) :
    (Vocabulary.runQuotation engine quotation).Runs :=
  Running.runs_of_sim (w := False) (h.runQuotation rfl)

end Engine.Runs

end Wordstack
