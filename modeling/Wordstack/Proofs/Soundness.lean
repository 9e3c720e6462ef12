import Wordstack.Proofs.Restoration

/-!
# No script reaches an internal error

An error of a standard machine is always one that the script is to blame for: no word breaks its
declaration, no entry points at nothing, and no parse loses its reader or its accumulator, whatever
is run and whatever was run before.

* `Request`, `Host.Serves`: all that a host may do between two looks at the interpreter.
* `Request.run_sim`: each request runs a course that fails with nothing internal.
* `no_internal_error`: no request fails with an internal error, whatever was asked for before.
-/

namespace Wordstack

variable {E : Embedding}

open Exec Correspondence

/-- What a host may ask of an interpreter, or do to the arrays and scopes that it shares with it. -/
inductive Request where
  /-- Gives the interpreter something to parse, to process (a text without a path of its own is
  processed too, under the tag of the input) or to execute. -/
  | job (work : Job)
  /-- Runs a text and takes its result. -/
  | returnValue (source : String)
  /-- Pushes a value. -/
  | push (value : Value)
  /-- Pops a value. -/
  | pop
  /-- Makes and changes arrays and scopes. -/
  | arrange (heap : Heap)

/-- Does what is asked for.  The values that come out are the host's. -/
def Request.run (engine : Engine E) : Request → Exec E Unit
  | job work => work.run engine
  | returnValue source => do
    let _ ← engine.returnValue source
  | push value => Exec.push value
  | pop => do
    let _ ← Exec.pop
  | arrange heap => modifyHeap fun _ => heap

/-- The machines that requests made in order can lead to.  Each ends, with success or with an error,
and the next one is made of the machine it left. -/
inductive Host.Serves (host : Host E) : List Request → Machine E → Machine E → Prop
  | nothing {m : Machine E} : Serves host [] m m
  | next {request : Request} {requests : List Request} {m m' m'' : Machine E} {fuel : Nat}
      (ends : (request.run (host.engine fuel) m).machine? = some m')
      (rest : Serves host requests m' m'') : Serves host (request :: requests) m m''

theorem Request.run_sim (request : Request) {strict w : Prop} {engine : Engine E}
    (h : (running E strict).Engines engine engine) :
    (running E strict).Sim w Anything (request.run engine) (request.run engine) := by
  have hc := h.closed
  cases request with
  | job work => exact work.run_sim h
  | returnValue source =>
    have hvalue : (running E strict).Sim w (fun _ => Eq) (engine.returnValue source)
        (engine.returnValue source) :=
      hc.bind (h.process _ source) fun _ _ _ _ _ => hc.pop
    exact hc.bind hvalue fun _ _ _ _ _ => hc.pure trivial
  | push value => exact hc.push rfl
  | pop => exact hc.bind hc.pop fun _ _ _ _ _ => hc.pure trivial
  | arrange heap =>
    exact Running.sim_of_runs (Q := fun _ => True) (fun m _ => .values m _ _ _ _)
      (fun _ _ => trivial) fun _ _ => trivial

theorem Host.Serves.standard {host : Host E} {requests : List Request} {m m' : Machine E}
    (h : host.Serves requests m m') (hm : m.Standard) : m'.Standard := by
  -- along the requests; each of them leaves the vocabulary alone
  induction h with
  | nothing => exact hm
  | @next request _ m _ _ fuel hends _ ih =>
    have hruns : (request.run (host.engine fuel)).Runs :=
      Running.runs_of_sim (w := False) (request.run_sim (host.engine_runs fuel))
    exact ih (hm.frame ((hruns m hm.plain).frame.of_machine? hends))

theorem Machine.Standard.withParsingWords {m : Machine E} (h : m.Standard)
    (parsingWords : Table String) : ({ m with parsingWords } : Machine E).Standard :=
  ⟨h.dictionary, h.handlers, h.hook⟩

/-- **No script reaches an internal error.**  Start with a new machine that knows the words of the
language, with parsing words of any kind.  After any requests, however each of them ended, no
request raises an internal error, and so none raises one of the kind of a broken declaration. -/
theorem no_internal_error (host : Host E) (memory : E.Memory) (parsingWords : Table String)
    {requests : List Request} {m : Machine E}
    (h : host.Serves requests { Machine.standard memory with parsingWords } m) (request : Request)
    {fuel : Nat} {e : Error} {m' : Machine E}
    (he : request.run (host.engine fuel) m = .raised e m') :
    ¬e.cause.IsInternal ∧ e.kind ≠ .invalidSignature := by
  have hstandard : m.Standard :=
    h.standard ((Machine.standard_standard memory).withParsingWords parsingWords)
  have hfooting : m.Footing True False := ⟨hstandard.plain, fun _ => hstandard, fun _ => False.elim⟩
  have hsim := request.run_sim (w := False) (host.engine_running True fuel)
  have hsound := (hsim m m ⟨rfl, hfooting⟩).sound trivial
  rw [he] at hsound
  exact ⟨hsound, fun hkind => hsound (Cause.isInternal_of_kind hkind)⟩

/-- A parsing word that runs, in the middle of a parse, what stands in parentheses. -/
def eagerWords : Table String :=
  .ofList [("(", "\")\" parse-until call")]

/-- A division by zero in the middle of a parse, after a pop that found nothing and a parse that
broke off. -/
theorem no_internal_error_eager :
    ∃ m e m',
      Host.bare.Serves [.pop, .job (.parse "<input>" "( 1")]
        { Machine.standard (E := .bare) () with parsingWords := eagerWords } m ∧
      Request.run (Host.bare.engine 8) (.returnValue "2 ( 1 0 / )") m = .raised e m' ∧
      e.cause = .divisionByZero ∧ ¬e.cause.IsInternal ∧ e.kind ≠ .invalidSignature := by
  have hruns :
      ((Request.run (Host.bare.engine 8) .pop
        { Machine.standard (E := .bare) () with parsingWords := eagerWords }).machine?.bind fun m =>
      ((Request.run (Host.bare.engine 8) (.job (.parse "<input>" "( 1")) m).machine?.bind fun m =>
      (Request.run (Host.bare.engine 8) (.returnValue "2 ( 1 0 / )") m).error?.map
        fun e => e.cause)) = some .divisionByZero := by
    decide +kernel
  obtain ⟨m₁, h₁, hruns⟩ := Option.bind_eq_some_iff.mp hruns
  obtain ⟨m₂, h₂, hruns⟩ := Option.bind_eq_some_iff.mp hruns
  obtain ⟨e, he, hcause⟩ := Option.map_eq_some_iff.mp hruns
  obtain ⟨m₃, h₃⟩ := Outcome.eq_raised_of_error? he
  have hserves := Host.Serves.next h₁ (.next h₂ .nothing)
  exact ⟨m₂, e, m₃, hserves, h₃, hcause, no_internal_error Host.bare () eagerWords hserves _ h₃⟩

end Wordstack
