import Wordstack.Proofs.Course

/-!
# Runs restore what they use

What a host sees of the frame: each thing it can ask for gives back the running words, the
vocabulary, the parsing words and the parses in progress as it found them, whether it succeeds or
fails.  So an interpreter between two jobs never has a parse or a word in progress, whatever the
jobs before were and however they ended.
-/

namespace Wordstack

variable {E : Embedding}

open Exec Correspondence

/-- A piece of work that a host gives an interpreter. -/
inductive Job where
  /-- Parses a text. -/
  | parse (path source : String)
  /-- Parses and executes a text. -/
  | process (path source : String)
  /-- Executes a value. -/
  | execute (value : Value)
  /-- Executes code. -/
  | executeAll (code : List Value)

/-- Does a job.  The code that a parse gives is the host's. -/
def Job.run (engine : Engine E) : Job → Exec E Unit
  | parse path source => do
    let _ ← engine.parse path source
  | process path source => engine.process path source
  | execute value => engine.execute value
  | executeAll code => engine.executeAll code

/-- The machines that jobs done in order can lead to.  Each job ends, with success or with an error,
and the next one starts with the machine it left. -/
inductive Host.Does (host : Host E) : List Job → Machine E → Machine E → Prop
  | nothing {m : Machine E} : Does host [] m m
  | next {job : Job} {jobs : List Job} {m m' m'' : Machine E} {fuel : Nat}
      (ends : (job.run (host.engine fuel) m).machine? = some m') (rest : Does host jobs m' m'') :
      Does host (job :: jobs) m m''

/-- No parse and no word is in progress. -/
structure Machine.Idle (m : Machine E) : Prop where
  lexers : m.lexers = []
  accumulators : m.accumulators = []
  calls : m.calls = []

theorem Machine.Frame.idle {m m' : Machine E} (h : m.Frame m') (hm : m.Idle) : m'.Idle where
  lexers := h.lexers.eq_nil hm.lexers
  accumulators := h.accumulators.eq_nil hm.accumulators
  calls := h.calls.trans hm.calls

theorem Job.run_sim (job : Job) {strict w : Prop} {engine : Engine E}
    (h : (running E strict).Engines engine engine) :
    (running E strict).Sim w Anything (job.run engine) (job.run engine) := by
  cases job with
  | parse path source =>
    exact h.closed.bind (h.parse w path source) fun _ _ _ _ _ => h.closed.pure trivial
  | process path source => exact h.process path source
  | execute value => exact h.execute rfl
  | executeAll code => exact h.executeAll ((rows_iff_eq rfl).mpr rfl)

theorem Job.run_runs (job : Job) {engine : Engine E} (h : engine.Runs) : (job.run engine).Runs :=
  Running.runs_of_sim (w := False) (job.run_sim h)

/-- What a parse reads and collects with is gone when it ends. -/
theorem Engine.Runs.parseSource_restores {engine : Engine E} (h : engine.Runs)
    (path source : String) {m : Machine E} (hm : m.Plain) :
    (engine.parseSource path source m).Leaves fun m' =>
      m'.lexers = m.lexers ∧ m'.accumulators = m.accumulators := by
  have hopened : (opened path source m).Plain := ⟨hm.hook, hm.action⟩
  have hframe := (h.runs_parseAll engine.rounds _ hopened).frame
  cases hp : engine.parseAll engine.rounds (opened path source m) with
  | done a m' =>
    rw [hp] at hframe
    obtain ⟨buffer, values, hl, ha⟩ := hframe.exists_opened
    rw [parseSource_of_done engine hp hl ha]
    exact ⟨rfl, rfl⟩
  | raised e m' =>
    rw [hp] at hframe
    obtain ⟨buffer, values, hl, ha⟩ := hframe.exists_opened
    rw [parseSource_of_raised engine hp hl ha]
    exact ⟨rfl, rfl⟩
  | exhausted =>
    rw [parseSource_of_exhausted engine hp]
    trivial

theorem Host.parse_restores (host : Host E) (fuel : Nat) (path source : String) {m : Machine E}
    (hm : m.Plain) : ((host.engine fuel).parse path source m).Leaves fun m' =>
      m'.lexers = m.lexers ∧ m'.accumulators = m.accumulators := by
  cases fuel with
  | zero => trivial
  | succ fuel => exact (host.engine_runs fuel).parseSource_restores path source hm

theorem Host.Does.frame {host : Host E} {jobs : List Job} {m m' : Machine E}
    (h : host.Does jobs m m') (hm : m.Plain) : m.Frame m' := by
  -- along the jobs; one job keeps the machine inside the frame, so the next starts with a plain one
  induction h with
  | nothing => exact .refl _
  | @next job _ m _ _ fuel hends _ ih =>
    have hstep := (job.run_runs (host.engine_runs fuel) m hm).frame.of_machine? hends
    exact Machine.Frame.trans hstep (ih (hstep.plain hm))

/-- **Runs restore what they use.**  From every state of a plain machine, also one in the middle of
a parse, and for every text or code: whenever a parse ends, the machine it leaves is inside the
frame and has the very same readers and accumulators; whenever a text was processed, or a value or
code executed, the machine that is left is inside the frame.  And if nothing was in progress,
nothing is after any sequence of jobs. -/
theorem runs_restore (host : Host E) {m : Machine E} (hm : m.Plain) :
    (∀ fuel path source, ((host.engine fuel).parse path source m).Leaves fun m' =>
      m.Frame m' ∧ m'.lexers = m.lexers ∧ m'.accumulators = m.accumulators) ∧
    (∀ fuel path source, ((host.engine fuel).process path source m).Leaves m.Frame) ∧
    (∀ fuel value, ((host.engine fuel).execute value m).Leaves m.Frame) ∧
    (∀ fuel code, ((host.engine fuel).executeAll code m).Leaves m.Frame) ∧
    (m.Idle → ∀ jobs m', host.Does jobs m m' → m'.Idle) := by
  refine ⟨fun fuel path source => ?_, fun fuel path source => ?_, fun fuel value => ?_,
    fun fuel code => ?_, fun hidle jobs m' hjobs => ?_⟩
  · have hruns := Running.runs_of_sim ((host.engine_runs fuel).parse False path source)
    exact (hruns m hm).frame.and (host.parse_restores fuel path source hm)
  · exact (Job.run_runs (.process path source) (host.engine_runs fuel) m hm).frame
  · exact (Job.run_runs (.execute value) (host.engine_runs fuel) m hm).frame
  · exact (Job.run_runs (.executeAll code) (host.engine_runs fuel) m hm).frame
  · exact (hjobs.frame hm).idle hidle

/-- The machine in the middle of reading a text, inside a word, with one value collected. -/
def Machine.halfway (m : Machine E) : Machine E :=
  { m with
    parsingWords := defaultParsingWords
    lexers := [.ofSource "<input>" "1 2 ] 3"]
    accumulators := [[.int 0]]
    calls := ["call"] }

theorem Machine.Plain.halfway {m : Machine E} (hm : m.Plain) : m.halfway.Plain :=
  ⟨hm.hook, hm.action⟩

/-- In the middle of a parse, text collected up to a delimiter moves the reader on and does nothing
else to the parse. -/
theorem runs_restore_halfway :
    ∃ m', ((Host.bare.engine 6).executeAll [.string "]", .word "parse-until"]
        (Machine.standard (E := .bare) ()).halfway).machine? = some m' ∧
      (Machine.standard (E := .bare) ()).halfway.Frame m' ∧
      m'.lexers = [(Buffer.ofSource "<input>" "1 2 ] 3").drop 6] := by
  have hm := (Machine.standard_standard (E := .bare) ()).plain.halfway
  have hruns : (((Host.bare.engine 6).executeAll [.string "]", .word "parse-until"]
      (Machine.standard (E := .bare) ()).halfway).machine?.map (·.lexers)) =
        some [(Buffer.ofSource "<input>" "1 2 ] 3").drop 6] := by
    decide +kernel
  obtain ⟨m', hm', hlexers⟩ := Option.map_eq_some_iff.mp hruns
  exact ⟨m', hm', ((runs_restore Host.bare hm).2.2.2.1 6 _).of_machine? hm', hlexers⟩

end Wordstack
