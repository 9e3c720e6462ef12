import Wordstack.Proofs.Restoration
import Wordstack.Proofs.Upkeep

/-!
# Dictionary and handlers stay in step

Words may be added at any time, also by the words of a host while they run.  As long as the host
does nothing to the vocabulary but add words, every run keeps dictionary and handlers in step, so
that a name always runs what was said of it last, and no run finds an entry that points at no
handler.

* `Engine.Tends`, `Host.Tends`: an engine, and a host whose words and hook do nothing else to the
  vocabulary.
* `Correspondence.tending`: a run that corresponds to itself if it tends the vocabulary.
* `Host.engine_tends`: every engine of such a host tends the vocabulary.
* `vocabulary_in_step`: from the calls that add words to what runs under a name.
-/

namespace Wordstack

variable {E : Embedding}

open Exec Taking

/-! ### Parsing and executing -/

/-- An engine whose operations tend the vocabulary.  An entry may be run if it points at one of the
handlers. -/
structure Engine.Tends (engine : Engine E) : Prop where
  parse : ∀ path source, (engine.parse path source).Tends
  perform : ∀ name, (engine.perform name).Tends
  dispatch : ∀ (word : Entry) (m : Machine E) (added : List (Addition E)), m.Learned added →
    word.handlerIndex < added.length → (engine.dispatch word m).Tended added

/-- Outcomes that differ in their results at most, which are related. -/
inductive Outcome.Matched {α : Type} (R : α → α → Prop) : Outcome E α → Outcome E α → Prop
  | done {a b : α} {m : Machine E} (result : R a b) : Matched R (.done a m) (.done b m)
  | raised (e : Error) (m : Machine E) : Matched R (.raised e m) (.raised e m)
  | exhausted : Matched R .exhausted .exhausted

theorem Outcome.Matched.refl {α : Type} {R : α → α → Prop} (hR : ∀ a, R a a) (o : Outcome E α) :
    o.Matched R o := by
  cases o with
  | done a m => exact .done (hR a)
  | raised e m => exact .raised e m
  | exhausted => exact .exhausted

namespace Correspondence

/-- Runs that are compared with themselves, and tend the vocabulary. -/
def tending (E : Embedding) : Correspondence E where
  World := Unit
  Later _ _ := True
  Reading _ := True
  Values _ := Eq
  Arrays _ := Eq
  Inputs _ _ := Eq
  Outputs _ _ := Eq
  Machines _ m m' := m' = m
  Ends _ m R o o' := o.Matched (R ()) o' ∧ ∀ added, m.Learned added → o.Tended added
  Fuel := Eq
  Known engine engine' := engine' = engine

namespace Tending

variable {α : Type} {R : Unit → α → α → Prop} {w : Unit}

theorem sim_of_tends {x : Exec E α} (hx : x.Tends) (hR : ∀ a, R () a a) :
    (tending E).Sim w R x x := by
  rintro _ m rfl
  exact ⟨.refl hR _, hx m⟩

theorem tends_of_sim {x y : Exec E α} (h : (tending E).Sim w R x y) : x.Tends :=
  fun m => (h m m rfl).2

/-- What is known of the words before the second part is known from the first. -/
theorem composes : (tending E).Composes where
  pure hR := by
    rintro _ m rfl
    exact ⟨.done hR, tends_pure _ m⟩
  bind := by
    intro α β w R S x y f f' hx hf
    rintro _ m rfl
    obtain ⟨hmatched, htended⟩ := hx m m rfl
    rw [bind_apply, bind_apply]
    generalize x m = o at hmatched htended ⊢
    generalize y m = o' at hmatched ⊢
    cases hmatched with
    | done result =>
      obtain ⟨hmatched', htended'⟩ := hf () _ _ trivial result _ _ rfl
      refine ⟨hmatched', fun added hm => ?_⟩
      obtain ⟨more, hn⟩ := htended added hm
      exact (htended' (added ++ more) hn).after
    | raised e n => exact ⟨.raised e n, htended⟩
    | exhausted => exact ⟨.exhausted, fun _ _ => trivial⟩
  push := by
    rintro w value _ rfl
    exact sim_of_tends (tends_push value) fun _ => trivial

theorem kinds : (tending E).Kinds :=
  .of_eq rfl rfl (fun _ => trivial) (fun _ _ => trivial) (fun _ _ => trivial)

/-- What the words that run quotations ask for is asked of their declaration. -/
theorem tends_asked {b : Builtin} {taking : Taking α} {R : (tending E).World → α → α → Prop}
    (h : (tending E).Asks b taking R) : taking.Asks := by
  cases h with
  | call => exact asks_next
  | choose => exact asks_triple asks_next asks_next asks_next
  | times | each | map => exact asks_pair asks_next asks_next

/-- The words of a host may have left readers and accumulators as they like, so that there may be
none to take away; that is another error. -/
theorem tends_parseSource {engine : Engine E} (path source : String)
    (h : (engine.parseAll engine.rounds).Tends) : (engine.parseSource path source).Tends := by
  refine tends_bind (tends_modify fun _ => ⟨rfl, rfl⟩) fun _ =>
    tends_bind (tends_modify fun _ => ⟨rfl, rfl⟩) fun _ => ?_
  refine tends_attempt h fun parsed hparsed => ?_
  refine tends_attempt tends_popAccumulator fun collected hcollected => ?_
  exact tends_bind tends_popLexer fun _ => tends_bind (tends_conclude hparsed) fun _ =>
    tends_conclude hcollected

theorem tends_parseUntil {engine : Engine E} (delimiter : String)
    (h : (engine.collectUntil delimiter engine.rounds).Tends) :
    (engine.parseUntil delimiter).Tends := by
  refine tends_machine fun m => ?_
  split
  · exact tends_raise not_false
  · refine tends_bind (tends_modify fun _ => ⟨rfl, rfl⟩) fun _ => ?_
    refine tends_attempt h fun result hresult => ?_
    exact tends_bind tends_popAccumulator fun _ => tends_bind (tends_conclude hresult) fun _ =>
      tends_pure _

theorem closed : (tending E).Closed where
  toComposes := composes
  toKinds := kinds
  views := by
    rintro w m _ rfl
    exact .of_eq rfl rfl rfl rfl rfl rfl rfl
  raise h := by
    rintro _ m rfl
    exact ⟨.raised _ _, tends_raise (fun hlacks => h hlacks.isInternal) m⟩
  giveUp hfuel hy := by
    rw [hy hfuel.symm]
    rintro _ m rfl
    exact ⟨.exhausted, fun _ _ => trivial⟩
  fuel h := ⟨_, h.symm, rfl⟩
  pop := sim_of_tends tends_pop fun _ => rfl
  newArray hvalues := by
    obtain rfl := (rows_iff_eq rfl).mp hvalues
    exact sim_of_tends (tends_newArray _) fun _ => rfl
  accumulate := by
    rintro w value _ rfl
    exact sim_of_tends (tends_accumulate value) fun _ => trivial
  parseOne _ htake := by
    have hscan : (tending E).Sim () (tending E).Scanned scan scan :=
      sim_of_tends tends_scan fun _ => ⟨rfl, fun _ _ => rfl⟩
    have hraise : ∀ w, (tending E).Sim w Same (raise .noSource : Exec E Bool) (raise .noSource) :=
      fun _ => sim_of_tends (tends_raise not_false) fun _ => rfl
    exact composes.parseOne hscan hraise
      (fun _ _ => sim_of_tends (tends_throw not_false) fun _ => rfl) htake
  parseSource path source := by
    rintro rfl h
    exact sim_of_tends (tends_parseSource path source (tends_of_sim (h () trivial)))
      fun _ => (rows_iff_eq rfl).mpr rfl
  parseUntil delimiter := by
    rintro rfl h
    exact sim_of_tends (tends_parseUntil delimiter (tends_of_sim (h () trivial)))
      fun _ => (rows_iff_eq rfl).mpr rfl
  passive := by
    rintro w b inputs _ hb rfl engine engine'
    rw [Builtin.run_congr hb engine' engine]
    exact sim_of_tends (Builtin.run_tends hb engine inputs) fun _ => rfl
  clear := by
    rintro w inputs _ rfl
    exact sim_of_tends (fun _ _ hm => hm.grown) fun _ => rfl
  arguments := by
    rintro α w b taking R inputs _ hasks rfl
    have htends : (arguments taking inputs : Exec E α).Tends := by
      rw [← bind_pure (arguments taking inputs)]
      exact tends_arguments (tends_asked hasks) inputs tends_pure
    exact sim_of_tends htends (hasks.refl rfl ())
  nothing _ := rfl
  made h := by
    obtain rfl := h
    rfl

theorem tends_pushOutputs (word : Entry) (returned : Returned) :
    Tends (pushOutputs word returned : Exec E Unit) := by
  refine tends_bind (tends_payloads returned _) fun payloads =>
    tends_of_sim (w := ()) (R := Anything) (y := pushPayloads word.effect.outputs payloads) ?_
  refine composes.pushPayloads kinds (P := fun _ => Eq) (fun _ _ _ _ _ h => h) ?_
    (List.forall₂_refl _)
  rintro w - slot - p _ rfl _ m rfl
  exact sim_of_tends (tends_toValue m.heap slot p) fun _ => rfl

end Tending

end Correspondence

open Correspondence

/-- An engine that tends the vocabulary corresponds to itself. -/
theorem Engine.Tends.engines {engine : Engine E} (h : engine.Tends) :
    (tending E).Engines engine engine where
  closed := Tending.closed
  parse _ path source :=
    Tending.sim_of_tends (h.parse path source) fun _ => (rows_iff_eq rfl).mpr rfl
  perform _ name := Tending.sim_of_tends (h.perform name) fun _ => trivial
  rounds := rfl
  known := rfl

/-! ### Running words -/

/-- A host that keeps to the rules: on an engine that tends the vocabulary, its words and its hook
tend it. -/
structure Host.Tends (host : Host E) : Prop where
  respond : ∀ (word : E.Word) (engine : Engine E) (inputs : List Payload), engine.Tends →
    (host.respond word engine inputs).Tends
  offer : ∀ (hook : E.Hook) (engine : Engine E) (name : String), engine.Tends →
    (host.offer hook engine name).Tends

namespace Host.Tends

variable {host : Host E} (hhost : host.Tends) {engine : Engine E} (h : engine.Tends)
include hhost h

theorem act (action : Action E) (inputs : List Payload) :
    (host.act engine action inputs).Tends := by
  cases action with
  | builtin b => exact Tending.tends_of_sim (w := ()) (h.engines.run b rfl)
  | host word => exact hhost.respond word engine inputs h

/-- An entry that points at one of the handlers finds it. -/
theorem dispatchWith (word : Entry) {m : Machine E} {added : List (Addition E)}
    (hm : m.Learned added) (hindex : word.handlerIndex < added.length) :
    (host.dispatchWith engine word m).Tended added := by
  -- there are as many handlers as words were added
  have hlt : word.handlerIndex < m.handlers.size := by rwa [hm.size_handlers]
  rw [Host.dispatchWith, machine_bind, Array.getElem?_eq_getElem hlt]
  have hcall : (takeInputs word >>= fun inputs => within word.name do
      let returned ← withContext (host.act engine m.handlers[word.handlerIndex].action inputs)
      pushOutputs word returned).Tends :=
    tends_bind (tends_takeInputs word) fun inputs => tends_within _ <|
      tends_bind (tends_withContext (hhost.act h _ inputs)) fun returned =>
        Tending.tends_pushOutputs word returned
  exact hcall m added hm

theorem offerUnknown (name : String) : (host.offerUnknown engine name).Tends := by
  refine tends_machine fun m => ?_
  split
  · exact tends_raise not_false
  · next hook _ =>
    refine tends_bind (hhost.offer hook engine name h) fun known => ?_
    split
    · exact tends_pure ()
    · exact tends_raise not_false

/-- The entry that a name leads to is that of the last word of the name, and points at the handler
of that word. -/
theorem performWith (name : String) : (host.performWith engine name).Tends := by
  refine Tending.tends_of_sim (w := ()) (R := Anything) (y := host.performWith engine name) ?_
  change (tending E).Sim () Anything
    (engine.performing (host.dispatchWith engine) (host.offerUnknown engine name) name)
    (engine.performing (host.dispatchWith engine) (host.offerUnknown engine name) name)
  refine h.engines.performing ?_ fun m m' hm =>
    Tending.sim_of_tends (w := ()) (hhost.offerUnknown h name) (fun _ => trivial) m m' hm
  rintro m _ word rfl hword
  refine ⟨.refl (fun _ => trivial) _, fun added hm => ?_⟩
  obtain ⟨i, latest, hlatest, rfl⟩ := (hm.get?_iff name word).mp hword
  exact hhost.dispatchWith h _ hm hlatest.lt

end Host.Tends

/-- **Every engine of a host that keeps to the rules tends the vocabulary.**  By induction on the
fuel. -/
theorem Host.engine_tends {host : Host E} (hhost : host.Tends) (fuel : Nat) :
    (host.engine fuel).Tends := by
  induction fuel with
  | zero =>
    exact ⟨fun _ _ => tends_giveUp, fun _ => tends_giveUp, fun _ _ _ _ _ => trivial⟩
  | succ fuel ih =>
    exact ⟨fun path source => Tending.tends_of_sim (w := ()) (ih.engines.parseSource path source),
      hhost.performWith ih, fun word _ _ hm hindex => hhost.dispatchWith ih word hm hindex⟩

theorem Job.run_tends (job : Job) {engine : Engine E} (h : engine.Tends) :
    (job.run engine).Tends := by
  cases job with
  | parse path source => exact tends_bind (h.parse path source) fun _ => tends_pure ()
  | process path source => exact Tending.tends_of_sim (w := ()) (h.engines.process path source)
  | execute value => exact Tending.tends_of_sim (w := ()) (h.engines.execute rfl)
  | executeAll code =>
    exact Tending.tends_of_sim (w := ())
      (h.engines.executeAll ((rows_iff_eq rfl).mpr (Eq.refl code)))

/-- **Dictionary and handlers stay in step**, whatever calls are made to add words.  A call that is
refused changes nothing.  The handlers are those of the words that were added, in order.  A name is
known if it was added, and only then, and its entry says what was said of it last and points at the
handler that came with that.  In every state of a machine that knows these words, a name that
neither collects nor is a scope path runs the handler of the last word of that name, under its
effect, and says that a handler is missing only if that handler does; a name with no such word is
offered to the host.  And as long as the host itself only adds words, no job at all finds a handler
missing, and the words that were added stay, with perhaps more after them. -/
theorem vocabulary_in_step (memory : E.Memory) (calls : List (Registration E)) :
    (∀ (call : Registration E) (m : Machine E), (∀ word, ¬call.Adds word) →
      ∃ e : Error, e.kind = .invalidSignature ∧ call.run m = .raised e m) ∧
    ∃ answers added m,
      registerAll calls (.new memory) = .done answers m ∧ Answered calls answers added ∧
      m.handlers.toList = added.map Addition.handler ∧
      (∀ name, (∃ entry, m.dictionary.get? name = some entry) ↔
        ∃ word ∈ added, word.name = name) ∧
      (∀ name entry, m.dictionary.get? name = some entry →
        ∃ i word, Latest added name i word ∧ entry = word.entry i ∧
          m.handlers[i]? = some word.handler) ∧
      ∀ k : Machine E, k.dictionary = m.dictionary → k.handlers = m.handlers →
        (∀ (host : Host E) (engine : Engine E) (name : String), name ≠ untilWord →
          name ≠ collectWord → name.toList.head? ≠ some pathMark →
          (∀ i word, Latest added name i word →
            word.Performed i host engine k (host.performWith engine name k) ∧
            ∀ e k', host.performWith engine name k = .raised e k' → e.cause.LacksHandler →
              ∃ payloads n e' n', word.Calls k payloads n ∧
                host.act engine word.action payloads n = .raised e' n' ∧
                e'.cause.LacksHandler) ∧
          ((∀ word ∈ added, word.name ≠ name) →
            host.performWith engine name k = host.offerUnknown engine name k)) ∧
        ∀ host : Host E, host.Tends → ∀ (job : Job) (fuel : Nat),
          (job.run (host.engine fuel) k).Tended added := by
  refine ⟨fun call m hnone => ?_, ?_⟩
  · rcases call.run_cases m with ⟨word, hadds, -⟩ | ⟨-, hrefused⟩
    · exact absurd hadds (hnone word)
    · exact hrefused
  obtain ⟨answers, added, m, hcalls, hanswered, hm⟩ :=
    Machine.registerAll_answered calls (Machine.learned_new memory)
  rw [List.nil_append] at hm
  refine ⟨answers, added, m, hcalls, hanswered, hm.handlers_eq, hm.exists_entry_iff, ?_, ?_⟩
  · intro name entry hentry
    obtain ⟨i, word, hlatest, rfl⟩ := (hm.get?_iff name entry).mp hentry
    exact ⟨i, word, hlatest, rfl, hm.handler_eq hlatest⟩
  · intro k hdictionary hhandlers
    have hk : k.Learned added := by
      rw [Machine.Learned, hdictionary, hhandlers]
      exact hm
    refine ⟨fun host engine name huntil hcollect hpath => ⟨fun i word hlatest => ?_, ?_⟩, ?_⟩
    · have hperformed := hk.performed host engine huntil hcollect hpath hlatest
      refine ⟨hperformed, fun e k' hraised hlacks => ?_⟩
      rw [hraised] at hperformed
      exact hperformed.of_lacksHandler hlacks
    · exact hk.offered host engine huntil hcollect hpath
    · exact fun host hhost job fuel => job.run_tends (Host.engine_tends hhost fuel) k added hk

/-- A host with one word. -/
def Embedding.teaching : Embedding :=
  { Word := Unit, Hook := Empty, Memory := Unit }

/-- The word gives `dup` another meaning while it runs, and then runs it. -/
def Host.teaching : Host .teaching :=
  { respond := fun _ engine _ => do
      declareWord none "dup ( `any -- )" "" (.builtin .drop)
      engine.perform "dup"
      return .nothing
    offer := fun hook => Empty.elim hook }

theorem Host.teaching_tends : Host.teaching.Tends where
  respond _ _ _ h :=
    tends_bind (tends_register (.declare none "dup ( `any -- )" "" (.builtin .drop))) fun _ =>
      tends_bind (h.perform "dup") fun _ => tends_pure _
  offer hook := Empty.elim hook

/-- A word that duplicates, one of the same name whose declaration breaks off, and the word of the
host. -/
def teachingCalls : List (Registration .teaching) :=
  [.declare none "dup ( `any -- `any `any )" "" (.builtin .dup),
    .declare none "dup ( `any" "" (.builtin .swap),
    .declare none "teach ( -- )" "" (.host ())]

/-- A value is duplicated, and then the word of the host runs. -/
def Machine.taught (m : Machine .teaching) : Outcome .teaching Unit :=
  (Job.executeAll [.word "dup", .word "teach"]).run (Host.teaching.engine 6)
    (m.holding [.int 1] [])

/-- After these calls a name runs the word that was added, not the one that was refused; and the
word of the host gives it the third handler. -/
theorem vocabulary_in_step_taught :
    ∃ answers added m word,
      registerAll teachingCalls (.new ()) = .done answers m ∧
      Answered teachingCalls answers added ∧ Latest added "dup" 0 word ∧
      word.Performed 0 Host.teaching (Host.teaching.engine 1) (m.holding [.int 1] [])
        (Host.teaching.performWith (Host.teaching.engine 1) "dup" (m.holding [.int 1] [])) ∧
      ∃ m', m.taught = .done () m' ∧ m'.Grown added ∧
        (m'.dictionary.get? "dup").map (·.handlerIndex) = some 2 := by
  obtain ⟨-, answers, added, m, hcalls, hanswered, -, -, hentries, hruns⟩ :=
    vocabulary_in_step (E := .teaching) () teachingCalls
  have hfirst : (registerAll teachingCalls (.new ())).machine?.bind (·.dictionary.get? "dup") =
      some { name := "dup", effect := Builtin.dup.effect, handlerIndex := 0 } := by
    decide +kernel
  have hdone : (registerAll teachingCalls (.new ())).machine?.map (·.taught.isDone) =
      some true := by
    decide +kernel
  have hthird : ((registerAll teachingCalls (.new ())).machine?.bind (·.taught.machine?)).map
      (fun m' => (m'.dictionary.get? "dup").map (·.handlerIndex)) = some (some 2) := by
    decide +kernel
  rw [hcalls] at hfirst hdone hthird
  obtain ⟨i, word, hlatest, hentry, -⟩ := hentries "dup" _ hfirst
  obtain rfl : 0 = i := congrArg Entry.handlerIndex hentry
  obtain ⟨hperforms, htends⟩ := hruns (m.holding [.int 1] []) rfl rfl
  obtain ⟨hperformed, -⟩ := hperforms Host.teaching (Host.teaching.engine 1) "dup" (by decide)
    (by decide) (by decide)
  have htended : m.taught.Tended added := htends Host.teaching Host.teaching_tends _ _
  obtain ⟨a, m', hrun⟩ := Outcome.exists_of_isDone (Option.some.inj hdone)
  rw [hrun] at htended
  refine ⟨answers, added, m, word, hcalls, hanswered, hlatest, (hperformed 0 word hlatest).1,
    m', hrun, htended, ?_⟩
  simpa [Outcome.machine?, hrun] using hthird

end Wordstack
