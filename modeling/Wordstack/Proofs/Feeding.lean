import Wordstack.Proofs.Lockstep
import Wordstack.Proofs.Soundness

/-!
# Machines fed with source texts

What a host can make of an interpreter that it gives nothing but source texts.  A run in parallel
with itself keeps a machine in agreement with itself, up to a renaming that admits the words a scan
can find.  So all that the machine reaches is on its heap, and every word among it was scanned.

* `Heap.Reaches`, `Machine.Root`: what a machine reaches.
* `Errand`, `Host.Feeds`: what a host asks for with source texts, and the machines this leads to.
* `Host.Feeds.machines`: such a machine agrees with itself.
* `Host.Feeds.closed`: all that it reaches is on its heap.
* `word_texts_lexical`: the texts of the words that it reaches.
-/

namespace Wordstack

variable {E : Embedding}

/-! ### What a machine reaches -/

/-- What can be reached from some values through the elements of arrays and the fields of scopes. -/
inductive Heap.Reaches (heap : Heap) (roots : Value → Prop) : Value → Prop
  | root {v : Value} (h : roots v) : Reaches heap roots v
  | element {id : ArrayId} {v : Value} (h : Reaches heap roots (.array id))
      (hv : v ∈ heap.items id) : Reaches heap roots v
  | field {id : ScopeId} {key : String} {v : Value} (h : Reaches heap roots (.scope id))
      (hv : (key, v) ∈ (heap.scope id).fields.entries) : Reaches heap roots v

/-- The values from which a machine and its host start: those on the stack, those collected so far,
the scopes that have a name, and what the host was given. -/
inductive Machine.Root (m : Machine E) (given : List Value) : Value → Prop
  | stack {v : Value} (h : v ∈ m.stack) : Root m given v
  | collected {v : Value} {values : List Value} (hvalues : values ∈ m.accumulators)
      (h : v ∈ values) : Root m given v
  | named {name : String} {id : ScopeId} (h : (name, id) ∈ m.registry.entries) :
      Root m given (.scope id)
  | given {v : Value} (h : v ∈ given) : Root m given v

/-- An array or a scope that the value refers to is on the heap. -/
def Value.On (heap : Heap) : Value → Prop
  | array id => id.index < heap.arrays.size
  | scope id => id.index < heap.scopes.size
  | _ => True

/-- All that the machine reaches is on its heap. -/
def Machine.Closed (m : Machine E) : Prop :=
  ∀ v, m.heap.Reaches (m.Root []) v → v.On m.heap

namespace Renaming

variable {ρ : Renaming}

theorem exists_of_mem {α β : Type} {r : α → β → Prop} {xs : List α} {ys : List β}
    (h : List.Forall₂ r xs ys) {x : α} (hx : x ∈ xs) : ∃ y ∈ ys, r x y := by
  induction h with
  | nil => cases hx
  | cons hxy _ ih =>
    rcases List.mem_cons.mp hx with rfl | hx
    · exact ⟨_, List.mem_cons_self, hxy⟩
    · obtain ⟨y, hy, hxy⟩ := ih hx
      exact ⟨y, List.mem_cons_of_mem _ hy, hxy⟩

/-- What a machine reaches agrees with something that the other reaches. -/
theorem Machines.reaches {m m' : Machine E} (hm : ρ.Machines m m') {given given' : List Value}
    (hgiven : List.Forall₂ ρ.Values given given') {v : Value}
    (h : m.heap.Reaches (m.Root given) v) : ∃ v', ρ.Values v v' := by
  induction h with
  | root h =>
    cases h with
    | stack h =>
      obtain ⟨v', -, hv⟩ := exists_of_mem hm.stack h
      exact ⟨v', hv⟩
    | collected hvalues h =>
      obtain ⟨values', -, hrow⟩ := exists_of_mem hm.accumulators hvalues
      obtain ⟨v', -, hv⟩ := exists_of_mem hrow h
      exact ⟨v', hv⟩
    | named h =>
      obtain ⟨entry, -, -, hid⟩ := exists_of_mem hm.registry h
      exact ⟨.scope entry.2, .scope hid⟩
    | given h =>
      obtain ⟨v', -, hv⟩ := exists_of_mem hgiven h
      exact ⟨v', hv⟩
  | element _ hv ih =>
    obtain ⟨_, ⟨⟩⟩ := ih
    next hab =>
      obtain ⟨v', -, hv⟩ := exists_of_mem (hm.heap.items hab) hv
      exact ⟨v', hv⟩
  | field _ hv ih =>
    obtain ⟨_, ⟨⟩⟩ := ih
    next hab =>
      obtain ⟨entry, -, -, hv⟩ := exists_of_mem (hm.heap.contents hab).fields hv
      exact ⟨entry.2, hv⟩

theorem Heaps.on {heap heap' : Heap} (h : ρ.Heaps heap heap') {v v' : Value}
    (hv : ρ.Values v v') : v.On heap := by
  cases hv with
  | array hab => exact (h.array_bound hab).1
  | scope hab => exact (h.scope_bound hab).1
  | _ => trivial

theorem Machines.closed {m m' : Machine E} (hm : ρ.Machines m m') : m.Closed := by
  intro v hv
  obtain ⟨v', hv'⟩ := hm.reaches .nil hv
  exact hm.heap.on hv'

end Renaming

/-! ### Errands -/

/-- What a host may ask for with source texts. -/
inductive Errand where
  /-- Parses and executes a text. -/
  | process (path source : String)
  /-- Parses and executes a text that has no path. -/
  | run (source : String)
  /-- Parses a text and hands out its code. -/
  | parse (path source : String)
  /-- Runs a text and hands out its result. -/
  | returnValue (source : String)
  /-- Gives a parsing word its definition. -/
  | define (name definition : String)

/-- Does an errand, and gives the values handed out. -/
def Errand.exec (engine : Engine E) : Errand → Exec E (List Value)
  | process path source => do
    engine.process path source
    pure []
  | run source => do
    engine.run source
    pure []
  | parse path source => engine.parse path source
  | returnValue source => do
    let value ← engine.returnValue source
    pure [value]
  | define name definition => do
    Exec.modify fun m => { m with parsingWords := m.parsingWords.insert name definition }
    pure []

/-- The values handed out by a computation that succeeded. -/
def Outcome.handed : Outcome E (List Value) → List Value
  | done values _ => values
  | _ => []

/-- The machines that errands done in order lead to, whether they succeed or fail, each with the
values that were handed out on the way. -/
inductive Host.Feeds (host : Host E) (start : Machine E) : Machine E → List Value → Prop
  | nothing : Feeds host start start []
  | next {m m' : Machine E} {given : List Value} {errand : Errand} {fuel : Nat}
      (before : Feeds host start m given)
      (ends : (errand.exec (host.engine fuel) m).machine? = some m') :
      Feeds host start m' ((errand.exec (host.engine fuel) m).handed ++ given)

open Exec Renaming

/-- An errand keeps machines in agreement. -/
theorem Errand.exec_sim (errand : Errand) {engine : Engine E}
    (h : (agreeing E).Engines engine engine) (ρ : Renaming) :
    ρ.Sim Rows (errand.exec engine) (errand.exec engine) := by
  cases errand with
  | process path source => exact sim_bind (h.process path source) fun _ _ _ _ _ => sim_pure .nil
  | run source => exact sim_bind (h.process _ source) fun _ _ _ _ _ => sim_pure .nil
  | parse path source => exact h.parse ρ path source
  | returnValue source =>
    exact sim_bind (sim_bind (h.process _ source) fun _ _ _ _ _ => sim_pop) fun _ _ _ _ hv =>
      sim_pure (.cons hv .nil)
  | define name definition =>
    exact fun m _ hm => .done (.refl ρ m.heap)
      { hm with parsingWords := congrArg (·.insert name definition) hm.parsingWords } .nil

/-! ### New machines -/

/-- The renaming that relates nothing and admits the words that a scan finds. -/
def Renaming.nothing : Renaming :=
  { arrays := fun _ _ => False
    scopes := fun _ _ => False
    words := IsLexical
    lexical := fun _ h => h }

theorem Machine.addBuiltins_eq (m : Machine E) (bs : List Builtin) :
    ∃ dictionary handlers, m.addBuiltins bs = { m with dictionary, handlers } := by
  induction bs generalizing m with
  | nil => exact ⟨m.dictionary, m.handlers, rfl⟩
  | cons b bs ih =>
    obtain ⟨dictionary, handlers, h⟩ := ih (m.addBuiltin b)
    exact ⟨dictionary, handlers, h⟩

/-- A machine that holds no values agrees with itself: there is nothing to relate. -/
theorem Machine.Standard.machines_nothing {m : Machine E} (hm : m.Standard) (hstack : m.stack = [])
    (hregistry : m.registry = .empty) (haccumulators : m.accumulators = []) :
    Renaming.nothing.Machines m m where
  stack := hstack ▸ .nil
  registry := hregistry ▸ .nil
  accumulators := haccumulators ▸ .nil
  calls := rfl
  dictionary := rfl
  handlers := rfl
  hook := rfl
  parsingWords := rfl
  lexers := rfl
  output := rfl
  memory := rfl
  vocabulary := ⟨hm.dictionary, hm.handlers, hm.hook⟩
  heap := ⟨⟨nofun, nofun⟩, ⟨nofun, nofun⟩, nofun, nofun, nofun, nofun⟩

/-- A new machine agrees with itself. -/
theorem Machine.standard_machines (memory : E.Memory) (parsingWords : Table String) :
    Renaming.nothing.Machines { standard memory with parsingWords }
      { standard memory with parsingWords } := by
  obtain ⟨dictionary, handlers, hnew⟩ := addBuiltins_eq (new memory) Builtin.all
  have hstandard := (standard_standard memory).withParsingWords parsingWords
  unfold standard at hstandard ⊢
  rw [hnew] at hstandard ⊢
  exact hstandard.machines_nothing rfl rfl rfl

variable {host : Host E} {start m : Machine E} {given : List Value}

/-- **A machine fed with source texts agrees with itself**, and what was handed out agrees with
itself, too.  Along the errands; one errand done in parallel with itself keeps the agreement. -/
theorem Host.Feeds.machines (h : host.Feeds start m given) {ρ : Renaming}
    (hstart : ρ.Machines start start) :
    ∃ ρ' : Renaming, ρ'.words = ρ.words ∧ ρ'.Machines m m ∧ List.Forall₂ ρ'.Values given given := by
  induction h with
  | nothing => exact ⟨ρ, rfl, hstart, .nil⟩
  | @next m m' given errand fuel _ ends ih =>
    obtain ⟨ρ', hwords, hm, hgiven⟩ := ih
    have hsim := errand.exec_sim (host.engine_agreeing fuel) ρ' m m hm
    cases ho : errand.exec (host.engine fuel) m with
    | exhausted =>
      rw [ho] at ends
      cases ends
    | done values n =>
      rw [ho] at ends hsim
      obtain rfl : n = m' := Option.some.inj ends
      obtain ⟨-⟩ | ⟨advance, machines, result⟩ := hsim
      exact ⟨_, advance.le.words.trans hwords, machines,
        List.rel_append result (forall₂_mono hgiven advance.le)⟩
    | raised e n =>
      rw [ho] at ends hsim
      obtain rfl : n = m' := Option.some.inj ends
      cases hsim with
      | raised _ advance machines =>
        exact ⟨_, advance.le.words.trans hwords, machines, forall₂_mono hgiven advance.le⟩

/-- All that a machine fed with source texts reaches is on its heap. -/
theorem Host.Feeds.closed (h : host.Feeds start m given) {ρ : Renaming}
    (hstart : ρ.Machines start start) : m.Closed := by
  obtain ⟨ρ', -, hm, -⟩ := h.machines hstart
  exact hm.closed

/-- **Words are what a scan can find.** Feed a new machine, with parsing words of any kind, with
any source texts, whether they can be parsed and run or not.  Every word that is then on the
stack, among what parses in progress have collected, or in what was handed out, or that can be
reached from there or from a named scope through arrays and fields, has a text that a scan takes
for a word. -/
theorem word_texts_lexical (host : Host E) (memory : E.Memory) (parsingWords : Table String)
    {m : Machine E} {given : List Value}
    (h : host.Feeds { Machine.standard memory with parsingWords } m given) {text : String}
    (hword : m.heap.Reaches (m.Root given) (.word text)) : IsLexical text := by
  obtain ⟨ρ, hwords, hm, hgiven⟩ := h.machines (Machine.standard_machines memory parsingWords)
  obtain ⟨_, ⟨⟩⟩ := hm.reaches hgiven hword
  next hadmitted =>
    rw [hwords] at hadmitted
    exact hadmitted

/-- A run that breaks off leaves a word on the stack. -/
theorem word_texts_lexical_division :
    ∃ (e : Error) (m : Machine .bare),
      Errand.exec (Host.bare.engine 8) (.run "[ dup ] first 1 0 /")
        { Machine.standard () with parsingWords := Machine.defaultParsingWords } = .raised e m ∧
      e.cause = .divisionByZero ∧ Value.word "dup" ∈ m.stack ∧ IsLexical "dup" := by
  have hcause : ((Errand.run "[ dup ] first 1 0 /").exec (Host.bare.engine 8)
      { Machine.standard () with parsingWords := Machine.defaultParsingWords }).error?.map
        (·.cause) = some .divisionByZero := by
    decide +kernel
  have hstack : ((Errand.run "[ dup ] first 1 0 /").exec (Host.bare.engine 8)
      { Machine.standard () with parsingWords := Machine.defaultParsingWords }).machine?.map
        (fun m => m.stack.map fun v => (v.type, v.text?)) = some [(.word, some "dup")] := by
    decide +kernel
  obtain ⟨e, herror, he⟩ := Option.map_eq_some_iff.mp hcause
  obtain ⟨m, hraised⟩ := Outcome.eq_raised_of_error? herror
  have hfeeds := Host.Feeds.next .nothing (congrArg Outcome.machine? hraised)
  rw [hraised] at hstack hfeeds
  have hvalues : m.stack.map (fun v => (v.type, v.text?)) = [(.word, some "dup")] :=
    Option.some.inj hstack
  have hword : Value.word "dup" ∈ m.stack := by
    obtain ⟨v, hv, htype⟩ : ∃ v ∈ m.stack, (v.type, v.text?) = (.word, some "dup") :=
      List.mem_map.mp (hvalues ▸ List.mem_cons_self)
    cases v <;> simp_all [Value.type, Value.text?]
  exact ⟨e, m, hraised, he, hword,
    word_texts_lexical Host.bare () Machine.defaultParsingWords hfeeds (.root (.stack hword))⟩

end Wordstack
