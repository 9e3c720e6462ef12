import Wordstack.Proofs.Signature

/-!
# Runs that correspond

Most of what is said of runs compares two of them, or a run with itself: what it leaves alone, how
it goes on another machine, with other arrays, or with another engine.  Whatever is parsed, executed
or run is put together from a few operations, so a relation between runs holds of all of them once
it holds of these.  This is shown once, for any relation.

What the two runs agree on may grow as they go on, since values that are made on the way may come to
correspond.  A `World` is what they agree on at one point.

* `Correspondence`: which machines, values and endings correspond; `Correspondence.Sim`:
  computations that do.
* `Correspondence.Composes`, `Correspondence.Closed`: what has to be shown of the operations.
* `Correspondence.Engines`: engines that correspond, with one theorem for each part of parsing,
  executing and running words.
* `Correspondence.Closed.engines`: the induction on the fuel.
-/

namespace Wordstack

variable {E : Embedding} {α β : Type}

open Exec

/-- A way in which two runs may correspond. -/
structure Correspondence (E : Embedding) where
  /-- What the runs agree on at a point. -/
  World : Type
  /-- What is agreed on at a later point. -/
  Later : World → World → Prop
  /-- There is a source text to read from. -/
  Reading : World → Prop
  Values : World → Value → Value → Prop
  Arrays : World → ArrayId → ArrayId → Prop
  /-- The inputs a word may be given. -/
  Inputs : World → Builtin → List Payload → List Payload → Prop
  /-- What a word may hand back. -/
  Outputs : Builtin → World → Returned → Returned → Prop
  Machines : World → Machine E → Machine E → Prop
  /-- How the runs may end, the first of which started with the given machine, with results as
  said. -/
  Ends : {α : Type} → World → Machine E → (World → α → α → Prop) → Outcome E α → Outcome E α → Prop
  /-- The fuel that the second run may have beside that of the first. -/
  Fuel : Nat → Nat → Prop
  /-- What is known of the two engines besides. -/
  Known : Engine E → Engine E → Prop

namespace Correspondence

section Results

variable {W : Type}

/-- Nothing is asked of the results. -/
def Anything : W → α → α → Prop := fun _ _ _ => True

/-- The results are the same. -/
def Same : W → α → α → Prop := fun _ => Eq

/-- Pairs whose parts are related. -/
def Both (R : W → α → α → Prop) (S : W → β → β → Prop) : W → α × β → α × β → Prop :=
  fun w x y => R w x.1 y.1 ∧ S w x.2 y.2

end Results

variable (c : Correspondence E)

/-- The results are rows of values that correspond. -/
def Rows : c.World → List Value → List Value → Prop := fun w => List.Forall₂ (c.Values w)

/-- The value that is collected for a lexeme corresponds to itself. -/
def Literal (w : c.World) (found : Lexeme) : Prop :=
  c.Values w (Value.ofLexeme found).asLiteral (Value.ofLexeme found).asLiteral

/-- Both scans find the same. -/
def Scanned : c.World → Option Scan → Option Scan → Prop :=
  fun w s s' => s = s' ∧ ∀ found, s = some (.lexeme found) → c.Literal w found

/-- Computations that correspond: on machines that do, they end in ways that do. -/
def Sim (w : c.World) (R : c.World → α → α → Prop) (x y : Exec E α) : Prop :=
  ∀ m m', c.Machines w m m' → c.Ends w m R (x m) (y m')

/-- Results are handed on from one computation to the next. -/
structure Composes : Prop where
  pure : ∀ {α : Type} {w : c.World} {R : c.World → α → α → Prop} {a b : α}, R w a b →
    c.Sim w R (pure a) (pure b)
  bind : ∀ {α β : Type} {w : c.World} {R : c.World → α → α → Prop} {S : c.World → β → β → Prop}
    {x y : Exec E α} {f f' : α → Exec E β}, c.Sim w R x y →
    (∀ w' a b, c.Later w w' → R w' a b → c.Sim w' S (f a) (f' b)) →
    c.Sim w S (x >>= f) (y >>= f')
  push : ∀ {w : c.World} {v v' : Value}, c.Values w v v' → c.Sim w Anything (push v) (push v')

/-- Values that correspond are alike in what the parsing and running of words looks at. -/
structure Kinds : Prop where
  later_refl : ∀ w : c.World, c.Later w w
  later_trans : ∀ {w w' w'' : c.World}, c.Later w w' → c.Later w' w'' → c.Later w w''
  reading_mono : ∀ {w w' : c.World}, c.Later w w' → c.Reading w → c.Reading w'
  values_mono : ∀ {w w' : c.World} {v v' : Value}, c.Later w w' → c.Values w v v' →
    c.Values w' v v'
  arrays_mono : ∀ {w w' : c.World} {a b : ArrayId}, c.Later w w' → c.Arrays w a b →
    c.Arrays w' a b
  word_iff : ∀ {w : c.World} {v v' : Value}, c.Values w v v' →
    ∀ name, v = .word name ↔ v' = .word name
  string_iff : ∀ {w : c.World} {v v' : Value}, c.Values w v v' →
    ∀ text, v = .string text ↔ v' = .string text
  array : ∀ {w : c.World} {a b : ArrayId}, c.Arrays w a b → c.Values w (.array a) (.array b)

/-- Machines that look alike to what parses and runs words. -/
structure Views (w : c.World) (m m' : Machine E) : Prop where
  parsingWords : m'.parsingWords = m.parsingWords
  dictionary : m'.dictionary = m.dictionary
  items : ∀ {a b : ArrayId}, c.Arrays w a b →
    List.Forall₂ (c.Values w) (m.heap.items a) (m'.heap.items b)
  shown : ∀ {v v' : Value}, c.Values w v v' → m'.heap.shown v' = m.heap.shown v
  resolve : ∀ path, Option.Rel (c.Values w) (m.registry.resolve m.heap path)
    (m'.registry.resolve m'.heap path)
  lastCollected : Option.Rel (c.Values w) (m.accumulators.head?.bind List.head?)
    (m'.accumulators.head?.bind List.head?)

open Taking in
/-- What the words that run quotations ask for. -/
inductive Asks : {α : Type} → Builtin → Taking α → (c.World → α → α → Prop) → Prop
  | call : Asks .call array c.Arrays
  | choose : Asks .choose (do return (← bool, ← array, ← array))
      (Both Same (Both c.Arrays c.Arrays))
  | times : Asks .times (do return (← int, ← array)) (Both Same c.Arrays)
  | each : Asks .each (do return (← array, ← array)) (Both c.Arrays c.Arrays)
  | map : Asks .map (do return (← array, ← array)) (Both c.Arrays c.Arrays)

/-- **What makes runs correspond.**  A law for each operation that parsing, executing and running
words is put together from. -/
structure Closed : Prop extends c.Composes, c.Kinds where
  views : ∀ {w : c.World} {m m' : Machine E}, c.Machines w m m' → c.Views w m m'
  raise : ∀ {α : Type} {w : c.World} {R : c.World → α → α → Prop} {cause : Cause},
    ¬cause.IsInternal → c.Sim w R (raise cause) (raise cause)
  /-- Without fuel the first run gives up; so does the second, if it has none either. -/
  giveUp : ∀ {α : Type} {w : c.World} {R : c.World → α → α → Prop} {fuel : Nat} {y : Exec E α},
    c.Fuel 0 fuel → (fuel = 0 → y = giveUp) → c.Sim w R giveUp y
  fuel : ∀ {n k : Nat}, c.Fuel (n + 1) k → ∃ l, k = l + 1 ∧ c.Fuel n l
  pop : ∀ {w : c.World}, c.Sim w c.Values pop pop
  newArray : ∀ {w : c.World} {values values' : List Value},
    List.Forall₂ (c.Values w) values values' →
    c.Sim w c.Arrays (newArray values) (newArray values')
  accumulate : ∀ {w : c.World} {v v' : Value}, c.Values w v v' →
    c.Sim w Anything (accumulate v) (accumulate v')
  parseOne : ∀ {w : c.World} {engine engine' : Engine E}, c.Reading w →
    (∀ w' found, c.Literal w' found →
      c.Sim w' Anything (engine.take (.ofLexeme found)) (engine'.take (.ofLexeme found))) →
    c.Sim w Same engine.parseOne engine'.parseOne
  parseSource : ∀ {w : c.World} {engine engine' : Engine E} (path source : String),
    c.Known engine engine' →
    (∀ w', c.Reading w' →
      c.Sim w' Anything (engine.parseAll engine.rounds) (engine'.parseAll engine'.rounds)) →
    c.Sim w c.Rows (engine.parseSource path source) (engine'.parseSource path source)
  parseUntil : ∀ {w : c.World} {engine engine' : Engine E} (delimiter : String),
    c.Known engine engine' →
    (∀ w', c.Reading w' →
      c.Sim w' Anything (engine.collectUntil delimiter engine.rounds)
        (engine'.collectUntil delimiter engine'.rounds)) →
    c.Sim w c.Rows (engine.parseUntil delimiter) (engine'.parseUntil delimiter)
  passive : ∀ {w : c.World} {b : Builtin} {inputs inputs' : List Payload}, b.IsPassive →
    c.Inputs w b inputs inputs' → ∀ engine engine' : Engine E,
    c.Sim w (c.Outputs b) (b.run engine inputs) (b.run engine' inputs')
  clear : ∀ {w : c.World} {inputs inputs' : List Payload}, c.Inputs w .clear inputs inputs' →
    c.Sim w (c.Outputs .clear) (Vocabulary.clear inputs) (Vocabulary.clear inputs')
  arguments : ∀ {α : Type} {w : c.World} {b : Builtin} {taking : Taking α}
    {R : c.World → α → α → Prop} {inputs inputs' : List Payload}, c.Asks b taking R →
    c.Inputs w b inputs inputs' →
    c.Sim w R (arguments taking inputs) (arguments taking inputs')
  nothing : ∀ {w : c.World} {b : Builtin}, b.effect.outputs = [] →
    c.Outputs b w .nothing .nothing
  made : ∀ {w : c.World} {a b : ArrayId}, c.Arrays w a b →
    c.Outputs .map w (.one (.array a)) (.one (.array b))

variable {c} {w : c.World}

/-! ### Operations put together from a few others -/

/-- A look at the machines. -/
theorem sim_machine {R : c.World → α → α → Prop} {k k' : Machine E → Exec E α}
    (hk : ∀ m m', c.Machines w m m' → c.Sim w R (k m) (k' m')) :
    c.Sim w R (machine >>= k) (machine >>= k') :=
  fun m m' hm => hk m m' hm m m' hm

/-- Values that correspond are the same word, or neither is a word. -/
theorem Kinds.word_cases (hc : c.Kinds) {v v' : Value} (h : c.Values w v v') :
    (∃ name, v = .word name ∧ v' = .word name) ∨
      (∀ name, v ≠ .word name) ∧ ∀ name, v' ≠ .word name := by
  by_cases hword : ∃ name, v = .word name
  · obtain ⟨name, rfl⟩ := hword
    exact .inl ⟨name, rfl, (hc.word_iff h name).mp rfl⟩
  · exact .inr ⟨fun name hv => hword ⟨name, hv⟩,
      fun name hv => hword ⟨name, (hc.word_iff h name).mpr hv⟩⟩

/-- Values that correspond are the same string, or neither is a string. -/
theorem Kinds.string_cases (hc : c.Kinds) {v v' : Value} (h : c.Values w v v') :
    (∃ text, v = .string text ∧ v' = .string text) ∨
      (∀ text, v ≠ .string text) ∧ ∀ text, v' ≠ .string text := by
  by_cases hstring : ∃ text, v = .string text
  · obtain ⟨text, rfl⟩ := hstring
    exact .inl ⟨text, rfl, (hc.string_iff h text).mp rfl⟩
  · exact .inr ⟨fun text hv => hstring ⟨text, hv⟩,
      fun text hv => hstring ⟨text, (hc.string_iff h text).mpr hv⟩⟩

/-- More may be said of the results. -/
theorem Composes.imp (hc : c.Composes) {R S : c.World → α → α → Prop} {x y : Exec E α}
    (hx : c.Sim w R x y) (h : ∀ w' a b, R w' a b → S w' a b) : c.Sim w S x y := by
  rw [← bind_pure x, ← bind_pure y]
  exact hc.bind hx fun w' a b _ hab => hc.pure (h w' a b hab)

/-- One lexeme, for runs that correspond in how they scan. -/
theorem Composes.parseOne (hc : c.Composes) {engine engine' : Engine E}
    (hscan : c.Sim w c.Scanned scan scan)
    (hnone : ∀ w', c.Sim w' Same (raise .noSource : Exec E Bool) (raise .noSource))
    (hunclosed : ∀ w' start, c.Sim w' Same
      (throw { cause := .unclosedQuote, location := some start } : Exec E Bool)
      (throw { cause := .unclosedQuote, location := some start }))
    (htake : ∀ w' found, c.Literal w' found →
      c.Sim w' Anything (engine.take (.ofLexeme found)) (engine'.take (.ofLexeme found))) :
    c.Sim w Same engine.parseOne engine'.parseOne := by
  refine hc.bind hscan ?_
  rintro w' scanned _ - ⟨rfl, hfound⟩
  match scanned with
  | none => exact hnone w'
  | some (.unclosed start) => exact hunclosed w' start
  | some .finished => exact hc.pure rfl
  | some (.lexeme found) =>
    exact hc.bind (htake w' found (hfound found rfl)) fun _ _ _ _ _ => hc.pure rfl

/-- Payloads are pushed alike if each of them is made a value, or refused, alike. -/
theorem Composes.pushPayloads (hc : c.Composes) (hkinds : c.Kinds)
    {P : c.World → Payload → Payload → Prop} {slots : List Slot}
    (hmono : ∀ w' w'' p p', c.Later w' w'' → P w' p p' → P w'' p p')
    (hcheck : ∀ w', c.Later w w' → ∀ slot ∈ slots, ∀ p p', P w' p p' →
      ∀ m m', c.Machines w' m m' → c.Sim w' c.Values
        (withContext (ofExcept (p.toValue m.heap slot)))
        (withContext (ofExcept (p'.toValue m'.heap slot))))
    {payloads payloads' : List Payload} (h : List.Forall₂ (P w) payloads payloads') :
    c.Sim w Anything (pushPayloads slots payloads : Exec E Unit)
      (pushPayloads slots payloads') := by
  induction slots generalizing w payloads payloads' with
  | nil => cases h <;> exact hc.pure trivial
  | cons slot slots ih =>
    cases h with
    | nil => exact hc.pure trivial
    | cons hp hrest =>
      intro m m' hm
      have hvalue := hcheck w (hkinds.later_refl w) slot List.mem_cons_self _ _ hp m m' hm
      refine hc.bind hvalue
        (fun w₁ _ _ hle₁ hv => hc.bind (hc.push hv) fun w₂ _ _ hle₂ _ => ?_) m m' hm
      have hle := hkinds.later_trans hle₁ hle₂
      exact ih (fun w' hle' slot hslot => hcheck w' (hkinds.later_trans hle hle') slot
        (List.mem_cons_of_mem _ hslot)) (hrest.imp fun _ _ => hmono _ _ _ _ hle)

open Taking in
/-- What the words that run quotations ask for is what they declare. -/
theorem Asks.reads {b : Builtin} {taking : Taking α} {R : c.World → α → α → Prop}
    (h : c.Asks b taking R) : taking.Reads b.effect.inputs := by
  cases h with
  | call => exact reads_array
  | choose => exact reads_triple reads_bool reads_array reads_array
  | times => exact reads_pair reads_int reads_array
  | each | map => exact reads_pair reads_array reads_array

/-! ### Values that are the same -/

section Equal

variable (hvalues : c.Values = fun _ => Eq) (harrays : c.Arrays = fun _ => Eq)
include hvalues

theorem rows_iff_eq {values values' : List Value} :
    List.Forall₂ (c.Values w) values values' ↔ values = values' := by
  rw [hvalues, List.forall₂_eq_eq_eq]

include harrays

theorem Kinds.of_eq (hrefl : ∀ w : c.World, c.Later w w)
    (htrans : ∀ {w w' w'' : c.World}, c.Later w w' → c.Later w' w'' → c.Later w w'')
    (hreading : ∀ {w w' : c.World}, c.Later w w' → c.Reading w → c.Reading w') : c.Kinds where
  later_refl := hrefl
  later_trans := htrans
  reading_mono := hreading
  values_mono _ h := by simpa only [hvalues] using h
  arrays_mono _ h := by simpa only [harrays] using h
  word_iff h name := by
    rw [hvalues] at h
    rw [h]
  string_iff h text := by
    rw [hvalues] at h
    rw [h]
  array h := by
    rw [harrays] at h
    rw [hvalues, h]

/-- Machines with the same vocabulary, arrays, scopes and parses in progress look alike. -/
theorem Views.of_eq {m m' : Machine E} (hparsing : m'.parsingWords = m.parsingWords)
    (hdictionary : m'.dictionary = m.dictionary) (hheap : m'.heap = m.heap)
    (hregistry : m'.registry = m.registry) (haccumulators : m'.accumulators = m.accumulators) :
    c.Views w m m' := by
  have hself : ∀ o : Option Value, Option.Rel Eq o o := by
    rintro (_ | v)
    · exact .none
    · exact .some rfl
  refine ⟨hparsing, hdictionary, fun {a b} h => ?_, fun {v v'} h => ?_, fun path => ?_, ?_⟩
  · rw [harrays] at h
    rw [hvalues, h, hheap]
    exact List.forall₂_refl _
  · rw [hvalues] at h
    rw [h, hheap]
  · rw [hvalues, hheap, hregistry]
    exact hself _
  · rw [hvalues, haccumulators]
    exact hself _

omit hvalues in
/-- What the words that run quotations ask for is related to itself. -/
theorem Asks.refl {b : Builtin} {taking : Taking α} {R : c.World → α → α → Prop}
    (h : c.Asks b taking R) (w : c.World) (a : α) : R w a a := by
  cases h with
  | call => rw [harrays]
  | choose => exact ⟨rfl, by rw [harrays], by rw [harrays]⟩
  | times => exact ⟨rfl, by rw [harrays]⟩
  | each | map => exact ⟨by rw [harrays], by rw [harrays]⟩

end Equal

/-! ### Engines that correspond -/

end Correspondence

/-- Anything but a word is pushed. -/
theorem Engine.execute_of_ne_word (engine : Engine E) {v : Value} (h : ∀ name, v ≠ .word name) :
    engine.execute v = push v := by
  cases v with
  | word name => exact absurd rfl (h name)
  | _ => rfl

/-- Runs the word of a name, given what runs the words of the dictionary and what is done with a
name that is not in it. -/
def Engine.performing (engine : Engine E) (dispatch : Entry → Exec E Unit) (offer : Exec E Unit)
    (name : String) : Exec E Unit :=
  if name = untilWord then Host.collectSource engine
  else if name = collectWord then Host.collectTop
  else
    match Host.path? name with
    | some path => Host.pushPath path
    | none => do
      match (← machine).dictionary.get? name with
      | some word => dispatch word
      | none => offer

namespace Correspondence

variable {c : Correspondence E} {w : c.World}

/-- Engines whose operations correspond. -/
structure Engines (c : Correspondence E) (engine engine' : Engine E) : Prop where
  closed : c.Closed
  parse : ∀ (w : c.World) path source,
    c.Sim w c.Rows (engine.parse path source) (engine'.parse path source)
  perform : ∀ (w : c.World) name,
    c.Sim w Anything (engine.perform name) (engine'.perform name)
  rounds : c.Fuel engine.rounds engine'.rounds
  known : c.Known engine engine'

namespace Engines

variable {engine engine' : Engine E} (h : c.Engines engine engine')
include h

theorem execute {v v' : Value} (hv : c.Values w v v') :
    c.Sim w Anything (engine.execute v) (engine'.execute v') := by
  rcases h.closed.word_cases hv with ⟨name, rfl, rfl⟩ | ⟨hne, hne'⟩
  · exact h.perform w name
  · rw [engine.execute_of_ne_word hne, engine'.execute_of_ne_word hne']
    exact h.closed.push hv

theorem executeAll {code code' : List Value} (hcode : List.Forall₂ (c.Values w) code code') :
    c.Sim w Anything (engine.executeAll code) (engine'.executeAll code') := by
  induction code generalizing w code' with
  | nil =>
    cases hcode
    exact h.closed.pure trivial
  | cons v code ih =>
    cases hcode with
    | cons hv hrest =>
      exact h.closed.bind (h.execute hv) fun _ _ _ hle _ =>
        ih (hrest.imp fun _ _ => h.closed.values_mono hle)

theorem process (path source : String) :
    c.Sim w Anything (engine.process path source) (engine'.process path source) :=
  h.closed.bind (h.parse w path source) fun _ _ _ _ hcode => h.executeAll hcode

/-! #### Parsing -/

/-- A parsing word runs its definition, and anything else is collected. -/
theorem take {found : Lexeme} (hfound : c.Literal w found) :
    c.Sim w Anything (engine.take (.ofLexeme found)) (engine'.take (.ofLexeme found)) := by
  have hcollect : c.Sim w Anything (accumulate (Value.ofLexeme found).asLiteral)
      (accumulate (Value.ofLexeme found).asLiteral) := h.closed.accumulate hfound
  refine sim_machine fun m m' hm => ?_
  rw [(h.closed.views hm).parsingWords]
  cases hvalue : Value.ofLexeme found with
  | word name =>
    dsimp only
    cases m.parsingWords.get? name with
    | some definition =>
      exact h.closed.bind (h.parse w _ _) fun _ _ _ _ hcode => h.executeAll hcode
    | none =>
      rw [hvalue] at hcollect
      exact hcollect
  | _ =>
    rw [hvalue] at hcollect
    exact hcollect

theorem parseOne (hw : c.Reading w) : c.Sim w Same engine.parseOne engine'.parseOne :=
  h.closed.parseOne hw fun _ _ hfound => h.take hfound

/-- By induction on the fuel of the first run. -/
theorem parseAll (hw : c.Reading w) {rounds rounds' : Nat} (hrounds : c.Fuel rounds rounds') :
    c.Sim w Anything (engine.parseAll rounds) (engine'.parseAll rounds') := by
  induction rounds generalizing w rounds' with
  | zero =>
    refine h.closed.giveUp hrounds ?_
    rintro rfl
    rfl
  | succ rounds ih =>
    obtain ⟨more, rfl, hless⟩ := h.closed.fuel hrounds
    refine h.closed.bind (h.parseOne hw) ?_
    rintro w' goesOn _ hle rfl
    cases goesOn with
    | true => exact ih (h.closed.reading_mono hle hw) hless
    | false => exact h.closed.pure trivial

theorem parseSource (path source : String) :
    c.Sim w c.Rows (engine.parseSource path source) (engine'.parseSource path source) :=
  h.closed.parseSource path source h.known fun _ hw => h.parseAll hw h.rounds

omit h in
theorem sim_lastCollected (hc : c.Closed) :
    c.Sim w (fun w => Option.Rel (c.Values w)) lastCollected lastCollected :=
  sim_machine fun _ _ hm => hc.pure (hc.views hm).lastCollected

/-- By induction on the fuel of the first run. -/
theorem collectUntil (delimiter : String) (hw : c.Reading w) {rounds rounds' : Nat}
    (hrounds : c.Fuel rounds rounds') :
    c.Sim w Anything (engine.collectUntil delimiter rounds)
      (engine'.collectUntil delimiter rounds') := by
  induction rounds generalizing w rounds' with
  | zero =>
    refine h.closed.giveUp hrounds ?_
    rintro rfl
    rfl
  | succ rounds ih =>
    obtain ⟨more, rfl, hless⟩ := h.closed.fuel hrounds
    refine h.closed.bind (h.parseOne hw) ?_
    rintro w₁ goesOn _ hle₁ rfl
    cases goesOn with
    | false => exact h.closed.raise not_false
    | true =>
      refine h.closed.bind (sim_lastCollected h.closed) fun w₂ last last' hle₂ hlast => ?_
      have hnext := ih (h.closed.reading_mono hle₂ (h.closed.reading_mono hle₁ hw)) hless
      -- only a word can be the delimiter, and a word corresponds to itself alone
      cases hlast with
      | none => exact hnext
      | @some v v' hv =>
        rcases h.closed.word_cases hv with ⟨name, rfl, rfl⟩ | ⟨hne, hne'⟩
        · dsimp only
          split
          · exact h.closed.pure trivial
          · exact hnext
        · cases v with
          | word name => exact absurd rfl (hne name)
          | _ =>
            cases v' with
            | word name => exact absurd rfl (hne' name)
            | _ => exact hnext

theorem parseUntil (delimiter : String) :
    c.Sim w c.Rows (engine.parseUntil delimiter) (engine'.parseUntil delimiter) :=
  h.closed.parseUntil delimiter h.known fun _ hw => h.collectUntil delimiter hw h.rounds

/-! #### The words that run quotations -/

omit h in
theorem sim_items (hc : c.Closed) {a b : ArrayId} (hab : c.Arrays w a b) :
    c.Sim w c.Rows (items a) (items b) :=
  sim_machine fun _ _ hm => hc.pure ((hc.views hm).items hab)

theorem runQuotation {a b : ArrayId} (hab : c.Arrays w a b) :
    c.Sim w Anything (Vocabulary.runQuotation engine a) (Vocabulary.runQuotation engine' b) :=
  h.closed.bind (sim_items h.closed hab) fun _ _ _ _ hcode => h.executeAll hcode

theorem repeatQuotation {a b : ArrayId} (hab : c.Arrays w a b) (n : Nat) :
    c.Sim w Anything (Vocabulary.repeatQuotation engine a n)
      (Vocabulary.repeatQuotation engine' b n) := by
  induction n generalizing w with
  | zero => exact h.closed.pure trivial
  | succ n ih =>
    exact h.closed.bind (h.runQuotation hab) fun _ _ _ hle _ => ih (h.closed.arrays_mono hle hab)

theorem runOnEach {a b : ArrayId} (hab : c.Arrays w a b) {values values' : List Value}
    (hvalues : List.Forall₂ (c.Values w) values values') :
    c.Sim w Anything (Vocabulary.runOnEach engine a values)
      (Vocabulary.runOnEach engine' b values') := by
  induction values generalizing w values' with
  | nil =>
    cases hvalues
    exact h.closed.pure trivial
  | cons v values ih =>
    cases hvalues with
    | cons hv hrest =>
      refine h.closed.bind (h.closed.push hv) fun w₁ _ _ hle₁ _ =>
        h.closed.bind (h.runQuotation (h.closed.arrays_mono hle₁ hab)) fun w₂ _ _ hle₂ _ => ?_
      have hle := h.closed.later_trans hle₁ hle₂
      exact ih (h.closed.arrays_mono hle hab)
        (hrest.imp fun _ _ => h.closed.values_mono hle)

theorem collectOnEach {a b : ArrayId} (hab : c.Arrays w a b) {values values' : List Value}
    (hvalues : List.Forall₂ (c.Values w) values values') :
    c.Sim w c.Rows (Vocabulary.collectOnEach engine a values)
      (Vocabulary.collectOnEach engine' b values') := by
  induction values generalizing w values' with
  | nil =>
    cases hvalues
    exact h.closed.pure .nil
  | cons v values ih =>
    cases hvalues with
    | cons hv hrest =>
      refine h.closed.bind (h.closed.push hv) fun w₁ _ _ hle₁ _ =>
        h.closed.bind (h.runQuotation (h.closed.arrays_mono hle₁ hab)) fun w₂ _ _ hle₂ _ =>
          h.closed.bind h.closed.pop fun w₃ _ _ hle₃ hresult => ?_
      have hle := h.closed.later_trans (h.closed.later_trans hle₁ hle₂) hle₃
      exact h.closed.bind
        (ih (h.closed.arrays_mono hle hab) (hrest.imp fun _ _ => h.closed.values_mono hle))
        fun _ _ _ hle₄ hresults =>
          h.closed.pure (.cons (h.closed.values_mono hle₄ hresult) hresults)

/-- **Words of the language correspond**, by their laws, and for those that run quotations by what
is known of running code. -/
theorem run (b : Builtin) {inputs inputs' : List Payload}
    (hinputs : c.Inputs w b inputs inputs') :
    c.Sim w (c.Outputs b) (b.run engine inputs) (b.run engine' inputs') := by
  have hc := h.closed
  cases b with
  | clear => exact hc.clear hinputs
  | call =>
    exact hc.bind (hc.arguments .call hinputs) fun _ _ _ _ hab =>
      hc.bind (h.runQuotation hab) fun _ _ _ _ _ => hc.pure (hc.nothing rfl)
  | choose =>
    refine hc.bind (hc.arguments .choose hinputs) ?_
    rintro w' ⟨flag, yes, no⟩ ⟨_, yes', no'⟩ - ⟨rfl, hyes, hno⟩
    have hchosen : c.Arrays w' (if flag then yes else no) (if flag then yes' else no') := by
      split
      · exact hyes
      · exact hno
    exact hc.bind (h.runQuotation hchosen) fun _ _ _ _ _ => hc.pure (hc.nothing rfl)
  | times =>
    refine hc.bind (hc.arguments .times hinputs) ?_
    rintro w' ⟨n, a⟩ ⟨_, a'⟩ - ⟨rfl, hab⟩
    exact hc.bind (h.repeatQuotation hab _) fun _ _ _ _ _ => hc.pure (hc.nothing rfl)
  | each =>
    refine hc.bind (hc.arguments .each hinputs) ?_
    rintro w' ⟨id, a⟩ ⟨id', a'⟩ - ⟨hid, hab⟩
    exact hc.bind (sim_items hc hid) fun _ _ _ hle hvalues =>
      hc.bind (h.runOnEach (hc.arrays_mono hle hab) hvalues) fun _ _ _ _ _ =>
        hc.pure (hc.nothing rfl)
  | map =>
    refine hc.bind (hc.arguments .map hinputs) ?_
    rintro w' ⟨id, a⟩ ⟨id', a'⟩ - ⟨hid, hab⟩
    exact hc.bind (sim_items hc hid) fun _ _ _ hle hvalues =>
      hc.bind (h.collectOnEach (hc.arrays_mono hle hab) hvalues) fun _ _ _ _ hresults =>
        hc.bind (hc.newArray hresults) fun _ _ _ _ hmade => hc.pure (hc.made hmade)
  | _ => exact hc.passive (by trivial) hinputs engine engine'

/-! #### Running words -/

omit h in
theorem sim_popString (hc : c.Closed) : c.Sim w Same popString popString := by
  refine hc.bind hc.pop fun w' v v' _ hv => ?_
  rcases hc.string_cases hv with ⟨text, rfl, rfl⟩ | ⟨hne, hne'⟩
  · exact hc.pure rfl
  · have hother : c.Sim w' (Same (α := String))
        (machine >>= fun m => raise (.notString (m.heap.shown v)))
        (machine >>= fun m => raise (.notString (m.heap.shown v'))) := by
      refine sim_machine fun m m' hm => ?_
      rw [(hc.views hm).shown hv]
      exact hc.raise not_false
    cases v with
    | string text => exact absurd rfl (hne text)
    | _ =>
      cases v' with
      | string text => exact absurd rfl (hne' text)
      | _ => exact hother

theorem collectSource :
    c.Sim w Anything (Host.collectSource engine) (Host.collectSource engine') := by
  refine h.closed.bind (sim_popString h.closed) ?_
  rintro w' delimiter _ - rfl
  exact h.closed.bind (h.parseUntil delimiter) fun _ _ _ _ hcollected =>
    h.closed.bind (h.closed.newArray hcollected) fun _ _ _ _ hmade =>
      h.closed.push (h.closed.array hmade)

omit h in
theorem sim_pushPath (hc : c.Closed) (path : String) :
    c.Sim w Anything (Host.pushPath path) (Host.pushPath path) := by
  refine sim_machine fun m m' hm => ?_
  have hresolve := (hc.views hm).resolve path
  generalize m.registry.resolve m.heap path = x at hresolve ⊢
  generalize m'.registry.resolve m'.heap path = y at hresolve ⊢
  cases hresolve with
  | none => exact hc.raise not_false
  | some hv => exact hc.push hv

/-- **What runs under a name corresponds**, if this is so of the words of the dictionary and of what
is done with names that are not in it. -/
theorem performing {name : String} {dispatch dispatch' : Entry → Exec E Unit}
    {offer offer' : Exec E Unit}
    (hdispatch : ∀ m m' word, c.Machines w m m' → m.dictionary.get? name = some word →
      c.Ends w m Anything (dispatch word m) (dispatch' word m'))
    (hoffer : ∀ m m', c.Machines w m m' → c.Ends w m Anything (offer m) (offer' m')) :
    c.Sim w Anything (engine.performing dispatch offer name)
      (engine'.performing dispatch' offer' name) := by
  unfold Engine.performing
  split
  · exact h.collectSource
  split
  · exact h.closed.bind h.closed.pop fun _ _ _ _ hv => h.closed.accumulate hv
  cases Host.path? name with
  | some path => exact sim_pushPath h.closed path
  | none =>
    intro m m' hm
    dsimp only
    rw [machine_bind, machine_bind, (h.closed.views hm).dictionary]
    cases hword : m.dictionary.get? name with
    | some word => exact hdispatch m m' word hm hword
    | none => exact hoffer m m' hm

end Engines

end Correspondence

/-! ### Fuel -/

/-- Engines with more and more fuel.  The first gives up, and each of the others parses by what the
one before it does. -/
structure Engine.Tower (engines : Nat → Engine E) : Prop where
  rounds : ∀ fuel, (engines fuel).rounds = fuel
  parse_zero : (engines 0).parse = fun _ _ => giveUp
  perform_zero : (engines 0).perform = fun _ => giveUp
  parse_succ : ∀ fuel, (engines (fuel + 1)).parse = (engines fuel).parseSource

theorem Host.engine_tower (host : Host E) : Engine.Tower host.engine where
  rounds fuel := by
    cases fuel with
    | zero => rfl
    | succ fuel => rfl
  parse_zero := rfl
  perform_zero := rfl
  parse_succ _ := rfl

namespace Correspondence

variable {c : Correspondence E}

/-- **Engines correspond, whatever their fuel**, if a name runs in ways that correspond as soon as
the engines below do.  By induction on the fuel of the first. -/
theorem Closed.engines (hc : c.Closed) {engines engines' : Nat → Engine E}
    (htower : Engine.Tower engines) (htower' : Engine.Tower engines')
    (hknown : ∀ n k, c.Known (engines n) (engines' k))
    (hperform : ∀ n k, c.Fuel n k → c.Engines (engines n) (engines' k) → ∀ (w : c.World) name,
      c.Sim w Anything ((engines (n + 1)).perform name) ((engines' (k + 1)).perform name))
    {n k : Nat} (hfuel : c.Fuel n k) : c.Engines (engines n) (engines' k) := by
  induction n generalizing k with
  | zero =>
    have hrounds : c.Fuel (engines 0).rounds (engines' k).rounds := by
      rw [htower.rounds, htower'.rounds]
      exact hfuel
    refine ⟨hc, fun w path source => ?_, fun w name => ?_, hrounds, hknown _ _⟩
    · rw [htower.parse_zero]
      refine hc.giveUp hfuel ?_
      rintro rfl
      rw [htower'.parse_zero]
    · rw [htower.perform_zero]
      refine hc.giveUp hfuel ?_
      rintro rfl
      rw [htower'.perform_zero]
  | succ n ih =>
    have hrounds : c.Fuel (engines (n + 1)).rounds (engines' k).rounds := by
      rw [htower.rounds, htower'.rounds]
      exact hfuel
    obtain ⟨k, rfl, hless⟩ := hc.fuel hfuel
    refine ⟨hc, fun w path source => ?_, hperform n k hless (ih hless), hrounds, hknown _ _⟩
    rw [htower.parse_succ, htower'.parse_succ]
    exact (ih hless).parseSource path source

end Correspondence

end Wordstack
