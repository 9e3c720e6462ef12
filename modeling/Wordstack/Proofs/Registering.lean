import Wordstack.Proofs.Contract
import Wordstack.Proofs.Declaring

/-!
# Adding words

Handlers are appended and never taken away, while an entry of the dictionary gives way to the next
one of its name.  The two stay in step: whatever words were added, and however many calls to add one
were refused, a name leads to what was said of it last, and the entry points at the handler that
came with it.

* `Addition`, `Registration`: a word that is added, and a call that is to add one.
* `Latest`: the last word of a name among those that were added, and its position.
* `InStep`: dictionary and handlers, by the words that were added; `Learned.register` is the step.
* `Machine.registerAll_answered`: any calls, one after another.
* `Learned.performed`: what runs under a name.
-/

namespace Wordstack

variable {E : Embedding}

/-! ### Calls that add a word -/

/-- A word that is added: all that its host says of it. -/
structure Addition (E : Embedding) where
  name : String
  effect : StackEffect
  description : String
  location : Option Location
  action : Action E

namespace Addition

/-- The entry of the word, given the position of its handler. -/
def entry (word : Addition E) (handlerIndex : Nat) : Entry :=
  { name := word.name, effect := word.effect, description := word.description
    location := word.location, handlerIndex }

/-- The handler of the word. -/
def handler (word : Addition E) : Handler E :=
  { name := word.name, location := word.location, action := word.action }

end Addition

/-- A call of a host that is to add a word. -/
inductive Registration (E : Embedding) where
  /-- By its declaration. -/
  | declare (location : Option Location) (declaration description : String) (action : Action E)
  /-- By its stack effect. -/
  | add (word : Addition E)

/-- Adds a word with all that is said of it. -/
def Machine.register (m : Machine E) (word : Addition E) : Machine E :=
  m.addWord word.location word.name word.effect word.description word.action

namespace Registration

/-- Makes the call. -/
def run : Registration E → Exec E Unit
  | declare location declaration description action =>
    Exec.declareWord location declaration description action
  | add word => Exec.modify (·.register word)

/-- The word that a call adds: the one it is given, or the one that its declaration spells. -/
inductive Adds : Registration E → Addition E → Prop
  | declare {location : Option Location} {declaration description : String} {action : Action E}
      {d : Declaration} (spells : Declaration.Spells (Declaration.parts declaration) d) :
      Adds (.declare location declaration description action)
        { name := d.name, effect := d.effect, description, location, action }
  | add (word : Addition E) : Adds (.add word) word

/-- A call adds a word and succeeds, or it adds none, fails, and has changed nothing. -/
theorem run_cases (call : Registration E) (m : Machine E) :
    (∃ word, call.Adds word ∧ call.run m = .done () (m.register word)) ∨
    ((∀ word, ¬call.Adds word) ∧
      ∃ e : Error, e.kind = .invalidSignature ∧ call.run m = .raised e m) := by
  cases call with
  | add word => exact .inl ⟨word, .add word, rfl⟩
  | declare location declaration description action =>
    by_cases hspells : ∃ d, Declaration.Spells (Declaration.parts declaration) d
    · obtain ⟨d, hd⟩ := hspells
      refine .inl ⟨_, .declare hd, ?_⟩
      rw [run, Exec.declareWord, Machine.declareWord, Declaration.ofText_eq_ok.mpr hd]
      rfl
    · obtain ⟨fault, -, hrefused⟩ := Declaration.exists_fault (E := E) hspells
      refine .inr ⟨?_, _, rfl, hrefused m location description action⟩
      rintro word ⟨hd⟩
      exact hspells ⟨_, hd⟩

end Registration

/-- What calls made in order are answered, and the words that they add. -/
inductive Answered : List (Registration E) → List (Except Error Unit) → List (Addition E) → Prop
  | nil : Answered [] [] []
  | accepted {call : Registration E} {word : Addition E} {calls : List (Registration E)}
      {answers : List (Except Error Unit)} {added : List (Addition E)} (adds : call.Adds word)
      (later : Answered calls answers added) :
      Answered (call :: calls) (.ok () :: answers) (word :: added)
  | rejected {call : Registration E} {e : Error} {calls : List (Registration E)}
      {answers : List (Except Error Unit)} {added : List (Addition E)}
      (adds : ∀ word, ¬call.Adds word) (kind : e.kind = .invalidSignature)
      (later : Answered calls answers added) :
      Answered (call :: calls) (.error e :: answers) added

/-- Makes calls in order, whatever the answers, which are the host's. -/
def Exec.registerAll : List (Registration E) → Exec E (List (Except Error Unit))
  | [] => pure []
  | call :: calls => do
    let answer ← attempt call.run
    let answers ← registerAll calls
    return answer :: answers

/-! ### The last word of a name -/

/-- Among the words added, the last one of a name, and its position. -/
structure Latest (added : List (Addition E)) (name : String) (i : Nat) (word : Addition E) :
    Prop where
  place : added[i]? = some word
  name_eq : word.name = name
  last : ∀ j later, i < j → added[j]? = some later → later.name ≠ name

section Latest

variable {added : List (Addition E)} {name : String} {i : Nat} {word : Addition E}

theorem Latest.lt (h : Latest added name i word) : i < added.length :=
  (List.getElem?_eq_some_iff.mp h.place).1

theorem latest_concat_self (added : List (Addition E)) (word : Addition E) :
    Latest (added ++ [word]) word.name added.length word := by
  refine ⟨List.getElem?_concat_length, rfl, fun j later hj hlater => ?_⟩
  have hlt := (List.getElem?_eq_some_iff.mp hlater).1
  rw [List.length_append, List.length_singleton] at hlt
  omega

/-- Two words that are both the last one of a name are one. -/
theorem Latest.unique {j : Nat} {other : Addition E} (h : Latest added name i word)
    (h' : Latest added name j other) : i = j ∧ word = other := by
  have hij : i = j := by
    rcases Nat.lt_trichotomy i j with hlt | heq | hgt
    · exact absurd h'.name_eq (h.last j other hlt h'.place)
    · exact heq
    · exact absurd h.name_eq (h'.last i word hgt h.place)
  subst hij
  exact ⟨rfl, Option.some.inj (h.place.symm.trans h'.place)⟩

/-- A word that is added hides those of its name, and no others. -/
theorem latest_concat_of_ne {new : Addition E} (hname : name ≠ new.name) :
    Latest (added ++ [new]) name i word ↔ Latest added name i word := by
  constructor
  · intro h
    -- the last place is that of the new word, which has another name
    have hlt : i < added.length := by
      have hlt := h.lt
      rw [List.length_append, List.length_singleton] at hlt
      have hne : i ≠ added.length := by
        rintro rfl
        have hnew : new = word := by simpa using h.place
        exact hname (hnew ▸ h.name_eq.symm)
      omega
    refine ⟨List.getElem?_append_left hlt ▸ h.place, h.name_eq, fun j later hj hlater => ?_⟩
    have hjlt := (List.getElem?_eq_some_iff.mp hlater).1
    exact h.last j later hj ((List.getElem?_append_left hjlt).trans hlater)
  · intro h
    refine ⟨(List.getElem?_append_left h.lt).trans h.place, h.name_eq, fun j later hj hlater => ?_⟩
    by_cases hjlt : j < added.length
    · exact h.last j later hj (List.getElem?_append_left hjlt ▸ hlater)
    · have hlater' : later = new := by
        rw [List.getElem?_append_right (Nat.le_of_not_lt hjlt)] at hlater
        exact List.mem_singleton.mp (List.mem_of_getElem? hlater)
      exact hlater' ▸ hname.symm

/-- Every name that was added has a last word. -/
theorem exists_latest_iff :
    (∃ i word, Latest added name i word) ↔ ∃ word ∈ added, word.name = name := by
  constructor
  · rintro ⟨i, word, h⟩
    exact ⟨word, List.mem_of_getElem? h.place, h.name_eq⟩
  · rintro ⟨word, hword, hname⟩
    induction added using List.reverseRecOn with
    | nil => cases hword
    | append_singleton added new ih =>
      by_cases hnew : name = new.name
      · exact hnew ▸ ⟨added.length, new, latest_concat_self added new⟩
      · have hold : word ∈ added := by
          rcases List.mem_append.mp hword with h | h
          · exact h
          · exact absurd (List.mem_singleton.mp h ▸ hname.symm) hnew
        obtain ⟨i, last, hlast⟩ := ih hold
        exact ⟨i, last, (latest_concat_of_ne hnew).mpr hlast⟩

end Latest

/-! ### Dictionary and handlers -/

/-- A dictionary and a list of handlers are those of the words that were added: there is one handler
for each of the words, in order, and a name leads to the entry of the last word of that name. -/
structure InStep (added : List (Addition E)) (dictionary : Dictionary)
    (handlers : Array (Handler E)) : Prop where
  handlers_eq : handlers.toList = added.map Addition.handler
  get?_iff : ∀ name entry, dictionary.get? name = some entry ↔
    ∃ i word, Latest added name i word ∧ entry = word.entry i

namespace Machine

/-- The words of the machine are those that were added. -/
def Learned (m : Machine E) (added : List (Addition E)) : Prop :=
  InStep added m.dictionary m.handlers

variable {m : Machine E} {added : List (Addition E)}

theorem learned_new (memory : E.Memory) : (new memory : Machine E).Learned [] where
  handlers_eq := rfl
  get?_iff name entry := by
    refine ⟨fun h => (nomatch h), ?_⟩
    rintro ⟨i, word, hlatest, -⟩
    exact absurd hlatest.lt (Nat.not_lt_zero i)

namespace Learned

theorem size_handlers (h : m.Learned added) : m.handlers.size = added.length := by
  rw [← Array.length_toList, h.handlers_eq, List.length_map]

/-- **Adding a word keeps dictionary and handlers in step.**  The new handler is the last one, and
its position is the one that the new entry points at. -/
theorem register (h : m.Learned added) (word : Addition E) :
    (m.register word).Learned (added ++ [word]) where
  handlers_eq := by
    rw [List.map_append, ← h.handlers_eq]
    exact Array.toList_push
  get?_iff name entry := by
    -- the entry of the name is replaced, and every other name leads where it led
    by_cases hname : name = word.name
    · subst hname
      have hget : (m.register word).dictionary.get? word.name = some (word.entry added.length) := by
        rw [← h.size_handlers]
        exact Table.get?_insert_self _ _ _
      rw [hget]
      constructor
      · intro hentry
        exact ⟨_, word, latest_concat_self added word, (Option.some.inj hentry).symm⟩
      · rintro ⟨i, other, hlatest, rfl⟩
        obtain ⟨rfl, rfl⟩ := hlatest.unique (latest_concat_self added word)
        rfl
    · have hget : (m.register word).dictionary.get? name = m.dictionary.get? name :=
        Table.get?_insert_of_ne hname _ _
      rw [hget, h.get?_iff]
      simp only [latest_concat_of_ne hname]

/-- The handler that an entry points at came with the word. -/
theorem handler_eq (h : m.Learned added) {name : String} {i : Nat} {word : Addition E}
    (hlatest : Latest added name i word) : m.handlers[i]? = some word.handler := by
  rw [← Array.getElem?_toList, h.handlers_eq, List.getElem?_map, hlatest.place]
  rfl

theorem get?_eq (h : m.Learned added) {name : String} {i : Nat} {word : Addition E}
    (hlatest : Latest added name i word) : m.dictionary.get? name = some (word.entry i) :=
  (h.get?_iff name _).mpr ⟨i, word, hlatest, rfl⟩

/-- A name is known if it was added. -/
theorem exists_entry_iff (h : m.Learned added) (name : String) :
    (∃ entry, m.dictionary.get? name = some entry) ↔ ∃ word ∈ added, word.name = name := by
  rw [← exists_latest_iff]
  constructor
  · rintro ⟨entry, hentry⟩
    obtain ⟨i, word, hlatest, -⟩ := (h.get?_iff name entry).mp hentry
    exact ⟨i, word, hlatest⟩
  · rintro ⟨i, word, hlatest⟩
    exact ⟨_, h.get?_eq hlatest⟩

end Learned

/-- **Any calls keep dictionary and handlers in step**, with the words that they add. -/
theorem registerAll_answered (calls : List (Registration E)) (h : m.Learned added) :
    ∃ answers new m', Exec.registerAll calls m = .done answers m' ∧ Answered calls answers new ∧
      m'.Learned (added ++ new) := by
  -- along the calls; a call adds its word after those there are, or leaves the machine as it was
  induction calls generalizing m added with
  | nil => exact ⟨[], [], m, rfl, .nil, by rwa [List.append_nil]⟩
  | cons call calls ih =>
    rcases call.run_cases m with ⟨word, hadds, hrun⟩ | ⟨hnone, e, hkind, hrun⟩
    · obtain ⟨answers, new, m', hcalls, hanswered, hm'⟩ := ih (h.register word)
      refine ⟨_, word :: new, m', ?_, .accepted hadds hanswered, by simpa using hm'⟩
      rw [Exec.registerAll, Exec.bind_of_done (a := .ok ()) (by rw [Exec.attempt, hrun]),
        Exec.bind_of_done hcalls]
      rfl
    · obtain ⟨answers, new, m', hcalls, hanswered, hm'⟩ := ih h
      refine ⟨_, new, m', ?_, .rejected hnone hkind hanswered, hm'⟩
      rw [Exec.registerAll, Exec.bind_of_done (a := .error e) (by rw [Exec.attempt, hrun]),
        Exec.bind_of_done hcalls]
      rfl

end Machine

/-! ### What runs under a name -/

namespace Host

theorem path?_eq_none {name : String} (h : name.toList.head? ≠ some pathMark) :
    path? name = none := by
  unfold path?
  split
  · next c path hname =>
    rw [hname, List.head?_cons] at h
    exact if_neg fun hc => h (congrArg some hc)
  · rfl

/-- A name that neither collects nor is a scope path is looked up. -/
theorem performWith_of_word (host : Host E) (engine : Engine E) {name : String}
    (huntil : name ≠ untilWord) (hcollect : name ≠ collectWord)
    (hpath : name.toList.head? ≠ some pathMark) (m : Machine E) :
    host.performWith engine name m =
      match m.dictionary.get? name with
      | some word => host.dispatchWith engine word m
      | none => host.offerUnknown engine name m := by
  unfold performWith
  rw [if_neg huntil, if_neg hcollect, path?_eq_none hpath]
  dsimp only
  rw [Exec.machine_bind]
  cases m.dictionary.get? name <;> rfl

end Host

/-- What the handler of a word is called on: the inputs, as the slots pass them, and the machine
without them, with the word among the running ones. -/
inductive Addition.Calls (word : Addition E) (m : Machine E) : List Payload → Machine E → Prop
  | fit {values rest : List Value} {payloads : List Payload}
      (stack : m.stack = values.reverse ++ rest)
      (handed : Handed word.effect.inputs values payloads) :
      Calls word m payloads (Machine.entering word.name { m with stack := rest })

/-- How running a word may end, from what was said of it when it was added: its inputs do not fit,
and nothing has happened; or its own handler is called once, and the rest is how a word of its
effect ends. -/
inductive Addition.Performed (word : Addition E) (i : Nat) (host : Host E) (engine : Engine E)
    (m : Machine E) : Outcome E Unit → Prop
  | refused {e : Error} (unfit : ¬word.effect.Fits m.stack)
      (kind : e.kind =
        if m.stack.length < word.effect.inputs.length then .stackUnderflow else .typeMismatch) :
      Performed word i host engine m (.raised e m)
  | called {payloads : List Payload} {n : Machine E} (calls : word.Calls m payloads n) :
      Performed word i host engine m
        ((word.entry i).finish (host.act engine word.action payloads n))

theorem Host.dispatchWith_performed (host : Host E) (engine : Engine E) {m : Machine E}
    {word : Addition E} {i : Nat} (hhandler : m.handlers[i]? = some word.handler) :
    word.Performed i host engine m (host.dispatchWith engine (word.entry i) m) := by
  have hentry : m.handlers[(word.entry i).handlerIndex]? = some word.handler := hhandler
  by_cases hfits : word.effect.Fits m.stack
  · have hfits' : (word.entry i).effect.Fits m.stack := hfits
    rw [host.dispatchWith_of_taken engine hentry (takeInputs_of_fits hfits')]
    refine .called (.fit ?_ (handed_zipWith hfits))
    rw [List.reverse_reverse]
    exact (List.take_append_drop _ _).symm
  · have hunfit : ¬(word.entry i).effect.Fits m.stack := hfits
    obtain ⟨e, hkind, htake⟩ := takeInputs_of_unfit hunfit
    rw [dispatchWith, Exec.machine_bind, hentry]
    dsimp only
    rw [Exec.bind_of_raised htake]
    exact .refused hfits hkind

namespace Machine.Learned

variable {m : Machine E} {added : List (Addition E)} {name : String}

/-- **What runs under a name is the word that was added last.** -/
theorem performed (h : m.Learned added) (host : Host E) (engine : Engine E)
    (huntil : name ≠ untilWord) (hcollect : name ≠ collectWord)
    (hpath : name.toList.head? ≠ some pathMark) {i : Nat} {word : Addition E}
    (hlatest : Latest added name i word) :
    word.Performed i host engine m (host.performWith engine name m) := by
  rw [host.performWith_of_word engine huntil hcollect hpath, h.get?_eq hlatest]
  exact host.dispatchWith_performed engine (h.handler_eq hlatest)

/-- A name that was never added is offered to the host. -/
theorem offered (h : m.Learned added) (host : Host E) (engine : Engine E)
    (huntil : name ≠ untilWord) (hcollect : name ≠ collectWord)
    (hpath : name.toList.head? ≠ some pathMark) (hnone : ∀ word ∈ added, word.name ≠ name) :
    host.performWith engine name m = host.offerUnknown engine name m := by
  have hget : m.dictionary.get? name = none := by
    rw [Option.eq_none_iff_forall_ne_some]
    intro entry hentry
    obtain ⟨word, hword, hname⟩ := (h.exists_entry_iff name).mp ⟨entry, hentry⟩
    exact hnone word hword hname
  rw [host.performWith_of_word engine huntil hcollect hpath, hget]

end Machine.Learned

end Wordstack
