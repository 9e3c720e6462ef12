import Wordstack.Proofs.Frame

/-!
# The standard vocabulary

A standard machine knows the words of the language, each under its own name, no other words, and has
no hook.  The rest of it (stack, heap, scopes, parsing words, parses in progress) may be anything.

* `Machine.standard_standard`: a new machine to which all words were added is standard.
* `Machine.Standard.get?_name`: the entry of a word and its handler.
* `Machine.Knows.performWith`: what running a word by its name comes to.
-/

namespace Wordstack

variable {E : Embedding}

namespace Builtin

/-- The entry of a word, given the position of its handler. -/
def entry (b : Builtin) (handlerIndex : Nat) : Entry :=
  { name := b.name, effect := b.effect, description := b.description, location := none,
    handlerIndex }

/-- The handler of a word. -/
def handler (b : Builtin) : Handler E :=
  { name := b.name, location := none, action := .builtin b }

theorem mem_all (b : Builtin) : b ∈ all := by
  cases b <;> decide

theorem find?_name (b : Builtin) : all.find? (·.name = b.name) = some b := by
  cases b <;> decide +kernel

theorem name_injective {a b : Builtin} (h : a.name = b.name) : a = b := by
  have ha := a.find?_name
  rw [h, b.find?_name] at ha
  exact (Option.some.inj ha).symm

theorem name_ne_untilWord (b : Builtin) : b.name ≠ untilWord := by
  cases b <;> decide

theorem name_ne_collectWord (b : Builtin) : b.name ≠ collectWord := by
  cases b <;> decide

theorem path?_name (b : Builtin) : Host.path? b.name = none := by
  cases b <;> decide

/-- Runs a word: its inputs are taken, then it does what it does, as a running word, and hands its
outputs back. -/
def perform (engine : Engine E) (b : Builtin) : Exec E Unit := do
  let inputs ← takeInputs (b.entry 0)
  Exec.within b.name do
    let returned ← Exec.withContext (b.run engine inputs)
    pushOutputs (b.entry 0) returned

end Builtin

namespace Machine

/-! ### Adding the words of the language -/

/-- Every entry of the dictionary is that of a word of the language, under the word's name, and
points at the word's handler; and there are no other handlers. -/
structure Faithful (m : Machine E) : Prop where
  entry : ∀ (name : String) (word : Entry), m.dictionary.get? name = some word →
    ∃ b : Builtin, b.name = name ∧ word = b.entry word.handlerIndex ∧
      m.handlers[word.handlerIndex]? = some b.handler
  action : ∀ (index : Nat) (handler : Handler E), m.handlers[index]? = some handler →
    ∃ b, handler.action = .builtin b

/-- Adds one word of the language. -/
def addBuiltin (m : Machine E) (b : Builtin) : Machine E :=
  m.addWord none b.name b.effect b.description (.builtin b)

theorem addBuiltins_cons (m : Machine E) (b : Builtin) (bs : List Builtin) :
    m.addBuiltins (b :: bs) = (m.addBuiltin b).addBuiltins bs := rfl

variable {m : Machine E}

theorem faithful_new (memory : E.Memory) : (new memory : Machine E).Faithful :=
  ⟨fun _ _ h => (nomatch h), fun _ _ h => by simp [new] at h⟩

theorem Faithful.addBuiltin (h : m.Faithful) (b : Builtin) : (m.addBuiltin b).Faithful := by
  constructor
  · intro name word hword
    by_cases hname : name = b.name
    · subst hname
      have : word = b.entry m.handlers.size := by
        simpa [Machine.addBuiltin, addWord, Builtin.entry] using hword.symm
      subst this
      refine ⟨b, rfl, rfl, ?_⟩
      simp [Machine.addBuiltin, addWord, Builtin.entry, Builtin.handler]
    · have hold : m.dictionary.get? name = some word := by
        rw [← hword]
        exact (Table.get?_insert_of_ne hname _ _).symm
      obtain ⟨b', hb', hentry, hhandler⟩ := h.entry name word hold
      refine ⟨b', hb', hentry, ?_⟩
      -- an index that found a handler before is not the one the new handler takes
      have hlt : word.handlerIndex < m.handlers.size := (Array.getElem?_eq_some_iff.mp hhandler).1
      simp only [Machine.addBuiltin, addWord, Array.getElem?_push, Nat.ne_of_lt hlt, if_false]
      exact hhandler
  · intro index handler hhandler
    simp only [Machine.addBuiltin, addWord, Array.getElem?_push] at hhandler
    split at hhandler
    · obtain rfl := Option.some.inj hhandler
      exact ⟨b, rfl⟩
    · exact h.action index handler hhandler

theorem Faithful.addBuiltins (h : m.Faithful) (bs : List Builtin) :
    (m.addBuiltins bs).Faithful := by
  induction bs generalizing m with
  | nil => exact h
  | cons b bs ih => exact ih (h.addBuiltin b)

theorem isSome_get?_addBuiltin (b : Builtin) {name : String}
    (h : (m.dictionary.get? name).isSome ∨ name = b.name) :
    ((m.addBuiltin b).dictionary.get? name).isSome := by
  by_cases hname : name = b.name
  · subst hname
    simp [addBuiltin, addWord]
  · have hold := h.resolve_right hname
    rw [← Table.get?_insert_of_ne hname] at hold
    exact hold

theorem isSome_get?_addBuiltins (bs : List Builtin) {name : String}
    (h : (m.dictionary.get? name).isSome ∨ ∃ b ∈ bs, name = b.name) :
    ((m.addBuiltins bs).dictionary.get? name).isSome := by
  induction bs generalizing m with
  | nil => exact h.resolve_right (by simp)
  | cons b bs ih =>
    rw [addBuiltins_cons]
    rcases h with h | ⟨c, hc, hname⟩
    · exact ih (.inl (isSome_get?_addBuiltin b (.inl h)))
    · rcases List.mem_cons.mp hc with rfl | hc
      · exact ih (.inl (isSome_get?_addBuiltin c (.inr hname)))
      · exact ih (.inr ⟨c, hc, hname⟩)

theorem hook_addBuiltins (bs : List Builtin) : (m.addBuiltins bs).hook = m.hook := by
  induction bs generalizing m with
  | nil => rfl
  | cons b bs ih => exact ih

theorem memory_addBuiltins (bs : List Builtin) : (m.addBuiltins bs).memory = m.memory := by
  induction bs generalizing m with
  | nil => rfl
  | cons b bs ih => exact ih

/-! ### Words that are known -/

/-- The word is known: its name leads to its entry, which points at its handler.  Other words, of
the language or of the host, may be known too. -/
def Knows (m : Machine E) (b : Builtin) : Prop :=
  ∃ index, m.dictionary.get? b.name = some (b.entry index) ∧ m.handlers[index]? = some b.handler

/-- A word that is known is what runs under its name. -/
theorem Knows.performWith {b : Builtin} (h : m.Knows b) (host : Host E) (engine : Engine E) :
    host.performWith engine b.name m = b.perform engine m := by
  obtain ⟨index, hword, hhandler⟩ := h
  have hdispatch : host.performWith engine b.name m =
      host.dispatchWith engine (b.entry index) m := by
    unfold Host.performWith
    rw [if_neg b.name_ne_untilWord, if_neg b.name_ne_collectWord, b.path?_name]
    dsimp only
    rw [Exec.machine_bind, hword]
  have hentry : m.handlers[(b.entry index).handlerIndex]? = some b.handler := hhandler
  rw [hdispatch, Host.dispatchWith, Exec.machine_bind, hentry]
  rfl

/-! ### Standard machines -/

/-- A new machine that knows every word of the language. -/
def standard (memory : E.Memory) : Machine E :=
  (new memory).addBuiltins Builtin.all

/-- A machine whose words are those of the language, in the order in which they are added, and that
has no hook. -/
structure Standard (m : Machine E) : Prop where
  dictionary : m.dictionary = (standard m.memory).dictionary
  handlers : m.handlers = (standard m.memory).handlers
  hook : m.hook = none

theorem standard_standard (memory : E.Memory) : (standard memory : Machine E).Standard := by
  have hmemory : (standard memory : Machine E).memory = memory := memory_addBuiltins _
  exact ⟨by rw [hmemory], by rw [hmemory], hook_addBuiltins _⟩

theorem faithful_standard (memory : E.Memory) : (standard memory : Machine E).Faithful :=
  (faithful_new memory).addBuiltins _

namespace Standard

variable (h : m.Standard)
include h

theorem faithful : m.Faithful := by
  obtain ⟨hentry, haction⟩ := faithful_standard m.memory
  rw [← h.dictionary, ← h.handlers] at hentry
  rw [← h.handlers] at haction
  exact ⟨hentry, haction⟩

theorem plain : m.Plain :=
  ⟨h.hook, h.faithful.action⟩

/-- Every word of the language has an entry under its name, which points at its handler. -/
theorem get?_name (b : Builtin) : ∃ index, m.dictionary.get? b.name = some (b.entry index) ∧
    m.handlers[index]? = some b.handler := by
  have hsome : (m.dictionary.get? b.name).isSome := by
    rw [h.dictionary]
    exact isSome_get?_addBuiltins _ (.inr ⟨b, b.mem_all, rfl⟩)
  obtain ⟨word, hword⟩ := Option.isSome_iff_exists.mp hsome
  obtain ⟨b', hname, hentry, hhandler⟩ := h.faithful.entry _ _ hword
  obtain rfl := Builtin.name_injective hname
  exact ⟨word.handlerIndex, hentry ▸ hword, hhandler⟩

/-- A name that leads to the handler of a word of the language is the name of that word. -/
theorem name_eq {name : String} {word : Entry} {handler : Handler E} {b : Builtin}
    (hword : m.dictionary.get? name = some word)
    (hhandler : m.handlers[word.handlerIndex]? = some handler)
    (hb : handler.action = .builtin b) : name = b.name := by
  obtain ⟨b', rfl, -, hhandler'⟩ := h.faithful.entry _ _ hword
  rw [hhandler] at hhandler'
  obtain rfl := Option.some.inj hhandler'
  rw [Builtin.handler, Action.builtin.injEq] at hb
  rw [hb]

/-- A machine inside the frame of a standard one is standard. -/
theorem frame {m' : Machine E} (hf : m.Frame m') : m'.Standard where
  dictionary := by rw [hf.dictionary, hf.memory, h.dictionary]
  handlers := by rw [hf.handlers, hf.memory, h.handlers]
  hook := hf.hook.trans h.hook

/-- A standard machine knows every word of the language. -/
theorem knows (b : Builtin) : m.Knows b :=
  h.get?_name b

/-- A word of the language is what runs under its name. -/
theorem performWith_name (host : Host E) (engine : Engine E) (b : Builtin) :
    host.performWith engine b.name m = b.perform engine m :=
  (h.knows b).performWith host engine

end Standard

/-- The machine with a stack and, on the heap, one array. -/
def holding (m : Machine E) (stack items : List Value) : Machine E :=
  { m with stack, heap := (Heap.newArray {} items).2 }

theorem Standard.holding (h : m.Standard) (stack items : List Value) :
    (m.holding stack items).Standard :=
  h.frame (.of_values m _ _ _ _)

end Machine

end Wordstack
