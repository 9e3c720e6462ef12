import Wordstack.Proofs.Reading
import Wordstack.Proofs.Steps

/-!
# What a run leaves as it was

A machine is plain if none of its words is the host's and it has no hook.  Whatever a plain machine
runs, in whatever state it starts and however the run ends, the running words, the vocabulary and
the parsing words are the same afterwards; of the parses in progress, only the innermost reader may
have moved on and only the innermost accumulator may have grown.

* `OnTop`: two stacks that differ in their tops at most.
* `Machine.Plain`: a machine whose words are those of the language.
* `Machine.Frame`: the relation between the machine before and the machine after.
-/

namespace Wordstack

variable {E : Embedding} {α : Type}

/-- Two stacks that differ in their tops at most, and there only as `r` allows. -/
inductive OnTop (r : α → α → Prop) : List α → List α → Prop
  | empty : OnTop r [] []
  | top {a b : α} {rest : List α} (h : r a b) : OnTop r (a :: rest) (b :: rest)

namespace OnTop

variable {r : α → α → Prop} {xs ys zs : List α} {a : α}

theorem refl (hr : ∀ a, r a a) : ∀ xs : List α, OnTop r xs xs
  | [] => .empty
  | a :: _ => .top (hr a)

theorem trans (hr : ∀ a b c, r a b → r b c → r a c) (h1 : OnTop r xs ys) (h2 : OnTop r ys zs) :
    OnTop r xs zs := by
  cases h1 with
  | empty => exact h2
  | top h1 =>
    cases h2 with
    | top h2 => exact .top (hr _ _ _ h1 h2)

theorem exists_cons (h : OnTop r (a :: xs) ys) : ∃ b, r a b ∧ ys = b :: xs := by
  cases h with
  | top h => exact ⟨_, h, rfl⟩

theorem eq_nil (h : OnTop r xs ys) (hx : xs = []) : ys = [] := by
  cases h with
  | empty => rfl
  | top => cases hx

end OnTop

/-- A reader that has moved on in its text. -/
def Buffer.MovesTo (b b' : Buffer) : Prop :=
  ∃ n, b' = b.drop n

theorem Buffer.MovesTo.refl (b : Buffer) : b.MovesTo b :=
  ⟨0, b.drop_zero.symm⟩

theorem Buffer.MovesTo.trans {b b' b'' : Buffer} (h1 : b.MovesTo b') (h2 : b'.MovesTo b'') :
    b.MovesTo b'' := by
  obtain ⟨n, rfl⟩ := h1
  obtain ⟨k, rfl⟩ := h2
  exact ⟨n + k, b.drop_drop n k⟩

namespace Machine

/-- A machine all of whose words are words of the language, whatever they are called, and that has
no hook. -/
structure Plain (m : Machine E) : Prop where
  hook : m.hook = none
  action : ∀ (index : Nat) (handler : Handler E), m.handlers[index]? = some handler →
    ∃ b, handler.action = .builtin b

/-- What a run leaves of a machine.  An accumulator holds the latest value first, so one that has
grown has the old one as its end. -/
structure Frame (m m' : Machine E) : Prop where
  calls : m'.calls = m.calls
  dictionary : m'.dictionary = m.dictionary
  handlers : m'.handlers = m.handlers
  hook : m'.hook = m.hook
  parsingWords : m'.parsingWords = m.parsingWords
  memory : m'.memory = m.memory
  lexers : OnTop Buffer.MovesTo m.lexers m'.lexers
  accumulators : OnTop (· <:+ ·) m.accumulators m'.accumulators

variable {m m' m'' : Machine E}

theorem Frame.refl (m : Machine E) : m.Frame m :=
  ⟨rfl, rfl, rfl, rfl, rfl, rfl, .refl Buffer.MovesTo.refl _, .refl (fun _ => List.suffix_rfl) _⟩

theorem Frame.trans (h1 : m.Frame m') (h2 : m'.Frame m'') : m.Frame m'' where
  calls := h2.calls.trans h1.calls
  dictionary := h2.dictionary.trans h1.dictionary
  handlers := h2.handlers.trans h1.handlers
  hook := h2.hook.trans h1.hook
  parsingWords := h2.parsingWords.trans h1.parsingWords
  memory := h2.memory.trans h1.memory
  lexers := h1.lexers.trans (fun _ _ _ => Buffer.MovesTo.trans) h2.lexers
  accumulators := h1.accumulators.trans (fun _ _ _ => List.IsSuffix.trans) h2.accumulators

theorem Frame.plain (h : m.Frame m') (hm : m.Plain) : m'.Plain where
  hook := h.hook.trans hm.hook
  action := h.handlers ▸ hm.action

/-- What is left of the reader and the accumulator of a parse is there to be taken away. -/
theorem Frame.exists_opened {path source : String} (h : (Engine.opened path source m).Frame m') :
    ∃ buffer values, m'.lexers = buffer :: m.lexers ∧
      m'.accumulators = values :: m.accumulators := by
  obtain ⟨buffer, -, hl⟩ := h.lexers.exists_cons
  obtain ⟨values, -, ha⟩ := h.accumulators.exists_cons
  exact ⟨buffer, values, hl, ha⟩

/-- A machine that differs in the stack, the heap, the registry and the output only. -/
theorem Frame.of_values (m : Machine E) (stack : List Value) (heap : Heap) (registry : Registry)
    (output : String) : m.Frame { m with stack, heap, registry, output } :=
  ⟨rfl, rfl, rfl, rfl, rfl, rfl, .refl Buffer.MovesTo.refl _, .refl (fun _ => List.suffix_rfl) _⟩

end Machine

end Wordstack
