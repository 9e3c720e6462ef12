import Mathlib.Data.List.DropRight
import Wordstack.Proofs.Lexing

/-!
# Positions in a source text

However a source text is read, character by character or lexeme by lexeme, the reader is at the
place that the characters behind it tell: one line for each newline among them, and one column for
each character since the last.  The scanner keeps a place of its own while it reads a lexeme, and
changes it only where it skips a blank; still it is the place where the lexeme starts, at every step
of every scan.  So a quoted text that is never closed is reported at its opening quote.

* `Location.behind`: the place that characters tell.
* `Buffer.Reached`, `Buffer.Consumed`: the readers that calls lead to, and what they have consumed.
* `Scanner.Passes`, `Scanner.Kept`: the states of the automaton, and what it keeps in each.
* `Buffer.positions_exact`: the places of readers, of states and of open quotes.
-/

namespace Wordstack

/-! ### Places -/

/-- The place behind the first characters of a text. -/
def Location.behind (path : String) (read : List Char) : Location :=
  { path
    line := 1 + read.count '\n'
    column := 1 + (read.rtakeWhile (· != '\n')).length }

/-- The place that is kept up to date with each character is the one that the characters tell.
By induction on the characters from the last one on, since that is where the column is counted. -/
theorem Location.advance_start (path : String) (read : List Char) :
    (start path).advance read = behind path read := by
  induction read using List.reverseRecOn with
  | nil => rfl
  | append_singleton read c ih =>
    rw [advance_append, ih]
    change (behind path read).step c = _
    by_cases hnewline : c = '\n'
    · subst hnewline
      simp [step, behind, Nat.add_assoc]
    · have hcount : (read ++ [c]).count '\n' = read.count '\n' := by simp [hnewline]
      have hcolumn : (read ++ [c]).rtakeWhile (· != '\n') = read.rtakeWhile (· != '\n') ++ [c] :=
        List.rtakeWhile_concat_pos _ _ _ (by simpa using hnewline)
      simp only [step, hnewline, if_false, behind, hcount, hcolumn, List.length_append,
        List.length_singleton, Nat.add_assoc]

theorem Location.behind_append (path : String) (read more : List Char) :
    (behind path read).advance more = behind path (read ++ more) := by
  rw [← advance_start, ← advance_append, advance_start]

namespace Buffer

/-! ### Readers -/

/-- The characters of a source text, with the blank that ends it. -/
def characters (source : String) : List Char :=
  source.toList ++ [sentinel]

/-- The readers of a source text that calls lead to, each of which gives a character or scans. -/
inductive Reached (path source : String) : Buffer → Prop
  | start : Reached path source (ofSource path source)
  | next {b after : Buffer} {c : Char} (before : Reached path source b)
      (h : b.next? = some (c, after)) : Reached path source after
  | scan {b : Buffer} (before : Reached path source b) : Reached path source b.scan.2

/-- The reader has consumed these characters of the source text and is at the place behind them. -/
structure Consumed (path source : String) (read : List Char) (b : Buffer) : Prop where
  text : characters source = read ++ b.rest
  cursor : b.cursor = read.length
  location : b.location = .behind path read

variable {path source : String} {read : List Char} {b : Buffer}

theorem consumed_start (path source : String) : Consumed path source [] (ofSource path source) :=
  ⟨rfl, rfl, rfl⟩

/-- What is dropped is consumed, and moves the place on. -/
theorem Consumed.drop (h : Consumed path source read b) (n : Nat) :
    Consumed path source (read ++ b.rest.take n) (b.drop n) where
  text := by rw [drop_rest, List.append_assoc, List.take_append_drop, h.text]
  cursor := by rw [List.length_append, ← h.cursor]; rfl
  location := by rw [← Location.behind_append, ← h.location]; rfl

theorem Consumed.next {after : Buffer} {c : Char} (h : Consumed path source read b)
    (hnext : b.next? = some (c, after)) : Consumed path source (read ++ [c]) after := by
  obtain ⟨rfl, tail, hrest⟩ := next?_eq_some_iff.mp hnext
  have hdrop := h.drop 1
  rwa [hrest, List.take_succ_cons, List.take_zero] at hdrop

theorem Consumed.read_eq (h : Consumed path source read b) :
    read = (characters source).take b.cursor := by
  rw [h.text, h.cursor, List.take_left]

theorem Consumed.rest_eq (h : Consumed path source read b) :
    b.rest = (characters source).drop b.cursor := by
  rw [h.text, h.cursor, List.drop_left]

/-- Whatever calls a reader has made, it is at the place behind what it has consumed. -/
theorem Reached.exists_consumed (h : Reached path source b) :
    ∃ read, Consumed path source read b := by
  induction h with
  | start => exact ⟨[], consumed_start path source⟩
  | next _ hnext ih =>
    obtain ⟨read, hread⟩ := ih
    exact ⟨_, hread.next hnext⟩
  | @scan b _ ih =>
    obtain ⟨read, hread⟩ := ih
    obtain ⟨n, hdrop⟩ := b.scan_snd
    exact ⟨_, hdrop ▸ hread.drop n⟩

theorem Reached.consumed (h : Reached path source b) :
    Consumed path source ((characters source).take b.cursor) b := by
  obtain ⟨read, hread⟩ := h.exists_consumed
  exact hread.read_eq ▸ hread

theorem Consumed.cursor_le (h : Consumed path source read b) :
    b.cursor ≤ source.toList.length + 1 := by
  have hlength := congrArg List.length h.text
  rw [characters, List.length_append, List.length_append, List.length_singleton] at hlength
  rw [h.cursor]
  omega

end Buffer

/-! ### The place that the scanner keeps -/

namespace Scanner

open Buffer (quote Consumed Reached)

/-- The states that the automaton passes through in one scan, with the reader it has there. -/
inductive Passes (b : Buffer) : State → Buffer → Prop
  | start : Passes b (.initial b) b
  | step {state state' : State} {now after : Buffer} {c : Char} (before : Passes b state now)
      (next : now.next? = some (c, after)) (h : state.step c after.location = .inr state') :
      Passes b state' after

/-- The characters of the lexeme that is being read. -/
def State.read (state : State) : List Char :=
  match state.mode with
  | .between => []
  | .quoted => quote :: state.text
  | .bare => state.text

/-- The place that is kept is the one where the lexeme starts that is being read, or the place of
the reader if there is none. -/
structure Kept (path source : String) (state : State) (now : Buffer) : Prop where
  start : ∃ before, Consumed path source (before ++ state.read) now ∧
    state.start = .behind path before
  /-- Nothing is collected between lexemes. -/
  idle : state.mode = .between → state.text = []

variable {path source : String} {b now after : Buffer} {state state' : State} {c : Char}

theorem kept_initial {read : List Char} (h : Consumed path source read b) :
    Kept path source (.initial b) b :=
  ⟨⟨read, by simpa [State.read, State.initial] using h, h.location⟩, fun _ => rfl⟩

/-- A character that belongs to the lexeme does not change the place. -/
theorem Kept.collect (h : Kept path source state now) (hnext : now.next? = some (c, after))
    (hread : state'.read = state.read ++ [c]) (hstart : state'.start = state.start)
    (hmode : state'.mode ≠ .between) : Kept path source state' after where
  start := by
    obtain ⟨before, hconsumed, hbefore⟩ := h.start
    refine ⟨before, ?_, hstart.trans hbefore⟩
    rw [hread, ← List.append_assoc]
    exact hconsumed.next hnext
  idle hbetween := absurd hbetween hmode

/-- A blank between lexemes changes the place to where the reader is then. -/
theorem Kept.skip (h : Kept path source state now) (hnext : now.next? = some (c, after))
    (hmode : state.mode = .between) :
    Kept path source { state with start := after.location } after where
  start := by
    obtain ⟨before, hconsumed, -⟩ := h.start
    have hread : state.read = [] := by rw [State.read, hmode]
    rw [hread, List.append_nil] at hconsumed
    have hafter := hconsumed.next hnext
    refine ⟨before ++ [c], ?_, hafter.location⟩
    change Consumed path source (before ++ [c] ++ state.read) after
    rwa [hread, List.append_nil]
  idle := h.idle

theorem Kept.step (h : Kept path source state now) (hnext : now.next? = some (c, after))
    (hstep : state.step c after.location = .inr state') : Kept path source state' after := by
  rw [State.step] at hstep
  split at hstep
  · next hmode =>
    have htext := h.idle hmode
    split at hstep
    · next hquote =>
      obtain rfl := Sum.inr.inj hstep
      exact h.collect hnext (by simp [State.read, hmode, htext, hquote]) rfl (by simp)
    · split at hstep
      · obtain rfl := Sum.inr.inj hstep
        exact h.skip hnext hmode
      · obtain rfl := Sum.inr.inj hstep
        exact h.collect hnext (by simp [State.read, hmode, htext]) rfl (by simp)
  · next hmode =>
    split at hstep
    · cases hstep
    · obtain rfl := Sum.inr.inj hstep
      exact h.collect hnext (by simp [State.read, hmode]) rfl (by simp [hmode])
  · next hmode =>
    split at hstep
    · cases hstep
    · obtain rfl := Sum.inr.inj hstep
      exact h.collect hnext (by simp [State.read, hmode]) rfl (by simp [hmode])

/-- **At every step of a scan, the place that is kept is where the lexeme starts.** -/
theorem Passes.kept (h : Passes b state now) (hb : Reached path source b) :
    Kept path source state now := by
  induction h with
  | start => exact kept_initial hb.consumed
  | step _ next h ih => exact ih.step next h

theorem Kept.start_eq (h : Kept path source state now) :
    state.start = .behind path
      ((Buffer.characters source).take (now.cursor - state.read.length)) := by
  obtain ⟨before, hconsumed, hstart⟩ := h.start
  have hbefore : now.cursor - state.read.length = before.length := by
    rw [hconsumed.cursor, List.length_append, Nat.add_sub_cancel]
  rw [hstart, hbefore, hconsumed.text, List.append_assoc, List.take_left]

/-- The state in which the characters give out has been passed through. -/
theorem Passes.feed (h : Passes b state now) (hfeed : feed state now = (.inr state', after)) :
    Passes b state' after := by
  fun_induction Scanner.feed state now with
  | case1 =>
    obtain ⟨hstate, rfl⟩ := Prod.mk.inj hfeed
    obtain rfl := Sum.inr.inj hstate
    exact h
  | case2 => cases hfeed
  | case3 _ _ _ _ hnext _ hstep ih => exact ih (h.step hnext hstep) hfeed

end Scanner

namespace Buffer

open Scanner (State Passes)

variable {path source : String} {b : Buffer}

/-- A quoted text that is never closed is reported at the place that the automaton keeps. -/
theorem exists_passes_of_unclosed {start : Location} {after : Buffer}
    (h : b.scan = (.unclosed start, after)) :
    ∃ state, Passes b state after ∧ state.mode = .quoted ∧ state.start = start := by
  rw [← automaton_eq_scan, automaton] at h
  split at h
  · cases h
  · next state now hfeed =>
    obtain ⟨hstop, rfl⟩ := Prod.mk.inj h
    refine ⟨state, Passes.start.feed hfeed, ?_⟩
    obtain ⟨mode, text, place⟩ := state
    cases mode with
    | between => cases hstop
    | quoted => exact ⟨rfl, Scan.unclosed.inj hstop⟩
    | bare => cases hstop

theorem Reached.unclosed_iff (hb : Reached path source b) {start : Location} {after : Buffer} :
    b.scan = (.unclosed start, after) ↔
      ∃ blanks inside, b.rest = blanks ++ quote :: inside ∧
        (∀ c ∈ blanks, Text.isBlank c = true) ∧ quote ∉ inside ∧
        start = .behind path ((characters source).take b.cursor ++ blanks) ∧
        after = b.drop b.rest.length := by
  rw [scan_eq_unclosed_iff, hb.consumed.location]
  simp only [Location.behind_append]

/-- **Source positions.**  Whatever calls have been made, a reader has consumed at most all of a
source text and the blank that ends it, and is at the place behind what it has consumed.  At every
step of its next scan, the place that is kept is the one where the lexeme starts.  The scan fails
exactly in front of a quote that is never closed, and both it and the error name the place of that
quote. -/
theorem positions_exact {E : Embedding} (engine : Engine E) (m : Machine E) (values : List Value)
    (hb : Reached path source b) :
    (b.cursor ≤ source.toList.length + 1 ∧ b.rest = (characters source).drop b.cursor ∧
      b.location = .behind path ((characters source).take b.cursor)) ∧
    (∀ state now, Passes b state now →
      state.start = .behind path ((characters source).take (now.cursor - state.read.length))) ∧
    ∀ start after,
      (b.scan = (.unclosed start, after) ↔
        ∃ blanks inside, b.rest = blanks ++ quote :: inside ∧
          (∀ c ∈ blanks, Text.isBlank c = true) ∧ quote ∉ inside ∧
          start = .behind path ((characters source).take b.cursor ++ blanks) ∧
          after = b.drop b.rest.length) ∧
      (b.scan = (.unclosed start, after) →
        (∃ state, Passes b state after ∧ state.mode = .quoted ∧ state.start = start) ∧
        engine.parseOne (m.reading b values) =
          .raised { cause := .unclosedQuote, location := some start } (m.reading after values)) :=
  ⟨⟨hb.consumed.cursor_le, hb.consumed.rest_eq, hb.consumed.location⟩,
    fun _ _ h => (h.kept hb).start_eq,
    fun _ _ => ⟨hb.unclosed_iff,
      fun h => ⟨exists_passes_of_unclosed h, engine.parseOne_of_unclosed h⟩⟩⟩

/-- A quote that is never closed, right behind a quoted text of two lines. -/
theorem positions_exact_adjoining :
    ∃ b, Reached "script" "a\n\"x\ny\"\"b\n" b ∧ b.cursor = 7 ∧
      b.location = ⟨"script", 3, 3⟩ ∧
      b.scan = (.unclosed ⟨"script", 3, 3⟩, b.drop 4) ∧
      ∀ m : Machine .bare, (Host.bare.engine 1).parseOne (m.reading b []) =
        .raised { cause := .unclosedQuote, location := some ⟨"script", 3, 3⟩ }
          (m.reading (b.drop 4) []) := by
  let b := (ofSource "script" "a\n\"x\ny\"\"b\n").scan.2.scan.2
  have hb : Reached "script" "a\n\"x\ny\"\"b\n" b := .scan (.scan .start)
  have hexact := fun m => positions_exact (Host.bare.engine 1) m [] hb
  have hscan : b.scan = (.unclosed ⟨"script", 3, 3⟩, b.drop 4) := by decide
  exact ⟨b, hb, by decide, by decide, hscan, fun m => (((hexact m).2.2 _ _).2 hscan).2⟩

end Buffer

end Wordstack
