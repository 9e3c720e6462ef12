import Wordstack.Proofs.Joining

/-!
# The scanner and its grammar

A source text has one tokenisation, given by rules that do not mention the scanner, and repeated
scans find exactly that.  The scanner also equals an automaton that reads one character at a time
and never runs out of characters inside a bare lexeme, since a blank ends every text.

* `Lexeme.Cut`: the reference tokenisation of a text, with the place of a quote left open.
* `Buffer.Scans`: what calling the scanner again and again gives.
* `Buffer.cut_iff`: the two agree.
* `Lexeme.Written`: lexemes with blanks between them.
* `Scanner.feed`, `Buffer.automaton`: the automaton.
-/

namespace Wordstack

/-! ### The reference tokenisation -/

namespace Lexeme

open Buffer (quote)

/-- The tokenisation of a text that starts at a place: its lexemes, and whether the text is finished
then or has a quote that is never closed. -/
inductive Cut : Location → List Char → List Lexeme → Scan → Prop
  | done (place : Location) : Cut place [] [] .finished
  | blank {place : Location} {c : Char} {text : List Char} {lexemes : List Lexeme} {ending : Scan}
      (h : Text.isBlank c = true) (later : Cut (place.step c) text lexemes ending) :
      Cut place (c :: text) lexemes ending
  | quoted {place : Location} {text after : List Char} {lexemes : List Lexeme} {ending : Scan}
      (h : quote ∉ text)
      (later : Cut (place.advance (quote :: text ++ [quote])) after lexemes ending) :
      Cut place (quote :: text ++ quote :: after) (.quoted (String.ofList text) :: lexemes) ending
  | unclosed (place : Location) {text : List Char} (h : quote ∉ text) :
      Cut place (quote :: text) [] (.unclosed place)
  | bare {place : Location} {first : Char} {word after : List Char} {lexemes : List Lexeme}
      {ending : Scan} (hfirst : first ≠ quote)
      (hword : ∀ c ∈ first :: word, Text.isBlank c = false) (hends : Text.endsWord after = true)
      (later : Cut (place.advance (first :: word)) after lexemes ending) :
      Cut place (first :: word ++ after) (.bare (String.ofList (first :: word)) :: lexemes) ending

theorem Cut.blanks {place : Location} {blanks text : List Char} {lexemes : List Lexeme}
    {ending : Scan} (h : ∀ c ∈ blanks, Text.isBlank c = true)
    (later : Cut (place.advance blanks) text lexemes ending) :
    Cut place (blanks ++ text) lexemes ending := by
  induction blanks generalizing place with
  | nil => exact later
  | cons c blanks ih =>
    exact .blank (h c (by simp)) (ih (fun d hd => h d (by simp [hd])) later)

/-- Every text has a tokenisation.  By induction on its length. -/
theorem exists_cut (place : Location) (text : List Char) :
    ∃ lexemes ending, Cut place text lexemes ending := by
  induction hlength : text.length using Nat.strong_induction_on generalizing place text with
  | _ length ih =>
    subst hlength
    cases Buffer.opening text with
    | blank h => exact ⟨[], .finished, by simpa using Cut.blanks h (.done _)⟩
    | unclosed h htext => exact ⟨_, _, .blanks h (.unclosed _ htext)⟩
    | quoted h htext after =>
      obtain ⟨lexemes, ending, hcut⟩ := ih after.length (by simp; omega) _ after rfl
      exact ⟨_, _, .blanks h (.quoted htext hcut)⟩
    | @bare _ _ after _ h hfirst hword hends =>
      obtain ⟨lexemes, ending, hcut⟩ := ih after.length (by simp; omega) _ after rfl
      exact ⟨_, _, .blanks h (.bare hfirst hword hends hcut)⟩

/-- The place of a quote that is never closed, and what is before and behind it. -/
theorem Cut.unclosed_place {place start : Location} {text : List Char} {lexemes : List Lexeme}
    (h : Cut place text lexemes (.unclosed start)) :
    ∃ before inside, text = before ++ quote :: inside ∧ quote ∉ inside ∧
      start = place.advance before := by
  generalize hending : Scan.unclosed start = ending at h
  induction h with
  | done => cases hending
  | @blank _ c _ _ _ _ _ ih =>
    obtain ⟨before, inside, rfl, hinside, rfl⟩ := ih hending
    exact ⟨c :: before, inside, rfl, hinside, rfl⟩
  | @quoted _ text _ _ _ _ _ ih =>
    obtain ⟨before, inside, rfl, hinside, rfl⟩ := ih hending
    exact ⟨quote :: text ++ [quote] ++ before, inside, by simp, hinside,
      (Location.advance_append ..).symm⟩
  | unclosed place h =>
    cases hending
    exact ⟨[], _, rfl, h, rfl⟩
  | @bare _ first word _ _ _ _ _ _ _ ih =>
    obtain ⟨before, inside, rfl, hinside, rfl⟩ := ih hending
    exact ⟨first :: word ++ before, inside, by simp, hinside, (Location.advance_append ..).symm⟩

/-- Lexemes in writing: blanks may stand anywhere between them, and at least one stands after each
but the last. -/
inductive Written : List Lexeme → List Char → Prop
  | done {blanks : List Char} (h : ∀ c ∈ blanks, Text.isBlank c = true) : Written [] blanks
  | last {blanks : List Char} {lexeme : Lexeme} (h : ∀ c ∈ blanks, Text.isBlank c = true)
      (hlexeme : lexeme.IsScannable) : Written [lexeme] (blanks ++ lexeme.text.toList)
  | next {blanks text : List Char} {blank : Char} {lexeme : Lexeme} {lexemes : List Lexeme}
      (h : ∀ c ∈ blanks, Text.isBlank c = true) (hlexeme : lexeme.IsScannable)
      (hblank : Text.isBlank blank = true) (later : Written lexemes text) :
      Written (lexeme :: lexemes) (blanks ++ (lexeme.text.toList ++ blank :: text))

/-- A lexeme that can be scanned is the first of a text that starts with it. -/
theorem IsScannable.cut {lexeme : Lexeme} (hlexeme : lexeme.IsScannable) {place : Location}
    {after : List Char} {lexemes : List Lexeme} {ending : Scan} (hends : Text.endsWord after = true)
    (later : ∀ place, Cut place after lexemes ending) :
    Cut place (lexeme.text.toList ++ after) (lexeme :: lexemes) ending := by
  cases lexeme with
  | quoted text =>
    have hcut : Cut place _ _ _ := .quoted hlexeme (later _)
    rw [String.ofList_toList] at hcut
    simpa [Lexeme.text, quote] using hcut
  | bare text =>
    obtain ⟨hne, hword, hfirst⟩ := hlexeme
    obtain ⟨first, word, htext⟩ := List.exists_cons_of_ne_nil hne
    rw [htext] at hword hfirst
    have hcut : Cut place _ _ _ := .bare (by simpa using hfirst) hword hends (later _)
    rwa [← htext, String.ofList_toList] at hcut

/-- Lexemes in writing are the tokenisation of what is written. -/
theorem Written.cut {lexemes : List Lexeme} {text : List Char} (h : Written lexemes text)
    (place : Location) : Cut place text lexemes .finished := by
  induction h generalizing place with
  | done h => simpa using Cut.blanks h (.done _)
  | last h hlexeme => simpa using Cut.blanks h (hlexeme.cut rfl Cut.done)
  | next h hlexeme hblank _ ih =>
    exact .blanks h (hlexeme.cut hblank fun place => .blank hblank (ih _))

end Lexeme

/-! ### Repeated scans -/

namespace Buffer

open Lexeme

/-- Calling the scanner until it finds no lexeme: what each call finds, with the buffer after it,
and the last call. -/
inductive Scans : Buffer → List (Lexeme × Buffer) → Scan × Buffer → Prop
  | last {b : Buffer} (h : ∀ found, b.scan.1 ≠ .lexeme found) : Scans b [] b.scan
  | call {b after : Buffer} {found : Lexeme} {calls : List (Lexeme × Buffer)} {last : Scan × Buffer}
      (h : b.scan = (.lexeme found, after)) (later : Scans after calls last) :
      Scans b ((found, after) :: calls) last

/-- The calls come to an end.  By induction on the number of characters that are left. -/
theorem scans_lexemes (b : Buffer) : Scans b b.lexemes.1 b.lexemes.2 := by
  induction hlength : b.rest.length using Nat.strong_induction_on generalizing b with
  | _ length ih =>
    subst hlength
    obtain ⟨found, after, hscan⟩ | hend := b.scan_lexeme_or
    · rw [lexemes_of_lexeme hscan]
      exact .call hscan (ih _ (scan_shorter hscan) _ rfl)
    · rw [lexemes_of_end hend]
      exact .last hend

theorem location_drop {b : Buffer} {taken tail : List Char} (hrest : b.rest = taken ++ tail) :
    (b.drop taken.length).location = b.location.advance taken := by
  simp [drop, hrest]

theorem drop_of_length_le {b : Buffer} {n : Nat} (h : b.rest.length ≤ n) :
    b.drop n = b.drop b.rest.length := by
  simp [drop, List.take_of_length_le h, List.drop_eq_nil_of_le h]

/-- Wherever a buffer is, the end of its text is the same. -/
theorem drop_drop_rest (b : Buffer) (n : Nat) :
    (b.drop n).drop (b.drop n).rest.length = b.drop b.rest.length := by
  rw [drop_drop, drop_rest, List.length_drop, drop_of_length_le (by omega)]

/-- In front of a bare lexeme, a scan finds it.  It takes the blank behind it too, which makes no
difference to the next scan. -/
theorem lexemes_of_bare {b : Buffer} {first blank : Char} {word tail : List Char}
    (hrest : b.rest = first :: word ++ blank :: tail) (hfirst : first ≠ quote)
    (hword : ∀ c ∈ first :: word, Text.isBlank c = false) (hblank : Text.isBlank blank = true) :
    b.lexemes =
      ((.bare (String.ofList (first :: word)), (b.drop (first :: word).length).drop 1) ::
        (b.drop (first :: word).length).lexemes.1, (b.drop (first :: word).length).lexemes.2) := by
  have hbare : b.rest = [] ++ first :: word ++ blank :: tail := hrest
  have hscan : b.scan = (.lexeme (.bare (String.ofList (first :: word))),
      (b.drop (first :: word).length).drop 1) := by
    rw [scan_bare hbare rfl hfirst (by simpa using hword) hblank, drop_drop]
    simp
  have hbehind : (b.drop (first :: word).length).rest = [blank] ++ tail := rest_drop hrest
  have hskip : ((b.drop (first :: word).length).drop 1).scan = _ :=
    scan_drop_blanks hbehind (by simpa using hblank)
  rw [lexemes_of_lexeme hscan, lexemes_eq_of_scan hskip]

/-- A buffer in front of a text finds the lexemes of its tokenisation, one scan for each. -/
theorem lexemes_of_cut {b : Buffer} {text : List Char} {lexemes : List Lexeme} {ending : Scan}
    (h : Cut b.location text lexemes ending) (hrest : b.rest = text ++ [sentinel]) :
    b.lexemes.1.map Prod.fst = lexemes ∧ b.lexemes.2 = (ending, b.drop b.rest.length) := by
  generalize hplace : b.location = place at h
  induction h generalizing b with
  | done =>
    have hscan := scan_blanks (b := b) (by simp [hrest, isBlank_sentinel])
    rw [lexemes_of_end (by simp [hscan]), hscan]
    exact ⟨rfl, rfl⟩
  | @blank _ c text _ _ hblank _ ih =>
    have hrest' : b.rest = [c] ++ (text ++ [sentinel]) := hrest
    have hskip := scan_drop_blanks hrest' (by simpa using hblank)
    have hplace' : (b.drop 1).location = b.location.step c := location_drop hrest'
    obtain ⟨hlexemes, hending⟩ := ih (rest_drop hrest') (hplace ▸ hplace')
    rw [← lexemes_eq_of_scan hskip]
    exact ⟨hlexemes, by rw [hending, drop_drop_rest]⟩
  | @quoted _ text after _ _ hquote _ ih =>
    have hrest' : b.rest = (quote :: text ++ [quote]) ++ (after ++ [sentinel]) := by simp [hrest]
    have hscan : b.scan = (.lexeme (.quoted (String.ofList text)),
        b.drop (quote :: text ++ [quote]).length) := by
      have hopened : b.rest = quote :: text ++ quote :: (after ++ [sentinel]) := by simp [hrest]
      simpa using scan_quoted hopened hquote
    obtain ⟨hlexemes, hending⟩ := ih (rest_drop hrest') (hplace ▸ location_drop hrest')
    rw [lexemes_of_lexeme hscan, List.map_cons, hlexemes]
    exact ⟨rfl, by rw [hending, drop_drop_rest]⟩
  | @unclosed place text hquote =>
    have hscan := scan_unclosed hrest (by simpa [sentinel, quote] using hquote)
    rw [lexemes_of_end (by simp [hscan]), hscan, hplace]
    exact ⟨rfl, rfl⟩
  | @bare _ first word after _ _ hfirst hword hends _ ih =>
    have hrest' : b.rest = (first :: word) ++ (after ++ [sentinel]) := by simp [hrest]
    obtain ⟨blank, tail, htail, hblank⟩ : ∃ blank tail, after ++ [sentinel] = blank :: tail ∧
        Text.isBlank blank = true := by
      cases after with
      | nil => exact ⟨_, _, rfl, isBlank_sentinel⟩
      | cons blank after => exact ⟨_, _, rfl, hends⟩
    obtain ⟨hlexemes, hending⟩ := ih (rest_drop hrest') (hplace ▸ location_drop hrest')
    rw [lexemes_of_bare (htail ▸ hrest') hfirst hword hblank, List.map_cons, hlexemes]
    exact ⟨rfl, by rw [hending, drop_drop_rest]⟩

/-- **Repeated scans find exactly the tokenisation of the text**, and consume all of it. -/
theorem cut_iff (path source : String) (lexemes : List Lexeme) (ending : Scan) :
    Cut (.start path) source.toList lexemes ending ↔
      lexemes = (ofSource path source).lexemes.1.map Prod.fst ∧
        ending = (ofSource path source).lexemes.2.1 := by
  have hscans {lexemes : List Lexeme} {ending : Scan}
      (h : Cut (.start path) source.toList lexemes ending) :=
    lexemes_of_cut (b := ofSource path source) h rfl
  constructor
  · intro h
    obtain ⟨hlexemes, hending⟩ := hscans h
    exact ⟨hlexemes.symm, by rw [hending]⟩
  · rintro ⟨rfl, rfl⟩
    obtain ⟨lexemes, ending, h⟩ := exists_cut (.start path) source.toList
    obtain ⟨hlexemes, hending⟩ := hscans h
    rwa [hlexemes, hending]

end Buffer

/-! ### The automaton -/

theorem Buffer.next?_eq_some_iff {b after : Buffer} {c : Char} :
    b.next? = some (c, after) ↔ after = b.drop 1 ∧ ∃ tail, b.rest = c :: tail := by
  unfold next?
  cases hrest : b.rest with
  | nil => simp
  | cons d tail => simp [eq_comm, and_comm]

theorem Buffer.next?_eq_none_iff {b : Buffer} : b.next? = none ↔ b.rest = [] := by
  simp [next?]

namespace Scanner

open Buffer (quote)

/-- What the automaton is in the middle of. -/
inductive Mode where
  | between
  | quoted
  | bare
  deriving DecidableEq, Repr

/-- What the automaton knows between two characters: its mode, the text it has collected, and the
place of what it reads now. -/
structure State where
  mode : Mode
  text : List Char
  start : Location
  deriving DecidableEq, Repr

/-- One character, given the place after it: a lexeme is complete, or the automaton goes on. -/
def State.step (state : State) (c : Char) (place : Location) : Lexeme ⊕ State :=
  match state.mode with
  | .between =>
    if c = quote then .inr { state with mode := .quoted }
    else if Text.isBlank c then .inr { state with start := place }
    else .inr { state with mode := .bare, text := state.text ++ [c] }
  | .quoted =>
    if c = quote then .inl (.quoted (String.ofList state.text))
    else .inr { state with text := state.text ++ [c] }
  | .bare =>
    if Text.isBlank c then .inl (.bare (String.ofList state.text))
    else .inr { state with text := state.text ++ [c] }

/-- Characters are read one by one until a lexeme is complete or there are no more. -/
def feed (state : State) (b : Buffer) : (Lexeme ⊕ State) × Buffer :=
  match _h : b.next? with
  | none => (.inr state, b)
  | some (c, after) =>
    match state.step c after.location with
    | .inl found => (.inl found, after)
    | .inr state => feed state after
termination_by b.rest.length
decreasing_by
  obtain ⟨rfl, tail, hrest⟩ := Buffer.next?_eq_some_iff.mp ‹_›
  simp [hrest]

/-- What it means that there are no more characters. -/
def State.stop (state : State) : Scan :=
  match state.mode with
  | .between => .finished
  | .quoted => .unclosed state.start
  | .bare => .lexeme (.bare (String.ofList state.text))

/-- The automaton at the start of a scan. -/
def State.initial (b : Buffer) : State :=
  { mode := .between, text := [], start := b.location }

end Scanner

namespace Buffer

/-- One scan by the automaton. -/
def automaton (b : Buffer) : Scan × Buffer :=
  match Scanner.feed (.initial b) b with
  | (.inl found, after) => (.lexeme found, after)
  | (.inr state, after) => (state.stop, after)

end Buffer

namespace Scanner

theorem feed_nil (state : State) {b : Buffer} (h : b.rest = []) :
    feed state b = (.inr state, b) := by
  rw [feed, Buffer.next?_eq_none_iff.mpr h]

theorem feed_found {state : State} {b : Buffer} {c : Char} {tail : List Char} {found : Lexeme}
    (h : b.rest = c :: tail) (hstep : state.step c (b.drop 1).location = .inl found) :
    feed state b = (.inl found, b.drop 1) := by
  rw [feed, Buffer.next?_eq_some_iff.mpr ⟨rfl, tail, h⟩]
  dsimp only
  rw [hstep]

theorem feed_next {state state' : State} {b : Buffer} {c : Char} {tail : List Char}
    (h : b.rest = c :: tail) (hstep : state.step c (b.drop 1).location = .inr state') :
    feed state b = feed state' (b.drop 1) := by
  rw [feed, Buffer.next?_eq_some_iff.mpr ⟨rfl, tail, h⟩]
  dsimp only
  rw [hstep]

/-- A run of characters that completes nothing, with the state after each part of it. -/
theorem feed_run {b : Buffer} {run tail : List Char} (hrest : b.rest = run ++ tail)
    (state : List Char → State)
    (hstep : ∀ read, ∀ c ∈ run,
      (state read).step c (b.drop (read.length + 1)).location = .inr (state (read ++ [c]))) :
    feed (state []) b = feed (state run) (b.drop run.length) := by
  induction run generalizing b state with
  | nil => rw [List.length_nil, Buffer.drop_zero]
  | cons c run ih =>
    have hlater := ih (b := b.drop 1) (by simp [hrest]) (fun read => state (c :: read))
      fun read d hd => by
        rw [Buffer.drop_drop, Nat.add_comm 1]
        exact hstep (c :: read) d (by simp [hd])
    rw [feed_next hrest (hstep [] c (by simp)), List.nil_append, hlater, Buffer.drop_drop,
      Nat.add_comm 1, List.length_cons]

end Scanner

namespace Buffer

open Scanner

theorem rest_eq_run (b : Buffer) (test : Char → Bool) : b.rest = b.run test ++ (b.skip test).rest :=
  (List.prefix_iff_eq_append.mp (List.takeWhile_prefix test)).symm

theorem test_of_mem_run {b : Buffer} {test : Char → Bool} {c : Char} (h : c ∈ b.run test) :
    test c = true :=
  List.mem_takeWhile_imp h

/-- The character behind a run does not belong to it. -/
theorem test_of_skip {b : Buffer} {test : Char → Bool} {c : Char} {tail : List Char}
    (h : (b.skip test).rest = c :: tail) : test c = false := by
  have hdrop : b.rest.dropWhile test = c :: tail := by
    have happend : b.run test ++ b.rest.dropWhile test = b.run test ++ (b.skip test).rest := by
      rw [← rest_eq_run]
      exact List.takeWhile_append_dropWhile
    rw [List.append_cancel_left happend, h]
  have hhead := List.head?_dropWhile_not test b.rest
  rwa [hdrop] at hhead

/-- The automaton skips blanks first. -/
theorem feed_blanks (b : Buffer) :
    feed (.initial b) b = feed (.initial (b.skip Text.isBlank)) (b.skip Text.isBlank) := by
  have hstart : State.initial b = .initial (b.drop 0) := by rw [drop_zero]
  rw [hstart]
  refine feed_run (b.rest_eq_run Text.isBlank) (fun read => .initial (b.drop read.length)) ?_
  intro read c hc
  have hblank : Text.isBlank c = true := test_of_mem_run hc
  have hquote : c ≠ quote := fun heq => absurd (heq ▸ hblank) (by decide)
  simp [State.step, State.initial, hquote, hblank]

/-- Inside a lexeme, the automaton collects characters up to the one that ends it, or up to the end
of the text. -/
theorem feed_collect {mode : Mode} {start : Location} (test : Char → Bool)
    (lexeme : List Char → Lexeme)
    (hstay : ∀ text c place, test c = true →
      State.step ⟨mode, text, start⟩ c place = .inr ⟨mode, text ++ [c], start⟩)
    (hends : ∀ text c place, test c = false →
      State.step ⟨mode, text, start⟩ c place = .inl (lexeme text)) (text : List Char) (b : Buffer) :
    feed ⟨mode, text, start⟩ b =
      if (b.skip test).isExhausted then (.inr ⟨mode, text ++ b.run test, start⟩, b.skip test)
      else (.inl (lexeme (text ++ b.run test)), (b.skip test).drop 1) := by
  have hrun : feed ⟨mode, text ++ [], start⟩ b =
      feed ⟨mode, text ++ b.run test, start⟩ (b.skip test) :=
    feed_run (b.rest_eq_run test) (fun read => ⟨mode, text ++ read, start⟩) fun read c hc => by
      rw [hstay _ _ _ (test_of_mem_run hc), List.append_assoc]
  rw [List.append_nil] at hrun
  rw [hrun]
  cases hrest : (b.skip test).rest with
  | nil => rw [feed_nil _ hrest, if_pos (by simp [isExhausted, hrest])]
  | cons c tail =>
    rw [feed_found hrest (hends _ _ _ (test_of_skip hrest)), if_neg (by simp [isExhausted, hrest])]

theorem feed_quoted (start : Location) (b : Buffer) :
    feed ⟨.quoted, [], start⟩ b =
      if (b.skip (· != quote)).isExhausted then
        (.inr ⟨.quoted, b.run (· != quote), start⟩, b.skip (· != quote))
      else (.inl (.quoted (String.ofList (b.run (· != quote)))), (b.skip (· != quote)).drop 1) :=
  feed_collect _ (fun text => .quoted (String.ofList text)) (by simp_all [State.step])
    (by simp_all [State.step]) [] b

theorem feed_bare (start : Location) (first : Char) (b : Buffer) :
    feed ⟨.bare, [first], start⟩ b =
      if (b.skip (!Text.isBlank ·)).isExhausted then
        (.inr ⟨.bare, first :: b.run (!Text.isBlank ·), start⟩, b.skip (!Text.isBlank ·))
      else
        (.inl (.bare (String.ofList (first :: b.run (!Text.isBlank ·)))),
          (b.skip (!Text.isBlank ·)).drop 1) :=
  feed_collect _ (fun text => .bare (String.ofList text)) (by simp_all [State.step])
    (by simp_all [State.step]) [first] b

theorem drop_of_isExhausted {b : Buffer} (h : b.isExhausted = true) (n : Nat) : b.drop n = b := by
  have hrest : b.rest = [] := by simpa [isExhausted] using h
  rw [drop_of_length_le (by simp [hrest]), hrest, List.length_nil, drop_zero]

/-- **The scanner is the automaton**, whatever the buffer. -/
theorem automaton_eq_scan (b : Buffer) : b.automaton = b.scan := by
  unfold automaton scan
  rw [feed_blanks]
  dsimp only
  generalize hopened : b.skip Text.isBlank = opened
  cases hrest : opened.rest with
  | nil =>
    rw [feed_nil _ hrest]
    rfl
  | cons c tail =>
    have hblank : Text.isBlank c = false := test_of_skip (hopened ▸ hrest)
    dsimp only
    by_cases hquote : c = quote
    · have hstep : (State.initial opened).step c (opened.drop 1).location =
          .inr ⟨.quoted, [], opened.location⟩ := if_pos hquote
      rw [feed_next hrest hstep, if_pos hquote, feed_quoted]
      change _ = if ((opened.drop 1).skip (· != quote)).isExhausted then _ else _
      by_cases hexhausted : ((opened.drop 1).skip (· != quote)).isExhausted = true
      · rw [if_pos hexhausted, if_pos hexhausted]
        rfl
      · rw [if_neg hexhausted, if_neg hexhausted]
        rfl
    · have hstep : (State.initial opened).step c (opened.drop 1).location =
          .inr ⟨.bare, [c], opened.location⟩ := by
        simp [State.step, State.initial, hquote, hblank]
      have hrun : opened.run (!Text.isBlank ·) = c :: (opened.drop 1).run (!Text.isBlank ·) := by
        rw [run, run, drop_rest, hrest, List.takeWhile_cons_of_pos (by simp [hblank])]
        rfl
      have hdrop : opened.drop ((opened.run (!Text.isBlank ·)).length + 1) =
          ((opened.drop 1).skip (!Text.isBlank ·)).drop 1 := by
        rw [hrun, skip, drop_drop, drop_drop, List.length_cons, Nat.add_comm 1]
      rw [feed_next hrest hstep, if_neg hquote, feed_bare, hdrop, hrun]
      by_cases hexhausted : ((opened.drop 1).skip (!Text.isBlank ·)).isExhausted = true
      · rw [if_pos hexhausted, drop_of_isExhausted hexhausted]
        rfl
      · rw [if_neg hexhausted]

end Buffer

/-! ### The end of the text -/

namespace Scanner

/-- A blank never leaves the automaton inside a bare lexeme. -/
theorem State.step_blank {state state' : State} {c : Char} {place : Location}
    (h : state.step c place = .inr state') (hblank : Text.isBlank c = true) :
    state'.mode ≠ .bare := by
  obtain ⟨mode, text, start⟩ := state
  have hquote : c ≠ Buffer.quote := fun heq => absurd (heq ▸ hblank) (by decide)
  cases mode with
  | between | quoted =>
    simp only [State.step, hquote, hblank, if_true, if_false, Sum.inr.injEq] at h
    simp [← h]
  | bare => simp [State.step, hblank] at h

/-- **In a text that ends with a blank, the automaton never runs out of characters inside a bare
lexeme**: the last step was on that blank. -/
theorem feed_mode_ne {state state' : State} {b after : Buffer}
    (h : feed state b = (.inr state', after)) (hstate : b.rest = [] → state.mode ≠ .bare)
    (hlast : ∀ init c, b.rest = init ++ [c] → Text.isBlank c = true) : state'.mode ≠ .bare := by
  fun_induction feed state b with
  | case1 state b hnext =>
    obtain ⟨hsame, -⟩ := Prod.mk.inj h
    rw [← Sum.inr.inj hsame]
    exact hstate (Buffer.next?_eq_none_iff.mp hnext)
  | case2 => simp at h
  | case3 state b c after hnext next hstep ih =>
    obtain ⟨rfl, tail, hrest⟩ := Buffer.next?_eq_some_iff.mp hnext
    have htail : (b.drop 1).rest = tail := by simp [hrest]
    refine ih h (fun hnil => State.step_blank hstep (hlast [] c ?_)) fun init d hd => ?_
    · rw [hrest, ← htail, hnil]
      rfl
    · refine hlast (c :: init) d ?_
      rw [hrest, ← htail, hd]
      rfl

end Scanner

namespace Buffer

open Lexeme Scanner

theorem Scans.lexemes_eq {b : Buffer} {calls : List (Lexeme × Buffer)} {last : Scan × Buffer}
    (h : Scans b calls last) : b.lexemes = (calls, last) := by
  induction h with
  | last h => exact lexemes_of_end h
  | call h _ ih => rw [lexemes_of_lexeme h, ih]

theorem cursor_drop_add (b : Buffer) (n : Nat) :
    (b.drop n).cursor + (b.drop n).rest.length = b.cursor + b.rest.length := by
  simp only [drop, List.length_take, List.length_drop]
  omega

/-- A scan that finds a lexeme moves the buffer on. -/
theorem cursor_lt_of_lexeme {b after : Buffer} {found : Lexeme}
    (h : b.scan = (.lexeme found, after)) : b.cursor < after.cursor := by
  have hshorter := scan_shorter h
  obtain ⟨n, hdrop⟩ := b.scan_snd
  obtain rfl : after = b.drop n := by rw [← hdrop, h]
  have := cursor_drop_add b n
  omega

/-- In front of anything but a quote, a scan finds a lexeme. -/
theorem scan_of_first {b : Buffer} {blanks tail : List Char} {first : Char}
    (hrest : b.rest = blanks ++ first :: tail) (hblanks : ∀ c ∈ blanks, Text.isBlank c = true)
    (hquote : first ≠ quote) (hfirst : Text.isBlank first = false) :
    ∃ found, b.scan.1 = .lexeme found := by
  have hskip : b.skip Text.isBlank = b.drop blanks.length := by
    rw [skip, run, hrest, takeWhile_append_cons hblanks hfirst]
  unfold scan
  rw [hskip]
  dsimp only
  rw [rest_drop hrest]
  dsimp only
  rw [if_neg hquote]
  exact ⟨_, rfl⟩

/-- **A scan fails exactly in front of a quote that is never closed**, and gives the place of that
quote. -/
theorem scan_eq_unclosed_iff {b after : Buffer} {start : Location} :
    b.scan = (.unclosed start, after) ↔
      ∃ blanks text, b.rest = blanks ++ quote :: text ∧ (∀ c ∈ blanks, Text.isBlank c = true) ∧
        quote ∉ text ∧ start = b.location.advance blanks ∧ after = b.drop b.rest.length := by
  have hfails {blanks text : List Char} (hrest : b.rest = blanks ++ quote :: text)
      (hblanks : ∀ c ∈ blanks, Text.isBlank c = true) (htext : quote ∉ text) :
      b.scan = (.unclosed (b.location.advance blanks), b.drop b.rest.length) := by
    rw [← scan_drop_blanks hrest hblanks, scan_unclosed (rest_drop hrest) htext, drop_drop_rest,
      location_drop hrest]
  constructor
  · intro h
    generalize hrest : b.rest = rest
    cases opening rest with
    | blank hblanks =>
      rw [scan_blanks (hrest ▸ hblanks)] at h
      cases h
    | unclosed hblanks htext =>
      obtain ⟨hstart, hafter⟩ := Prod.mk.inj (h.symm.trans (hfails hrest hblanks htext))
      exact ⟨_, _, rfl, hblanks, htext, Scan.unclosed.inj hstart, hrest ▸ hafter⟩
    | quoted hblanks htext =>
      rw [← scan_drop_blanks hrest hblanks, scan_quoted (rest_drop hrest) htext] at h
      cases h
    | bare hblanks hfirst hword =>
      obtain ⟨found, hfound⟩ := scan_of_first hrest hblanks hfirst (hword _ (by simp))
      rw [h] at hfound
      cases hfound
  · rintro ⟨blanks, text, hrest, hblanks, htext, rfl, rfl⟩
    exact hfails hrest hblanks htext

/-- The last character of what is left of a source text is the blank that ends it. -/
theorem isBlank_last {path source : String} {n : Nat} {init : List Char} {c : Char}
    (h : ((ofSource path source).drop n).rest = init ++ [c]) : Text.isBlank c = true := by
  obtain ⟨before, happend⟩ : (ofSource path source).rest.drop n <:+ source.toList ++ [sentinel] :=
    List.drop_suffix n _
  rw [← drop_rest, h, ← List.append_assoc] at happend
  rw [(List.append_inj' happend rfl).2 |> List.singleton_inj.mp]
  exact isBlank_sentinel

/-- Scanning consumes all of a source text. -/
theorem lexemes_end (path source : String) :
    (ofSource path source).lexemes.2.2 =
      (ofSource path source).drop (source.toList.length + 1) := by
  obtain ⟨lexemes, ending, hcut⟩ := exists_cut (.start path) source.toList
  rw [(lexemes_of_cut (b := ofSource path source) hcut rfl).2]
  simp [ofSource]

/-- Where a scan finds the end of a source text, every character is consumed. -/
theorem cursor_of_finished {path source : String} {n : Nat} {after : Buffer}
    (h : ((ofSource path source).drop n).scan = (.finished, after)) :
    after.isExhausted = true ∧ after.cursor = source.toList.length + 1 := by
  have hrest := rest_of_finished h
  obtain ⟨k, hdrop⟩ := ((ofSource path source).drop n).scan_snd
  obtain rfl : after = (ofSource path source).drop (n + k) := by rw [← drop_drop, ← hdrop, h]
  have hcursor := cursor_drop_add (ofSource path source) (n + k)
  rw [hrest] at hcursor
  exact ⟨List.isEmpty_iff.mpr hrest, by simpa [ofSource] using hcursor⟩

/-- **The scanner and its grammar.**  For every source text, calling the scanner again and again
ends and finds exactly the tokenisation of the text; lexemes that were written with blanks between
them are found again.  Wherever it stands, a call that finds a lexeme moves on, one that finds none
has consumed everything, and one fails exactly in front of a quote that is never closed; and the
scanner is an automaton that never runs out of characters inside a bare lexeme. -/
theorem source_scanned (path source : String) :
    (∃ calls ending,
      (∀ calls' last, Scans (ofSource path source) calls' last ↔
        calls' = calls ∧ last = (ending, (ofSource path source).drop (source.toList.length + 1))) ∧
      (∀ lexemes ending', Cut (.start path) source.toList lexemes ending' ↔
        lexemes = calls.map Prod.fst ∧ ending' = ending) ∧
      (ofSource path source).tokens = calls.map (fun call => Value.ofLexeme call.1) ∧
      ∀ lexemes, Written lexemes source.toList →
        calls.map Prod.fst = lexemes ∧ ending = .finished) ∧
    ∀ n b, b = (ofSource path source).drop n →
      (∀ found after, b.scan = (.lexeme found, after) → b.cursor < after.cursor) ∧
      (∀ after, b.scan = (.finished, after) →
        after.isExhausted = true ∧ after.cursor = source.toList.length + 1) ∧
      (∀ start after, b.scan = (.unclosed start, after) ↔
        ∃ blanks text, b.rest = blanks ++ quote :: text ∧
          (∀ c ∈ blanks, Text.isBlank c = true) ∧ quote ∉ text ∧
          start = b.location.advance blanks ∧ after = b.drop b.rest.length) ∧
      b.automaton = b.scan ∧
      ∀ state after, feed (.initial b) b = (.inr state, after) → state.mode ≠ .bare := by
  constructor
  · refine ⟨(ofSource path source).lexemes.1, (ofSource path source).lexemes.2.1,
      fun calls' last => ⟨fun h => ?_, ?_⟩, cut_iff path source, rfl, fun lexemes h => ?_⟩
    · rw [← lexemes_end, h.lexemes_eq]
      exact ⟨rfl, rfl⟩
    · rintro ⟨rfl, rfl⟩
      rw [← lexemes_end]
      exact scans_lexemes _
    · obtain ⟨hlexemes, hending⟩ := (cut_iff path source lexemes _).mp (h.cut _)
      exact ⟨hlexemes.symm, hending.symm⟩
  · rintro n b rfl
    exact ⟨fun found after => cursor_lt_of_lexeme, fun after => cursor_of_finished,
      fun start after => scan_eq_unclosed_iff, automaton_eq_scan _,
      fun state after h => feed_mode_ne h (by simp [State.initial]) fun init c => isBlank_last⟩

/-- A quote inside a bare lexeme, an empty quoted text and blanks of several kinds. -/
theorem source_scanned_blanks :
    Written [.quoted "a b", .bare "x\"y", .quoted ""] "\t\"a b\"\n\u00a0x\"y  \"\"".toList ∧
      ∃ calls, Scans (ofSource "script" "\t\"a b\"\n\u00a0x\"y  \"\"") calls
          (.finished, (ofSource "script" "\t\"a b\"\n\u00a0x\"y  \"\"").drop 16) ∧
        calls.map Prod.fst = [.quoted "a b", .bare "x\"y", .quoted ""] := by
  have htext : "\t\"a b\"\n\u00a0x\"y  \"\"".toList =
      ['\t'] ++ ((Lexeme.quoted "a b").text.toList ++ '\n' ::
        (['\u00a0'] ++ ((Lexeme.bare "x\"y").text.toList ++ ' ' ::
          ([' '] ++ (Lexeme.quoted "").text.toList)))) := by
    decide
  have hwritten : Written [.quoted "a b", .bare "x\"y", .quoted ""]
      "\t\"a b\"\n\u00a0x\"y  \"\"".toList := by
    rw [htext]
    have hblank {c : Char} (h : [c].all Text.isBlank = true) : ∀ d ∈ [c], Text.isBlank d = true :=
      List.all_eq_true.mp h
    refine .next (hblank (by decide)) ?_ (by decide)
      (.next (hblank (by decide)) ?_ (by decide) (.last (hblank (by decide)) ?_))
    · exact (by decide : quote ∉ "a b".toList)
    · exact ⟨by decide, Text.noBlank_of_all (by decide), by decide⟩
    · exact (by decide : quote ∉ "".toList)
  obtain ⟨⟨calls, ending, hscans, -, -, hback⟩, -⟩ :=
    source_scanned "script" "\t\"a b\"\n\u00a0x\"y  \"\""
  obtain ⟨hcalls, rfl⟩ := hback _ hwritten
  exact ⟨hwritten, calls, (hscans calls _).mpr ⟨rfl, rfl⟩, hcalls⟩

end Buffer

end Wordstack
