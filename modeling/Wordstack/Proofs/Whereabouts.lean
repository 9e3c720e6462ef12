import Wordstack.Proofs.Backtrace
import Wordstack.Proofs.Course
import Wordstack.Proofs.Lexing

/-!
# Where a quote was left open

The scanner reports a quote that is never closed with the place of that quote.  The parser hands
the error on as it is, but a word that it leaves on its way out puts the place of the reader in its
stead, and by then the reader is at the end of the text.  So the place of the quote is lost exactly
if a word was running where the scanner failed.

* `Carried`: what becomes of the scanner's error.
* `Course.carried`: it holds along every course.
* `Halting.OpenQuote`: the scanner fails on the text that is being parsed.
* `unclosed_quote_place`: the place that is reported in the end.
-/

namespace Wordstack

variable {E : Embedding}

/-! ### Places -/

/-- The first place comes before the second in one text. -/
def Location.Before (a b : Location) : Prop :=
  a.line < b.line ∨ a.line = b.line ∧ a.column < b.column

theorem Location.before_step (place : Location) (c : Char) : place.Before (place.step c) := by
  unfold Before step
  split
  · exact .inl (Nat.lt_succ_self _)
  · exact .inr ⟨rfl, Nat.lt_succ_self _⟩

theorem Location.Before.trans {a b c : Location} (h : a.Before b) (h' : b.Before c) :
    a.Before c := by
  unfold Before at *
  omega

/-- Every character moves the place on. -/
theorem Location.before_advance (place : Location) (c : Char) (run : List Char) :
    place.Before (place.advance (c :: run)) := by
  induction run generalizing place c with
  | nil => exact place.before_step c
  | cons d run ih => exact (place.before_step c).trans (ih (place.step c) d)

theorem Location.advance_ne (place : Location) (c : Char) (run : List Char) :
    place.advance (c :: run) ≠ place := by
  intro h
  have hbefore := place.before_advance c run
  rw [h, Before] at hbefore
  omega

/-! ### The scanner's error on its way out -/

/-- What the scanner's error at `start` can be where the words `outer` are running: the error
itself, or, once it has left a word, an error with the place of the reader. -/
inductive Carried (start : Location) (reader : Buffer) (outer : List String) : Error → Prop
  | kept : Carried start reader outer { cause := .unclosedQuote, location := some start }
  | replaced {name : String} {inner : List String} (hinner : inner ≠ []) :
      Carried start reader outer
        { cause := .inWord name .unclosedQuote
          location := some reader.location
          calls := some (inner ++ outer) }

theorem Carried.kind {start : Location} {reader : Buffer} {outer : List String} {e : Error}
    (h : Carried start reader outer e) : e.kind = .unterminatedDelimiter := by
  cases h <;> rfl

/-- Leaving a word: an error without context gets the place of the reader. -/
theorem Carried.leave {start : Location} {reader : Buffer} {lexers : List Buffer} {name : String}
    {outer : List String} {e : Error} {m : Machine E} (h : Carried start reader (name :: outer) e)
    (hcalls : m.calls = name :: outer) (hlexers : m.lexers = reader :: lexers) :
    Carried start reader outer (m.addContext e) := by
  cases h with
  | kept =>
    have herror : m.addContext { cause := .unclosedQuote, location := some start } =
        { cause := .inWord name .unclosedQuote
          location := some reader.location
          calls := some ([name] ++ outer) } := by
      simp [Machine.addContext, Machine.error, Machine.innermostCall, Machine.location?, hcalls,
        hlexers]
    rw [herror]
    exact .replaced (by simp)
  | @replaced name' inner hinner =>
    have happend : inner ++ name :: outer = (inner ++ [name]) ++ outer := by simp
    rw [happend]
    exact .replaced (by simp)

/-- **What a run does to its innermost reader**: the text ends as before, seen from where the reader
is now, or the scanner failed on the text, the reader is at its end, and the run fails with what the
scanner's error has become. -/
theorem Course.carried {m m' : Machine E} {e : Option Error} (h : Course m e m') {reader : Buffer}
    {lexers : List Buffer} (hlexers : m.lexers = reader :: lexers) :
    ∃ reader', m'.lexers = reader' :: lexers ∧
      (reader'.ending = reader.ending ∨ ∃ start error, reader.ending = (.unclosed start, reader') ∧
        e = some error ∧ Carried start reader' m.calls error) := by
  induction h generalizing reader with
  | append first second ihfirst ihsecond =>
    -- what fails is never followed by anything, so the scanner did not fail in the first run
    obtain ⟨reader', hlexers', hending | ⟨_, _, _, hnone, _⟩⟩ := ihfirst hlexers
    · obtain ⟨reader'', hlexers'', hcarried⟩ := ihsecond hlexers'
      rw [hending, first.frame.calls] at hcarried
      exact ⟨reader'', hlexers'', hcarried⟩
    · cases hnone
  | values => exact ⟨reader, hlexers, .inl rfl⟩
  | fails => exact ⟨reader, hlexers, .inl rfl⟩
  | refuses => exact ⟨reader, hlexers, .inl rfl⟩
  | collects => exact ⟨reader, hlexers, .inl rfl⟩
  -- a parse of another text has a reader of its own, whatever becomes of it
  | parses _ _ => exact ⟨reader, hlexers, .inl rfl⟩
  | gathers _ ih => exact ih hlexers
  | @reads _ _ after _ found hlexers' hscan hfound =>
    obtain ⟨rfl, rfl⟩ := List.cons.inj (hlexers.symm.trans hlexers')
    refine ⟨after, rfl, .inl ?_⟩
    cases found with
    | lexeme found => rw [Buffer.ending_of_lexeme hscan]
    | finished =>
      have hagain := Buffer.scan_of_finished hscan
      rw [Buffer.ending_of_finished hscan, Buffer.ending_of_finished hagain]
    | unclosed start => exact absurd rfl (hfound start)
  | @unclosed _ _ after _ start hlexers' hscan =>
    obtain ⟨rfl, rfl⟩ := List.cons.inj (hlexers.symm.trans hlexers')
    exact ⟨after, rfl, .inr ⟨start, _, Buffer.ending_of_unclosed hscan, rfl, .kept⟩⟩
  | word name inside ih =>
    obtain ⟨reader', hlexers', hending | ⟨start, error, hending, rfl, hcarried⟩⟩ := ih hlexers
    · exact ⟨reader', hlexers', .inl hending⟩
    · exact ⟨reader', hlexers', .inr ⟨start, _, hending, rfl,
        hcarried.leave inside.frame.calls hlexers'⟩⟩

/-! ### The place that is reported -/

namespace Halting

/-- The scanner fails on the text that is being parsed, at the quote at `start`, while the words
`running` are running: the interpreter that stops dead ends with the scanner's error, and the reader
of the text is where the quote left it. -/
def OpenQuote (host : Host E) (fuel : Nat) (path source : String) (m : Machine E)
    (start : Location) (running : List String) : Prop :=
  ∃ standing reader,
    (engine host fuel).parseAll (engine host fuel).rounds (Engine.opened path source m) =
      .raised { cause := .unclosedQuote, location := some start } standing ∧
    standing.calls = running ∧ standing.lexers = reader :: m.lexers ∧
    (Buffer.ofSource path source).ending = (.unclosed start, reader)

/-- The place of the quote is kept exactly if no word was running that is not running outside. -/
theorem Told.location_iff {outer standing : List String} {start : Location} {reader : Buffer}
    {e : Error} (h : Told outer standing { cause := .unclosedQuote, location := some start } e)
    (hcarried : Carried start reader outer e) (hreader : reader.location ≠ start) :
    (e.location = some start ↔ standing = outer) ∧
      (standing ≠ outer → e.location = some reader.location) := by
  cases hcarried with
  | kept =>
    cases h with
    | named h => cases h
    | bare hstanding => exact ⟨by simp [hstanding], fun hne => absurd hstanding hne⟩
  | @replaced name inner hinner =>
    cases h with
    | named h =>
      obtain rfl : inner ++ outer = standing := Option.some.inj h.calls
      simp [hreader, hinner]

end Halting

section Ending

variable {path source : String} {start : Location} {reader : Buffer}
  (h : (Buffer.ofSource path source).ending = (.unclosed start, reader))
include h

/-- The place of the quote, and what is before and behind it. -/
theorem Buffer.unclosed_place :
    ∃ before inside, source.toList = before ++ quote :: inside ∧ quote ∉ inside ∧
      start = (Location.start path).advance before :=
  ((cut_iff path source _ _).mpr ⟨rfl, (congrArg Prod.fst h).symm⟩).unclosed_place

/-- The reader that the quote left is at the end of the text. -/
theorem Buffer.unclosed_reader :
    reader.rest = [] ∧
      reader.location = (Location.start path).advance (source.toList ++ [sentinel]) := by
  have hreader : reader = (ofSource path source).drop (source.toList.length + 1) := by
    rw [← lexemes_end]
    exact (congrArg Prod.snd h).symm
  have hrest : (ofSource path source).rest = (source.toList ++ [sentinel]) ++ [] := by
    simp [ofSource]
  have hlength : source.toList.length + 1 = (source.toList ++ [sentinel]).length := by simp
  rw [hreader, hlength]
  exact ⟨rest_drop hrest, location_drop hrest⟩

theorem Buffer.unclosed_location_ne : reader.location ≠ start := by
  obtain ⟨before, inside, hsource, -, rfl⟩ := unclosed_place h
  have hmore : source.toList ++ [sentinel] = before ++ quote :: (inside ++ [sentinel]) := by
    simp [hsource]
  rw [(unclosed_reader h).2, hmore, Location.advance_append]
  exact Location.advance_ne _ _ _

/-- From where the quote left the reader, the text is finished. -/
theorem Buffer.unclosed_ending_ne : reader.ending ≠ (ofSource path source).ending := by
  have hrest := (unclosed_reader h).1
  have hscan := scan_blanks (b := reader) (by simp [hrest])
  rw [ending_of_finished hscan, h]
  simp

end Ending

/-- The run fails with what the scanner's error has become. -/
theorem Halting.OpenQuote.process {host : Host E} {m : Machine E} (hm : m.Plain)
    {path source : String} {fuel : Nat} {start : Location} {running : List String}
    (h : OpenQuote host fuel path source m start running) :
    ∃ reader e m', (Buffer.ofSource path source).ending = (.unclosed start, reader) ∧
      (host.engine (fuel + 1)).process path source m = .raised e m' ∧
      Told m.calls running { cause := .unclosedQuote, location := some start } e ∧
      Carried start reader m.calls e := by
  obtain ⟨standing, reader, hdead, rfl, hlexers, hending⟩ := h
  have hplain : (Engine.opened path source m).Plain := ⟨hm.hook, hm.action⟩
  have hengines := Halting.engine_unwinding host fuel
  have hsim := hengines.parseAll trivial hengines.rounds _ _ ⟨rfl, hplain, rfl⟩
  rw [hdead] at hsim
  generalize hlive : (host.engine fuel).parseAll _ (Engine.opened path source m) = o at hsim
  cases hsim with
  | raised inner hcalls htold =>
    have hcourse := (host.engine_runs fuel).runs_parseAll (host.engine fuel).rounds _ hplain
    rw [hlive] at hcourse
    obtain ⟨buffer, values, hl, ha⟩ := (Course.frame hcourse).exists_opened
    -- the two interpreters leave the same readers, so the course tells what the scanner did here
    obtain ⟨reader', hlexers', hsame | ⟨start', error, hending', herror, hcarried⟩⟩ :=
      hcourse.carried rfl
    · obtain ⟨rfl, -⟩ := List.cons.inj (hlexers.symm.trans hlexers')
      exact absurd hsame (Buffer.unclosed_ending_ne hending)
    · obtain ⟨hstart, rfl⟩ := Prod.mk.inj (hending.symm.trans hending')
      obtain rfl := Scan.unclosed.inj hstart
      obtain rfl := Option.some.inj herror
      exact ⟨_, _, _, hending, Exec.bind_of_raised (Engine.parseSource_of_raised _ hlive hl ha),
        htold, hcarried⟩

/-- **The place of a quote that is never closed.**  Whatever the parsing words, whenever the scanner
fails on the text that is parsed, the run fails.  The place it reports is that of the quote if and
only if no word was running there that is not running outside, whatever the brackets around it; else
it is the end of the text. -/
theorem unclosed_quote_place (host : Host E) {m : Machine E} (hm : m.Plain) {path source : String}
    {fuel : Nat} {start : Location} {running : List String}
    (h : Halting.OpenQuote host fuel path source m start running) :
    ∃ before inside e m',
      source.toList = before ++ Buffer.quote :: inside ∧ Buffer.quote ∉ inside ∧
      start = (Location.start path).advance before ∧
      (host.engine (fuel + 1)).process path source m = .raised e m' ∧
      e.kind = .unterminatedDelimiter ∧
      (e.location = some start ↔ running = m.calls) ∧
      (running ≠ m.calls → e.location =
        some ((Location.start path).advance (source.toList ++ [Buffer.sentinel]))) := by
  obtain ⟨reader, e, m', hending, hprocess, htold, hcarried⟩ := h.process hm
  obtain ⟨before, inside, hsource, hinside, hstart⟩ := Buffer.unclosed_place hending
  obtain ⟨hkept, hlost⟩ := htold.location_iff hcarried (Buffer.unclosed_location_ne hending)
  rw [(Buffer.unclosed_reader hending).2] at hlost
  exact ⟨before, inside, e, m', hsource, hinside, hstart, hprocess, hcarried.kind, hkept, hlost⟩

/-- The scanner fails on a text if a run of the interpreter that stops dead shows it. -/
theorem Halting.openQuote_of_ends {host : Host E} {fuel : Nat} {path source : String}
    {m : Machine E} {start : Location} {running : List String} (reader : Buffer)
    {o : Outcome E Unit} (ho : (engine host fuel).parseAll (engine host fuel).rounds
      (Engine.opened path source m) = o)
    (hends : (o.error?, o.machine?.map fun n => (n.calls, n.lexers)) =
      (some { cause := .unclosedQuote, location := some start },
        some (running, reader :: m.lexers)))
    (hending : (Buffer.ofSource path source).ending = (.unclosed start, reader)) :
    OpenQuote host fuel path source m start running := by
  obtain ⟨herror, hmachine⟩ := Prod.mk.inj hends
  obtain ⟨standing, rfl⟩ := Outcome.eq_raised_of_error? herror
  obtain ⟨hcalls, hlexers⟩ := Prod.mk.inj (Option.some.inj hmachine)
  exact ⟨standing, reader, ho, hcalls, hlexers, hending⟩

/-- A quote inside two brackets, at which no word is running: its place is reported. -/
theorem unclosed_quote_place_bracketed :
    Halting.OpenQuote Host.bare 8 "script.prie" "1\n[ [ \"abc" (Machine.standard (E := .bare) ())
        { path := "script.prie", line := 2, column := 5 } [] ∧
      ∃ e m', (Host.bare.engine 9).process "script.prie" "1\n[ [ \"abc" (Machine.standard ()) =
          .raised e m' ∧
        e.location = some { path := "script.prie", line := 2, column := 5 } := by
  have hopen : Halting.OpenQuote Host.bare 8 "script.prie" "1\n[ [ \"abc"
      (Machine.standard (E := .bare) ()) { path := "script.prie", line := 2, column := 5 } [] :=
    Halting.openQuote_of_ends ((Buffer.ofSource "script.prie" "1\n[ [ \"abc").drop 11) rfl
      (by decide +kernel) (by decide +kernel)
  obtain ⟨_, _, e, m', -, -, -, hprocess, -, hplace, -⟩ :=
    unclosed_quote_place Host.bare (Machine.standard_standard (E := .bare) ()).plain hopen
  exact ⟨hopen, e, m', hprocess, hplace.mpr rfl⟩

/-- The machine with a parsing word that collects source text from within a quotation. -/
def Machine.gathering (m : Machine E) : Machine E :=
  { m with
    parsingWords :=
      defaultParsingWords.insert "q" "[ \"]\" parse-until ] call stack>accum" }

/-- A quote at which `call` is running: the end of the text is reported in place of the quote. -/
theorem unclosed_quote_place_lost :
    Halting.OpenQuote Host.bare 8 "script.prie" "1 q 2\n  \"abc"
        (Machine.standard (E := .bare) ()).gathering
        { path := "script.prie", line := 2, column := 3 } ["call"] ∧
      ∃ e m', (Host.bare.engine 9).process "script.prie" "1 q 2\n  \"abc"
          (Machine.standard ()).gathering = .raised e m' ∧
        e.location = some { path := "script.prie", line := 2, column := 8 } ∧
        e.location ≠ some { path := "script.prie", line := 2, column := 3 } := by
  have hopen : Halting.OpenQuote Host.bare 8 "script.prie" "1 q 2\n  \"abc"
      (Machine.standard (E := .bare) ()).gathering
      { path := "script.prie", line := 2, column := 3 } ["call"] :=
    Halting.openQuote_of_ends ((Buffer.ofSource "script.prie" "1 q 2\n  \"abc").drop 13) rfl
      (by decide +kernel) (by decide +kernel)
  have hraised : ((Host.bare.engine 9).process "script.prie" "1 q 2\n  \"abc"
      (Machine.standard ()).gathering).error? =
        some {
          cause := .inWord "call" .unclosedQuote
          location := some { path := "script.prie", line := 2, column := 8 }
          calls := some ["call"] } := by
    decide +kernel
  obtain ⟨m', hprocess⟩ := Outcome.eq_raised_of_error? hraised
  exact ⟨hopen, _, m', hprocess, rfl, by decide⟩

end Wordstack
