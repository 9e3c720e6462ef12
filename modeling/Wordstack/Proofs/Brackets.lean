import Wordstack.Proofs.Nesting
import Wordstack.Proofs.Reading
import Wordstack.Proofs.Steps

/-!
# Brackets

A bracket is a parsing word whose definition collects the source up to the closing word into an
array.  If all parsing words are brackets, a parse agrees with reading by recursive descent
(`Forest.readTokens`), on every machine and for every text.

* `Brackets`: what is asked of the parsing words.
* `Engine.readTo`: the two loops of a parse as one, with an equation for each thing a scan can find.
* `readTo_spec`: the loop agrees with the reference, by induction on the number of tokens.
-/

namespace Wordstack

variable {E : Embedding}

/-! ### The definition of a bracket -/

/-- The definition of a bracket with a closing word. -/
def bracketDefinition (close : String) : String :=
  "\"" ++ close ++ "\" parse-until stack>accum"

/-- Every parsing word is a bracket, and `closing` gives its closing word. -/
structure Brackets (parsingWords : Table String) (closing : String → Option String) : Prop where
  definition : ∀ name, parsingWords.get? name = (closing name).map bracketDefinition
  /-- A closing word can be quoted. -/
  unquoted : ∀ name close, closing name = some close → Buffer.quote ∉ close.toList
  /-- A closing word is no literal. -/
  notLiteral : ∀ name close, closing name = some close → close ≠ "t" ∧ close ≠ "f"
  /-- The words of the definition are no brackets. -/
  notUntil : closing untilWord = none
  notCollect : closing collectWord = none

/-- The code of a bracket. -/
def bracketCode (close : String) : List Value :=
  [.string close, .word untilWord, .word collectWord]

section Definition

variable (path : String) {close : String} (h : Buffer.quote ∉ close.toList)
include h

theorem scan_definition :
    (Buffer.ofSource path (bracketDefinition close)).scan =
      (.lexeme (.quoted close),
        (Buffer.ofSource path (bracketDefinition close)).drop (close.toList.length + 2)) := by
  have hrest : (Buffer.ofSource path (bracketDefinition close)).rest =
      Buffer.quote :: close.toList ++ Buffer.quote :: " parse-until stack>accum ".toList := by
    simp [Buffer.ofSource, bracketDefinition, Buffer.quote, Buffer.sentinel]
  rw [Buffer.scan_quoted hrest h, String.ofList_toList]

/-- The tokens of a definition are the code of the bracket. -/
theorem lexemes_definition :
    (Buffer.ofSource path (bracketDefinition close)).tokens = bracketCode close ∧
      (Buffer.ofSource path (bracketDefinition close)).ending.1 = .finished := by
  have hquoted := scan_definition path h
  generalize hb :
    (Buffer.ofSource path (bracketDefinition close)).drop (close.toList.length + 2) = b at hquoted
  have hrest : b.rest = [' '] ++ 'p' :: "arse-until".toList ++ ' ' :: "stack>accum ".toList := by
    rw [← hb]
    simp [Buffer.ofSource, bracketDefinition, Buffer.sentinel]
  have huntil : b.scan = (.lexeme (.bare untilWord), b.drop 13) :=
    Buffer.scan_bare hrest (by decide) (by decide) (by decide) (by decide)
  have hrest' : (b.drop 13).rest = [] ++ 's' :: "tack>accum".toList ++ ' ' :: [] := by
    rw [Buffer.drop_rest, hrest]; rfl
  have hcollect : (b.drop 13).scan = (.lexeme (.bare collectWord), (b.drop 13).drop 12) :=
    Buffer.scan_bare hrest' (by decide) (by decide) (by decide) (by decide)
  have hend : ((b.drop 13).drop 12).rest = [] := by
    rw [Buffer.drop_rest, hrest']; rfl
  have hfinished := Buffer.scan_blanks (b := (b.drop 13).drop 12) (by rw [hend]; simp)
  constructor
  · rw [Buffer.tokens_of_lexeme hquoted, Buffer.tokens_of_lexeme huntil,
      Buffer.tokens_of_lexeme hcollect, Buffer.tokens_of_finished hfinished]
    rfl
  · rw [Buffer.ending_of_lexeme hquoted, Buffer.ending_of_lexeme huntil,
      Buffer.ending_of_lexeme hcollect, Buffer.ending_of_finished hfinished]

end Definition

/-! ### One token -/

namespace Machine

/-- The machine with one more reader, and one more accumulator with some values in it. -/
def reading (m : Machine E) (buffer : Buffer) (values : List Value) : Machine E :=
  { m with lexers := buffer :: m.lexers, accumulators := values :: m.accumulators }

/-- The machine with one more accumulator with some values in it. -/
def enclosing (m : Machine E) (values : List Value) : Machine E :=
  { m with accumulators := values :: m.accumulators }

/-- The machine with another heap. -/
def withHeap (m : Machine E) (heap : Heap) : Machine E :=
  { m with heap }

end Machine

open Exec Forest

namespace Engine

variable (engine : Engine E) {m n : Machine E} {buffer after : Buffer} {values : List Value}
  {closing : String → Option String} {close : Option String} {found : Lexeme}

theorem scan_reading : scan (m.reading buffer values) =
    .done (some buffer.scan.1) (m.reading buffer.scan.2 values) := rfl

theorem parseOne_of_lexeme (hscan : buffer.scan = (.lexeme found, after)) :
    engine.parseOne (m.reading buffer values) =
      (engine.take (.ofLexeme found) >>= fun _ => pure true) (m.reading after values) := by
  rw [parseOne, bind_of_done scan_reading, hscan]

theorem parseOne_of_finished (hscan : buffer.scan = (.finished, after)) :
    engine.parseOne (m.reading buffer values) = .done false (m.reading after values) := by
  rw [parseOne, bind_of_done scan_reading, hscan]
  rfl

theorem parseOne_of_unclosed {start : Location} (hscan : buffer.scan = (.unclosed start, after)) :
    engine.parseOne (m.reading buffer values) =
      .raised { cause := .unclosedQuote, location := some start } (m.reading after values) := by
  rw [parseOne, bind_of_done scan_reading, hscan]
  rfl

/-- A token that opens nothing is collected, as the literal it may be. -/
theorem take_of_leaf (hb : Brackets m.parsingWords closing) {token : Value}
    (hopens : opens? closing token = none) :
    engine.take token (m.reading buffer values) =
      .done () (m.reading buffer (token.asLiteral :: values)) := by
  cases token with
  | word name =>
    have hname : m.parsingWords.get? name = none := by
      rw [hb.definition name]
      exact congrArg (Option.map bracketDefinition) hopens
    have hword : (m.reading buffer values).parsingWords.get? name = none := hname
    rw [take, machine_bind]
    dsimp only
    rw [hword]
    rfl
  | _ => rfl

/-- A token that opens a group runs the definition of the bracket. -/
theorem take_of_open (hb : Brackets m.parsingWords closing) {token : Value} {inner : String}
    (hopens : opens? closing token = some inner) :
    ∃ name, closing name = some inner ∧
      engine.take token m =
        (engine.parse (definitionPath name) (bracketDefinition inner) >>= engine.executeAll) m := by
  obtain ⟨name, rfl, hclosing⟩ := exists_of_opens? hopens
  have hname : m.parsingWords.get? name = some (bracketDefinition inner) := by
    rw [hb.definition name, hclosing]
    rfl
  refine ⟨name, hclosing, ?_⟩
  rw [take, machine_bind]
  dsimp only
  rw [hname]

/-! ### The loops -/

/-- The loop of a parse, which ends with the text, or of a collection, which ends with the closing
word. -/
def readTo (close : Option String) (rounds : Nat) : Exec E Unit :=
  match close with
  | none => engine.parseAll rounds
  | some close => engine.collectUntil close rounds

theorem readTo_of_unclosed {start : Location} (hscan : buffer.scan = (.unclosed start, after))
    (rounds : Nat) :
    engine.readTo close (rounds + 1) (m.reading buffer values) =
      .raised { cause := .unclosedQuote, location := some start } (m.reading after values) := by
  cases close with
  | none => exact bind_of_raised (engine.parseOne_of_unclosed hscan)
  | some close => exact bind_of_raised (engine.parseOne_of_unclosed hscan)

theorem readTo_of_finished (hscan : buffer.scan = (.finished, after)) (rounds : Nat) :
    engine.readTo close (rounds + 1) (m.reading buffer values) =
      match close with
      | none => .done () (m.reading after values)
      | some close => .raised ((m.reading after values).error (.unclosedDelimiter close))
          (m.reading after values) := by
  cases close with
  | none => exact bind_of_done (engine.parseOne_of_finished hscan)
  | some close => exact bind_of_done (engine.parseOne_of_finished hscan)

theorem readTo_of_raised {e : Error} (hscan : buffer.scan = (.lexeme found, after))
    (htake : engine.take (.ofLexeme found) (m.reading after values) = .raised e n) (rounds : Nat) :
    engine.readTo close (rounds + 1) (m.reading buffer values) = .raised e n := by
  have hone : engine.parseOne (m.reading buffer values) = .raised e n := by
    rw [engine.parseOne_of_lexeme hscan, bind_of_raised htake]
  cases close with
  | none => exact bind_of_raised hone
  | some close => exact bind_of_raised hone

/-- After a token, the loop goes on unless the value collected last is the closing word. -/
theorem readTo_of_done {value : Value} {b : Buffer} {collected : List Value}
    (hscan : buffer.scan = (.lexeme found, after))
    (htake : engine.take (.ofLexeme found) (m.reading after values) =
      .done () (n.reading b (value :: collected))) (rounds : Nat) :
    engine.readTo close (rounds + 1) (m.reading buffer values) =
      if closes close value then .done () (n.reading b (value :: collected))
      else engine.readTo close rounds (n.reading b (value :: collected)) := by
  have hone : engine.parseOne (m.reading buffer values) =
      .done true (n.reading b (value :: collected)) := by
    rw [engine.parseOne_of_lexeme hscan, bind_of_done htake]
    rfl
  cases close with
  | none =>
    have hopen : closes none value = false := by cases value <;> rfl
    rw [hopen]
    exact bind_of_done hone
  | some close =>
    have hlast : lastCollected (n.reading b (value :: collected)) =
        .done (some value) (n.reading b (value :: collected)) := rfl
    refine (bind_of_done hone).trans ((bind_of_done hlast).trans ?_)
    cases value with
    | word last =>
      by_cases hsame : last = close
      · simp [closes, hsame, pure_apply]
      · have hsame' : ¬close = last := fun h => hsame h.symm
        simp only [closes, hsame, if_false, Option.some.injEq, hsame', decide_false,
          Bool.false_eq_true]
        rfl
    | _ => rfl

/-- A text without brackets is collected token by token. -/
theorem readTo_leaves (hb : Brackets m.parsingWords closing)
    (htokens : ∀ token ∈ buffer.tokens, opens? closing token = none)
    (hending : buffer.ending.1 = .finished) {rounds : Nat}
    (hrounds : buffer.tokens.length < rounds) :
    engine.readTo none rounds (m.reading buffer values) =
      .done () (m.reading buffer.ending.2
        ((buffer.tokens.map Value.asLiteral).reverse ++ values)) := by
  induction rounds generalizing buffer values with
  | zero => omega
  | succ rounds ih =>
    rcases hscan : buffer.scan with ⟨found | _ | start, after⟩
    · have htaken : buffer.tokens = .ofLexeme found :: after.tokens :=
        Buffer.tokens_of_lexeme hscan
      rw [htaken] at htokens hrounds
      rw [Buffer.ending_of_lexeme hscan] at hending ⊢
      have hleaf : engine.take (.ofLexeme found) (m.reading after values) =
          .done () (m.reading after ((Value.ofLexeme found).asLiteral :: values)) :=
        engine.take_of_leaf hb (htokens (.ofLexeme found) (by simp))
      have hopen : closes none (Value.ofLexeme found).asLiteral = false := by
        cases (Value.ofLexeme found).asLiteral <;> rfl
      rw [engine.readTo_of_done hscan hleaf, hopen, if_neg (by simp),
        ih (fun token h => htokens token (by simp [h])) hending (by simpa using hrounds), htaken]
      simp
    · rw [engine.readTo_of_finished hscan, Buffer.tokens_of_finished hscan,
        Buffer.ending_of_finished hscan]
      rfl
    · rw [Buffer.ending_of_unclosed hscan] at hending
      cases hending

end Engine

/-! ### One group -/

namespace Host

open Engine

variable (host : Host E) {m : Machine E} {closing : String → Option String} {name close : String}
  {buffer after : Buffer} {values elements collected : List Value} {heap : Heap} {fuel : Nat}

theorem engine_rounds (fuel : Nat) : (host.engine fuel).rounds = fuel := by
  cases fuel with
  | zero => rfl
  | succ fuel => rfl

/-- Parsing the definition of a bracket gives its code and leaves no trace. -/
theorem parse_definition (hb : Brackets m.parsingWords closing) (hclose : closing name = some close)
    (path : String) (hfuel : 4 ≤ fuel) :
    (host.engine (fuel + 1)).parse path (bracketDefinition close) m =
      .done (bracketCode close) m := by
  obtain ⟨htokens, hending⟩ := lexemes_definition path (hb.unquoted name close hclose)
  have hleaves : ∀ token ∈ (Buffer.ofSource path (bracketDefinition close)).tokens,
      opens? closing token = none := by
    rw [htokens]
    intro token htoken
    simp only [bracketCode, List.mem_cons, List.not_mem_nil, or_false] at htoken
    rcases htoken with rfl | rfl | rfl
    · rfl
    · exact hb.notUntil
    · exact hb.notCollect
  have hrounds : (Buffer.ofSource path (bracketDefinition close)).tokens.length < fuel := by
    rw [htokens]
    exact hfuel
  have hread : (host.engine fuel).readTo none fuel (m.reading _ []) = _ :=
    (host.engine fuel).readTo_leaves hb hleaves hending hrounds
  rw [htokens] at hread
  exact (host.engine fuel).parseSource_of_done (by rw [engine_rounds]; exact hread) rfl rfl

theorem performWith_until (engine : Engine E) :
    host.performWith engine untilWord = collectSource engine :=
  if_pos rfl

theorem performWith_collect (engine : Engine E) :
    host.performWith engine collectWord = collectTop := by
  rw [performWith, if_neg (by decide), if_pos rfl]

/-- The code of a bracket collects up to the closing word and puts what it collected into the
accumulator as an array. -/
theorem executeAll_bracket (m : Machine E) :
    (host.engine (fuel + 1)).executeAll (bracketCode close) m =
      ((host.engine fuel).parseUntil close >>= fun collected => do
        push (.array (← newArray collected))
        collectTop) m := by
  -- the closing word goes over the stack, which is then as it was
  have hpop : popString { m with stack := .string close :: m.stack } = .done close m := rfl
  change (host.performWith (host.engine fuel) untilWord >>= fun _ =>
    host.performWith (host.engine fuel) collectWord >>= fun _ => pure ())
      { m with stack := .string close :: m.stack } = _
  rw [performWith_until, performWith_collect, bind_pure_unit]
  simp only [collectSource, bind_assoc]
  rw [bind_of_done hpop]

theorem executeAll_bracket_of_raised {e : Error}
    (hc : (host.engine fuel).readTo (some close) fuel ((m.enclosing values).reading buffer []) =
      .raised e (((m.enclosing values).withHeap heap).reading after collected)) :
    (host.engine (fuel + 1)).executeAll (bracketCode close) (m.reading buffer values) =
      .raised e ((m.withHeap heap).reading after values) := by
  have huntil := (host.engine fuel).parseUntil_of_raised (m := m.reading buffer values)
    (List.cons_ne_nil _ _) (by rw [engine_rounds]; exact hc) rfl
  rw [executeAll_bracket, bind_of_raised huntil]
  rfl

theorem executeAll_bracket_of_done
    (hc : (host.engine fuel).readTo (some close) fuel ((m.enclosing values).reading buffer []) =
      .done () (((m.enclosing values).withHeap heap).reading after
        (.word close :: elements.reverse))) :
    (host.engine (fuel + 1)).executeAll (bracketCode close) (m.reading buffer values) =
      .done () ((m.withHeap (heap.newArray elements).2).reading after
        (.array (heap.newArray elements).1 :: values)) := by
  have huntil := (host.engine fuel).parseUntil_of_done (m := m.reading buffer values)
    (List.cons_ne_nil _ _) (by rw [engine_rounds]; exact hc) rfl
  have hcollected : (Value.word close :: elements.reverse).reverse.dropLast = elements := by simp
  rw [hcollected] at huntil
  rw [executeAll_bracket, bind_of_done huntil]
  rfl

end Host

/-! ### Agreement with the reference -/

/-- The error raised for a text that can not be read, where `place` is where the text ends and
`running` are the running words. -/
def ReadFault.error (place : Location) (running : List String) : ReadFault → Error
  | openQuote start => { cause := .unclosedQuote, location := some start }
  | missing close =>
    { cause := .unclosedDelimiter close, location := some place, calls := some running }

theorem ReadFault.error_kind (fault : ReadFault) (place : Location) (running : List String) :
    (fault.error place running).kind = .unterminatedDelimiter := by
  cases fault with
  | openQuote start => rfl
  | missing close => rfl

/-- What a collection leaves in its accumulator of the word that closed it. -/
def closingMark : Option String → List Value
  | none => []
  | some close => [.word close]

/-- With enough fuel and rounds for a number of tokens, the loop ends like this. -/
def Host.LoopEnds (host : Host E) (count : Nat) (close : Option String) (m : Machine E)
    (o : Outcome E Unit) : Prop :=
  ∀ fuel rounds, count + 4 ≤ fuel → count < rounds → (host.engine fuel).readTo close rounds m = o

/-- The loop ends as reading says, if it starts on a buffer and with some values collected.  It
builds the forest on the heap, collects its values and reads on in the buffer, and that is all it
does; if there is no forest, it may have built some groups. -/
def Agrees (host : Host E) (count : Nat) (m : Machine E) (buffer : Buffer) (values : List Value)
    (close : Option String) : Except ReadFault (Forest × List Value) → Prop
  | .ok (forest, left) => ∃ after : Buffer, after.tokens = left ∧ after.ending = buffer.ending ∧
      host.LoopEnds count close (m.reading buffer values)
        (.done () ((m.withHeap (forest.build m.heap).2).reading after
          (closingMark close ++ ((forest.build m.heap).1.reverse ++ values))))
  | .error fault => ∃ (heap : Heap) (after : Buffer) (collected : List Value), m.heap.Grows heap ∧
      host.LoopEnds count close (m.reading buffer values)
        (.raised (fault.error buffer.ending.2.location m.calls)
          ((m.withHeap heap).reading after collected))

/-- A word that closes a group is no literal, so collecting it does not change it. -/
theorem closes_asLiteral {close : Option String}
    (hclose : ∀ word, close = some word → word ≠ "t" ∧ word ≠ "f") (token : Value) :
    closes close token.asLiteral = closes close token := by
  unfold Value.asLiteral
  split
  · have : close ≠ some "t" := fun h => (hclose "t" h).1 rfl
    simp [closes, this]
  · have : close ≠ some "f" := fun h => (hclose "f" h).2 rfl
    simp [closes, this]
  · rfl

theorem closingMark_of_closes {close : Option String} {token : Value}
    (h : closes close token = true) : closingMark close = [token] := by
  cases token with
  | word name =>
    have hname : close = some name := by simpa [closes] using h
    rw [hname]
    rfl
  | _ => cases h

section Spec

open Engine

variable {host : Host E} {count fuel : Nat} {m n : Machine E} {buffer after : Buffer}
  {values : List Value} {closing : String → Option String} {close : Option String}
  {found : Lexeme} {token : Value} {inner : String} {o : Outcome E Unit}

theorem Host.LoopEnds.last
    (h : ∀ fuel rounds, count + 4 ≤ fuel → (host.engine fuel).readTo close (rounds + 1) m = o) :
    host.LoopEnds count close m o := by
  intro fuel rounds hfuel hrounds
  obtain ⟨rounds, rfl⟩ : ∃ k, rounds = k + 1 := ⟨rounds - 1, by omega⟩
  exact h fuel rounds hfuel

theorem Host.LoopEnds.next (hlater : host.LoopEnds count close n o)
    (h : ∀ fuel rounds, count + 5 ≤ fuel → (host.engine fuel).readTo close (rounds + 1) m =
      (host.engine fuel).readTo close rounds n) : host.LoopEnds (count + 1) close m o := by
  intro fuel rounds hfuel hrounds
  obtain ⟨rounds, rfl⟩ : ∃ k, rounds = k + 1 := ⟨rounds - 1, by omega⟩
  rw [h fuel rounds (by omega), hlater fuel rounds (by omega) (by omega)]

/-! #### The end of the text -/

theorem agrees_end (hscan : ∀ found, buffer.scan.1 ≠ .lexeme found) :
    Agrees host count m buffer values close
      (readTokens closing buffer.ending.1 close buffer.tokens) := by
  rcases hb : buffer.scan with ⟨found | _ | start, after⟩
  · exact absurd (congrArg Prod.fst hb) (hscan found)
  · have hending := Buffer.ending_of_finished hb
    rw [Buffer.tokens_of_finished hb, hending, readTokens_finished]
    cases close with
    | none =>
      have hagain := Buffer.scan_of_finished hb
      refine ⟨after, Buffer.tokens_of_finished hagain, ?_, .last fun fuel rounds _ => ?_⟩
      · rw [hending, Buffer.ending_of_finished hagain]
      · exact readTo_of_finished _ hb rounds
    | some close =>
      refine ⟨m.heap, after, values, .refl _, .last fun fuel rounds _ => ?_⟩
      rw [readTo_of_finished _ hb, ReadFault.error, hending]
      rfl
  · rw [Buffer.tokens_of_unclosed hb, Buffer.ending_of_unclosed hb, readTokens_unclosed]
    refine ⟨m.heap, after, values, .refl _, .last fun fuel rounds _ => ?_⟩
    exact readTo_of_unclosed _ hb rounds

/-! #### A token that opens nothing -/

section Leaf

variable (hb : Brackets m.parsingWords closing)
  (hclose : ∀ word, close = some word → word ≠ "t" ∧ word ≠ "f")
  (hscan : buffer.scan = (.lexeme found, after))
  (hopens : opens? closing (.ofLexeme found) = none)
include hb hclose hscan hopens

theorem readTo_leaf (engine : Engine E) (rounds : Nat) :
    engine.readTo close (rounds + 1) (m.reading buffer values) =
      if closes close (.ofLexeme found) then
        .done () (m.reading after ((Value.ofLexeme found).asLiteral :: values))
      else
        engine.readTo close rounds
          (m.reading after ((Value.ofLexeme found).asLiteral :: values)) := by
  rw [engine.readTo_of_done hscan (engine.take_of_leaf hb hopens), closes_asLiteral hclose]

/-- The word that closes the group. -/
theorem agrees_close (hcloses : closes close (.ofLexeme found) = true) :
    Agrees host count m buffer values close
      (readTokens closing buffer.ending.1 close buffer.tokens) := by
  have hmark : closingMark close = [(Value.ofLexeme found).asLiteral] :=
    closingMark_of_closes ((closes_asLiteral hclose _).trans hcloses)
  rw [Buffer.tokens_of_lexeme hscan, readTokens_close hopens hcloses]
  refine ⟨after, rfl, (Buffer.ending_of_lexeme hscan).symm, .last fun fuel rounds _ => ?_⟩
  rw [readTo_leaf hb hclose hscan hopens, if_pos hcloses, hmark]
  rfl

/-- Any other token that opens nothing. -/
theorem agrees_leaf (hcloses : closes close (.ofLexeme found) = false)
    (hlater : Agrees host count m after ((Value.ofLexeme found).asLiteral :: values) close
      (readTokens closing after.ending.1 close after.tokens)) :
    Agrees host (count + 1) m buffer values close
      (readTokens closing buffer.ending.1 close buffer.tokens) := by
  have hending : buffer.ending = after.ending := Buffer.ending_of_lexeme hscan
  have hnext : ∀ fuel rounds, count + 5 ≤ fuel →
      (host.engine fuel).readTo close (rounds + 1) (m.reading buffer values) =
        (host.engine fuel).readTo close rounds
          (m.reading after ((Value.ofLexeme found).asLiteral :: values)) := by
    intro fuel rounds _
    rw [readTo_leaf hb hclose hscan hopens, hcloses, if_neg (by simp)]
  rw [Buffer.tokens_of_lexeme hscan, readTokens_leaf hopens hcloses, hending]
  cases hread : readTokens closing after.ending.1 close after.tokens with
  | error fault =>
    rw [hread] at hlater
    obtain ⟨heap, b, collected, hgrows, hends⟩ := hlater
    refine ⟨heap, b, collected, hgrows, ?_⟩
    rw [hending]
    exact hends.next hnext
  | ok later =>
    rw [hread] at hlater
    obtain ⟨b, htokens, hb', hends⟩ := hlater
    refine ⟨b, htokens, hb'.trans hending.symm, ?_⟩
    have hbuild :
        ((Forest.leaf (Value.ofLexeme found).asLiteral later.1).build m.heap).1.reverse ++ values =
          (later.1.build m.heap).1.reverse ++ (Value.ofLexeme found).asLiteral :: values := by
      simp [Forest.build]
    rw [hbuild]
    exact hends.next hnext

end Leaf

/-! #### A token that opens a group -/

section Group

variable (hb : Brackets m.parsingWords closing) (hopens : opens? closing token = some inner)
  (hfuel : count + 5 ≤ fuel)
include hb hopens hfuel

/-- A token that opens a group runs the code of the bracket. -/
theorem take_open : (host.engine fuel).take token (m.reading buffer values) =
    (host.engine fuel).executeAll (bracketCode inner) (m.reading buffer values) := by
  obtain ⟨fuel, rfl⟩ : ∃ k, fuel = k + 1 := ⟨fuel - 1, by omega⟩
  have hb' : Brackets (m.reading buffer values).parsingWords closing := hb
  obtain ⟨name, hname, htake⟩ := (host.engine (fuel + 1)).take_of_open hb' hopens
  rw [htake, bind_of_done (host.parse_definition hb' hname _ (by omega))]

/-- A group that can not be read. -/
theorem take_open_of_raised {e : Error} {heap : Heap} {collected : List Value}
    (hinner : host.LoopEnds count (some inner) ((m.enclosing values).reading buffer [])
      (.raised e (((m.enclosing values).withHeap heap).reading after collected))) :
    (host.engine fuel).take token (m.reading buffer values) =
      .raised e ((m.withHeap heap).reading after values) := by
  rw [take_open hb hopens hfuel]
  obtain ⟨fuel, rfl⟩ : ∃ k, fuel = k + 1 := ⟨fuel - 1, by omega⟩
  exact host.executeAll_bracket_of_raised (hinner fuel fuel (by omega) (by omega))

/-- A group that can be read becomes an array in the accumulator. -/
theorem take_open_of_done {forest : Forest}
    (hinner : host.LoopEnds count (some inner) ((m.enclosing values).reading buffer [])
      (.done () (((m.enclosing values).withHeap (forest.build m.heap).2).reading after
        (closingMark (some inner) ++ ((forest.build m.heap).1.reverse ++ []))))) :
    (host.engine fuel).take token (m.reading buffer values) =
      .done () ((m.withHeap (forest.array m.heap).2).reading after
        (.array (forest.array m.heap).1 :: values)) := by
  rw [take_open hb hopens hfuel]
  obtain ⟨fuel, rfl⟩ : ∃ k, fuel = k + 1 := ⟨fuel - 1, by omega⟩
  have hmark : closingMark (some inner) ++ ((forest.build m.heap).1.reverse ++ []) =
      .word inner :: (forest.build m.heap).1.reverse := by simp [closingMark]
  rw [hmark] at hinner
  exact host.executeAll_bracket_of_done (hinner fuel fuel (by omega) (by omega))

end Group

/-- A group, and what comes after it. -/
theorem agrees_group (hb : Brackets m.parsingWords closing)
    (hscan : buffer.scan = (.lexeme found, after))
    (hopens : opens? closing (.ofLexeme found) = some inner)
    (hinner : Agrees host count (m.enclosing values) after [] (some inner)
      (readTokens closing after.ending.1 (some inner) after.tokens))
    (hlater : ∀ forest b,
      readTokens closing after.ending.1 (some inner) after.tokens = .ok (forest, b.tokens) →
      Agrees host count (m.withHeap (forest.array m.heap).2) b
        (.array (forest.array m.heap).1 :: values) close
        (readTokens closing b.ending.1 close b.tokens)) :
    Agrees host (count + 1) m buffer values close
      (readTokens closing buffer.ending.1 close buffer.tokens) := by
  have hending : buffer.ending = after.ending := Buffer.ending_of_lexeme hscan
  rw [Buffer.tokens_of_lexeme hscan, readTokens_open hopens, hending]
  rcases hgroup : readTokens closing after.ending.1 (some inner) after.tokens with
    fault | ⟨forest, left⟩
  · -- what is inside can not be read, so the token itself fails
    rw [hgroup] at hinner
    obtain ⟨heap, b, collected, hgrows, hends⟩ := hinner
    refine ⟨heap, b, values, hgrows, .last fun fuel rounds hfuel => ?_⟩
    rw [readTo_of_raised _ hscan (take_open_of_raised hb hopens (by omega) hends), hending]
    rfl
  · -- the group is one array in the accumulator, and the loop goes on behind it
    rw [hgroup] at hinner
    obtain ⟨b, rfl, hb', hends⟩ := hinner
    have hnext : ∀ fuel rounds, count + 5 ≤ fuel →
        (host.engine fuel).readTo close (rounds + 1) (m.reading buffer values) =
          (host.engine fuel).readTo close rounds
            ((m.withHeap (forest.array m.heap).2).reading b
              (.array (forest.array m.heap).1 :: values)) := by
      intro fuel rounds hfuel
      rw [readTo_of_done _ hscan (take_open_of_done hb hopens hfuel hends),
        if_neg (by simp [closes])]
    have hlater := hlater forest b hgroup
    rw [hb'] at hlater
    change Agrees host (count + 1) m buffer values close
      (readTokens closing after.ending.1 close b.tokens >>= fun later =>
        pure (.group forest later.1, later.2))
    cases hread : readTokens closing after.ending.1 close b.tokens with
    | error fault =>
      rw [hread] at hlater
      obtain ⟨heap, b', collected, hgrows, hends⟩ := hlater
      refine ⟨heap, b', collected, (forest.grows_array m.heap).trans hgrows, ?_⟩
      rw [hending, ← hb']
      exact hends.next hnext
    | ok later =>
      rw [hread] at hlater
      obtain ⟨b', htokens, hb'', hends⟩ := hlater
      refine ⟨b', htokens, hb''.trans (hb'.trans hending.symm), ?_⟩
      rw [build_group, List.reverse_cons, List.append_assoc]
      exact hends.next hnext

/-- **The loop agrees with the reference.**  By induction on the number of tokens: a group leaves
fewer for its own loop, which has one level of fuel less, and fewer for what comes after it. -/
theorem readTo_spec (count : Nat) {m : Machine E} {buffer : Buffer} {values : List Value}
    {close : Option String} (hb : Brackets m.parsingWords closing)
    (hclose : ∀ word, close = some word → word ≠ "t" ∧ word ≠ "f")
    (hcount : buffer.tokens.length ≤ count) :
    Agrees host count m buffer values close
      (readTokens closing buffer.ending.1 close buffer.tokens) := by
  induction count generalizing m buffer values close with
  | zero =>
    refine agrees_end fun found hfound => ?_
    have hscan : buffer.scan = (.lexeme found, buffer.scan.2) := by rw [← hfound]
    rw [Buffer.tokens_of_lexeme hscan, List.length_cons] at hcount
    omega
  | succ count ih =>
    by_cases hend : ∀ found, buffer.scan.1 ≠ .lexeme found
    · exact agrees_end hend
    obtain ⟨found, hfound⟩ : ∃ found, buffer.scan.1 = .lexeme found := by simpa using hend
    obtain ⟨after, hscan⟩ : ∃ after, buffer.scan = (.lexeme found, after) :=
      ⟨buffer.scan.2, by rw [← hfound]⟩
    have hafter : after.tokens.length ≤ count := by
      rw [Buffer.tokens_of_lexeme hscan, List.length_cons] at hcount
      omega
    cases hopens : opens? closing (.ofLexeme found) with
    | none =>
      cases hcloses : closes close (.ofLexeme found) with
      | true => exact agrees_close hb hclose hscan hopens hcloses
      | false => exact agrees_leaf hb hclose hscan hopens hcloses (ih hb hclose hafter)
    | some inner =>
      -- the closing word of the group takes the place of the one being read up to
      obtain ⟨name, -, hname⟩ := exists_of_opens? hopens
      have hinner : ∀ word, some inner = some word → word ≠ "t" ∧ word ≠ "f" := by
        rintro word ⟨⟩
        exact hb.notLiteral name inner hname
      refine agrees_group hb hscan hopens (ih hb hinner hafter) fun forest b hgroup => ?_
      have hshorter := readTokens_shorter hgroup
      exact ih hb hclose (by omega)

end Spec

/-! ### Parsing a text -/

/-- How a parse ends, given how its loop ends. -/
theorem parse_ends (host : Host E) (path source : String) {m : Machine E} {o : Outcome E Unit}
    {p : Outcome E (List Value)} {count : Nat}
    (h : host.LoopEnds count none (Engine.opened path source m) o) (hp : p ≠ .exhausted)
    (hclose : ∀ engine : Engine E, engine.parseAll engine.rounds (Engine.opened path source m) = o →
      engine.parseSource path source m = p) : host.Ends (·.parse path source) m p := by
  refine ⟨hp, count + 5, fun more hmore => ?_⟩
  obtain ⟨fuel, rfl⟩ : ∃ k, more = k + 1 := ⟨more - 1, by omega⟩
  have hloop := h fuel fuel (by omega) (by omega)
  exact hclose (host.engine fuel) (by rw [host.engine_rounds]; exact hloop)

/-- **Parsing is reading by recursive descent.**  Take any machine whose parsing words are brackets,
and any source text.  A parse of the text ends.  If the text can be read, the parse succeeds with
the values of its forest, every group being a new array of its own, and does nothing else to the
machine.  If it can not, the parse fails, the reason being a quoted text or a group that is never
closed, and all it may leave behind are arrays that nothing refers to. -/
theorem parse_brackets (host : Host E) {m : Machine E} {closing : String → Option String}
    (hb : Brackets m.parsingWords closing) (path source : String) :
    (∀ forest, Forest.ofText closing path source = .ok forest →
      ∃ values heap ids, forest.Built m.heap heap values ids ∧
        host.Ends (·.parse path source) m (.done values { m with heap })) ∧
    (∀ fault, Forest.ofText closing path source = .error fault →
      ∃ heap error, m.heap.Grows heap ∧
        error = fault.error (Buffer.ofSource path source).ending.2.location m.calls ∧
        error.kind = .unterminatedDelimiter ∧
        host.Ends (·.parse path source) m (.raised error { m with heap })) := by
  have hagrees : Agrees host _ m (.ofSource path source) [] none (readTokens closing
      (Buffer.ofSource path source).ending.1 none (Buffer.ofSource path source).tokens) :=
    readTo_spec _ hb nofun (Nat.le_refl _)
  unfold Forest.ofText
  cases hread : readTokens closing (Buffer.ofSource path source).ending.1 none
    (Buffer.ofSource path source).tokens with
  | ok reading =>
    refine ⟨fun forest hforest => ?_, nofun⟩
    obtain rfl : reading.1 = forest := Except.ok.inj hforest
    rw [hread] at hagrees
    obtain ⟨after, -, -, hends⟩ := hagrees
    obtain ⟨ids, hbuilt⟩ := reading.1.build_built m.heap
    refine ⟨_, _, ids, hbuilt, parse_ends host path source hends nofun fun engine hloop => ?_⟩
    rw [engine.parseSource_of_done hloop rfl rfl]
    simp [closingMark, Machine.reading, Machine.withHeap]
  | error fault =>
    refine ⟨nofun, fun fault' hfault => ?_⟩
    obtain rfl : fault = fault' := Except.error.inj hfault
    rw [hread] at hagrees
    obtain ⟨heap, after, collected, hgrows, hends⟩ := hagrees
    refine ⟨heap, _, hgrows, rfl, fault.error_kind _ _,
      parse_ends host path source hends nofun fun engine hloop => ?_⟩
    rw [engine.parseSource_of_raised hloop rfl rfl]
    rfl

/-! ### Square brackets -/

/-- The closing word of the bracket that every machine starts with. -/
def squareBrackets (name : String) : Option String :=
  if name = "[" then some "]" else none

theorem squareBrackets_eq_some {name close : String} (h : squareBrackets name = some close) :
    close = "]" := by
  unfold squareBrackets at h
  split at h
  · exact (Option.some.inj h).symm
  · cases h

/-- The parsing words that every machine starts with are brackets. -/
theorem brackets_default : Brackets Machine.defaultParsingWords squareBrackets where
  definition := by
    intro name
    by_cases hname : name = "["
    · subst hname
      exact Table.get?_insert_self _ _ _
    · have hget : Machine.defaultParsingWords.get? name = none :=
        Table.get?_insert_of_ne hname _ _
      rw [hget, squareBrackets, if_neg hname]
      rfl
  unquoted := by
    intro name close hclose
    rw [squareBrackets_eq_some hclose]
    decide
  notLiteral := by
    intro name close hclose
    rw [squareBrackets_eq_some hclose]
    decide
  notUntil := rfl
  notCollect := rfl

/-- A group inside a group, a literal, and a closing word that closes nothing. -/
theorem parse_brackets_nested :
    ∃ values heap ids,
      (Forest.group (.leaf (.int 1) (.group (.leaf (.bool true) .nil) .nil))
        (.leaf (.word "]") .nil)).Built {} heap values ids ∧
      Host.bare.Ends (·.parse "<input>" "[ 1 [ t ] ] ]") (Machine.new ())
        (.done values { (Machine.new () : Machine .bare) with heap }) := by
  have hread : Forest.ofText squareBrackets "<input>" "[ 1 [ t ] ] ]" =
      .ok (.group (.leaf (.int 1) (.group (.leaf (.bool true) .nil) .nil))
        (.leaf (.word "]") .nil)) := by
    have htokens : (Buffer.ofSource "<input>" "[ 1 [ t ] ] ]").tokens =
        [.word "[", .int 1, .word "[", .word "t", .word "]", .word "]", .word "]"] := by
      rfl
    have hending : (Buffer.ofSource "<input>" "[ 1 [ t ] ] ]").ending.1 = .finished := by
      decide +kernel
    rw [Forest.ofText, htokens, hending]
    simp [readTokens, readGroup, opens?, closes, squareBrackets, Value.asLiteral, bind, Except.bind,
      Except.map, pure, Except.pure]
  exact (parse_brackets Host.bare (m := Machine.new ()) brackets_default _ _).1 _ hread

end Wordstack
