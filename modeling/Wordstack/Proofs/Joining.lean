import Mathlib.Data.List.TakeWhile
import Wordstack.Proofs.Roundtrip

/-!
# Texts that are joined

A text that can be read, a blank, and another text that can be read make a text that can be read,
and its forest is the one of the first text followed by the one of the second.  The blank is needed:
it ends the last word of the first text.

* `Buffer.Opening`: the ways in which a text can start.
* `Buffer.Splits`, `Buffer.splits`: the tokens of a text that goes on behind a blank.
* `Forest.Reads`: what reading gives, as a relation, so that proofs go along a derivation.
* `Forest.ofText_join`: the forest of joined texts; `Forest.build_append`: its values.
-/

namespace Wordstack

/-! ### Scanning -/

namespace Buffer

/-- How a text starts, as far as a scan looks: it has blanks only, or after some blanks a quote that
is never closed, a quoted text, or a bare word. -/
inductive Opening : List Char → Prop
  | blank {blanks : List Char} (h : ∀ c ∈ blanks, Text.isBlank c = true) : Opening blanks
  | unclosed {blanks text : List Char} (h : ∀ c ∈ blanks, Text.isBlank c = true)
      (htext : quote ∉ text) : Opening (blanks ++ quote :: text)
  | quoted {blanks text : List Char} (h : ∀ c ∈ blanks, Text.isBlank c = true)
      (htext : quote ∉ text) (after : List Char) :
      Opening (blanks ++ (quote :: text ++ quote :: after))
  | bare {blanks word after : List Char} {first : Char} (h : ∀ c ∈ blanks, Text.isBlank c = true)
      (hfirst : first ≠ quote) (hword : ∀ c ∈ first :: word, Text.isBlank c = false)
      (hafter : Text.endsWord after = true) : Opening (blanks ++ (first :: word ++ after))

theorem endsWord_dropWhile (text : List Char) :
    Text.endsWord (text.dropWhile (!Text.isBlank ·)) = true := by
  have hhead := List.head?_dropWhile_not (!Text.isBlank ·) text
  cases hrest : text.dropWhile (!Text.isBlank ·) with
  | nil => rfl
  | cons c rest =>
    rw [hrest] at hhead
    simpa [Text.endsWord] using hhead

theorem opening (text : List Char) : Opening text := by
  have hsplit : text.takeWhile Text.isBlank ++ text.dropWhile Text.isBlank = text :=
    List.takeWhile_append_dropWhile
  have hblanks : ∀ c ∈ text.takeWhile Text.isBlank, Text.isBlank c = true := fun c hc =>
    List.mem_takeWhile_imp hc
  have hhead := List.head?_dropWhile_not Text.isBlank text
  rw [← hsplit]
  cases hrest : text.dropWhile Text.isBlank with
  | nil =>
    rw [List.append_nil]
    exact .blank hblanks
  | cons first rest =>
    rw [hrest] at hhead
    by_cases hquote : first = quote
    · subst hquote
      by_cases hclosed : quote ∈ rest
      · obtain ⟨body, after, rfl, hbody⟩ := List.eq_append_cons_of_mem hclosed
        exact .quoted hblanks hbody after
      · exact .unclosed hblanks hclosed
    · have hbare : first :: rest =
          first :: rest.takeWhile (!Text.isBlank ·) ++ rest.dropWhile (!Text.isBlank ·) := by
        rw [List.cons_append, List.takeWhile_append_dropWhile]
      rw [hbare]
      refine .bare hblanks hquote (fun c hc => ?_) (endsWord_dropWhile rest)
      rcases List.mem_cons.mp hc with rfl | hc
      · exact hhead
      · simpa using List.mem_takeWhile_imp hc

/-- In front of a quote that is the last one, a scan finds that it is not closed, and takes all. -/
theorem scan_unclosed {b : Buffer} {text : List Char} (hrest : b.rest = quote :: text)
    (htext : quote ∉ text) : b.scan = (.unclosed b.location, b.drop b.rest.length) := by
  have hblank : b.run Text.isBlank = [] := by
    rw [run, hrest, List.takeWhile_cons_of_neg (by decide)]
  have hskip : b.skip Text.isBlank = b := by rw [skip, hblank]; exact drop_zero b
  have hbody : (b.drop 1).run (· != quote) = text := by
    rw [run, drop_rest, hrest]
    refine List.takeWhile_eq_self_iff.mpr fun c hc => ?_
    have : c ≠ quote := fun hcq => htext (hcq ▸ hc)
    simpa using this
  have hlength : 1 + text.length = b.rest.length := by rw [hrest, List.length_cons, Nat.add_comm]
  have hexhausted : (b.drop b.rest.length).isExhausted = true := by simp [isExhausted]
  unfold scan
  rw [hskip]
  dsimp only
  rw [hbody, drop_drop, hlength]
  split
  · next hnil => simp [hrest] at hnil
  · next c _ hcons =>
    obtain rfl : quote = c := by simpa [hrest] using congrArg List.head? hcons
    rw [if_pos rfl, if_pos hexhausted]

/-- What is scanned decides the tokens and the ending. -/
theorem tokens_eq_of_scan {b b' : Buffer} (h : b.scan = b'.scan) :
    b.tokens = b'.tokens ∧ b.ending = b'.ending := by
  rw [tokens, tokens, ending, ending, lexemes_eq_of_scan h]
  exact ⟨rfl, rfl⟩

theorem rest_drop {b : Buffer} {taken tail : List Char} (hrest : b.rest = taken ++ tail) :
    (b.drop taken.length).rest = tail := by
  rw [drop_rest, hrest, List.drop_left]

/-- A text that goes on behind a blank has the tokens it would have if it ended there, and then
those of the rest, and it ends as the rest does. -/
def Splits (text : List Char) : Prop :=
  ∀ ⦃b c : Buffer⦄ ⦃blank : Char⦄ ⦃more : List Char⦄, b.rest = text ++ [sentinel] →
    (∀ start, b.ending.1 ≠ .unclosed start) → c.rest = text ++ blank :: more →
    Text.isBlank blank = true →
    c.tokens = b.tokens ++ (c.drop (text.length + 1)).tokens ∧
      c.ending = (c.drop (text.length + 1)).ending

theorem isBlank_of_mem_concat {blanks : List Char} {last : Char}
    (h : ∀ c ∈ blanks, Text.isBlank c = true) (hlast : Text.isBlank last = true) :
    ∀ c ∈ blanks ++ [last], Text.isBlank c = true := by
  intro c hc
  rcases List.mem_append.mp hc with hc | hc
  · exact h c hc
  · exact List.mem_singleton.mp hc ▸ hlast

theorem splits_blank {blanks : List Char} (h : ∀ c ∈ blanks, Text.isBlank c = true) :
    Splits blanks := by
  intro b c blank more hb _ hc hblank
  have hfinished : b.scan = (.finished, b.drop b.rest.length) :=
    scan_blanks (hb ▸ isBlank_of_mem_concat h isBlank_sentinel)
  have hrest : c.rest = blanks ++ [blank] ++ more := by simp [hc]
  have hskip := scan_drop_blanks hrest (isBlank_of_mem_concat h hblank)
  rw [List.length_append] at hskip
  rw [tokens_of_finished hfinished, List.nil_append]
  exact tokens_eq_of_scan hskip.symm

/-- A text with a quote that is never closed does not end as it should. -/
theorem splits_unclosed {blanks text : List Char} (h : ∀ c ∈ blanks, Text.isBlank c = true)
    (htext : quote ∉ text) : Splits (blanks ++ quote :: text) := by
  intro b c blank more hb hending _ _
  have hrest : b.rest = blanks ++ quote :: (text ++ [sentinel]) := by simp [hb]
  have hnot : quote ∉ text ++ [sentinel] := by
    intro hmem
    rcases List.mem_append.mp hmem with hmem | hmem
    · exact htext hmem
    · exact absurd (List.mem_singleton.mp hmem) (by decide)
  have hscan := scan_unclosed (rest_drop hrest) hnot
  rw [scan_drop_blanks hrest h] at hscan
  exact absurd (congrArg Prod.fst (ending_of_unclosed hscan)) (hending _)

/-- Behind a lexeme, the rest of the text decides. -/
theorem splits_of_lexeme (found : Lexeme) {taken after : List Char}
    (hscan : ∀ (b : Buffer) (tail : List Char), b.rest = taken ++ tail →
      b.scan = (.lexeme found, b.drop taken.length)) (hafter : Splits after) :
    Splits (taken ++ after) := by
  intro b c blank more hb hending hc hblank
  rw [List.append_assoc] at hb hc
  have hb' := hscan b _ hb
  have hc' := hscan c _ hc
  rw [ending_of_lexeme hb'] at hending
  obtain ⟨htokens, hending'⟩ := hafter (rest_drop hb) hending (rest_drop hc) hblank
  have hdrop : (c.drop taken.length).drop (after.length + 1) =
      c.drop ((taken ++ after).length + 1) := by
    rw [drop_drop, List.length_append, Nat.add_assoc]
  rw [hdrop] at htokens hending'
  rw [tokens_of_lexeme hb', tokens_of_lexeme hc', ending_of_lexeme hc', htokens, hending']
  exact ⟨rfl, rfl⟩

/-- The last word of a text takes the blank behind it with it. -/
theorem splits_of_last (found : Lexeme) {text : List Char}
    (hscan : ∀ (b : Buffer) (blank : Char) (tail : List Char), b.rest = text ++ blank :: tail →
      Text.isBlank blank = true → b.scan = (.lexeme found, b.drop (text.length + 1))) :
    Splits text := by
  intro b c blank more hb _ hc hblank
  have hb' := hscan b sentinel [] hb isBlank_sentinel
  have hc' := hscan c blank more hc hblank
  have hend : (b.drop (text.length + 1)).rest = [] := by simp [hb]
  have hfinished := scan_blanks (b := b.drop (text.length + 1)) (by rw [hend]; simp)
  rw [tokens_of_lexeme hb', tokens_of_lexeme hc', ending_of_lexeme hc',
    tokens_of_finished hfinished]
  exact ⟨rfl, rfl⟩

theorem splits_quoted {blanks text after : List Char} (h : ∀ c ∈ blanks, Text.isBlank c = true)
    (htext : quote ∉ text) (hafter : Splits after) :
    Splits (blanks ++ (quote :: text ++ quote :: after)) := by
  have hsplit : blanks ++ (quote :: text ++ quote :: after) =
      blanks ++ quote :: text ++ [quote] ++ after := by simp
  rw [hsplit]
  refine splits_of_lexeme (.quoted (String.ofList text)) (fun b tail hrest => ?_) hafter
  have hrest' : b.rest = blanks ++ (quote :: text ++ quote :: tail) := by simp [hrest]
  have hlength : (blanks ++ quote :: text ++ [quote]).length =
      blanks.length + (text.length + 2) := by simp
  rw [← scan_drop_blanks hrest' h, scan_quoted (rest_drop hrest') htext, drop_drop, hlength]

theorem splits_bare {blanks word after : List Char} {first : Char}
    (h : ∀ c ∈ blanks, Text.isBlank c = true) (hfirst : first ≠ quote)
    (hword : ∀ c ∈ first :: word, Text.isBlank c = false) (hends : Text.endsWord after = true)
    (hafter : ∀ blank rest, after = blank :: rest → Splits rest) :
    Splits (blanks ++ (first :: word ++ after)) := by
  have hall : (first :: word).all (!Text.isBlank ·) = true := by simpa using hword
  have hlength : ∀ blank : Char, (blanks ++ first :: word ++ [blank]).length =
      blanks.length + word.length + 2 := by
    intro blank
    simp
    omega
  cases after with
  | nil =>
    rw [List.append_nil]
    refine splits_of_last (.bare (String.ofList (first :: word)))
      fun b blank tail hrest hblank => ?_
    rw [scan_bare hrest (List.all_eq_true.mpr h) hfirst hall hblank, ← hlength blank,
      List.length_append]
    rfl
  | cons blank after =>
    have hsplit : blanks ++ (first :: word ++ blank :: after) =
        blanks ++ first :: word ++ [blank] ++ after := by simp
    rw [hsplit]
    refine splits_of_lexeme (.bare (String.ofList (first :: word))) (fun b tail hrest => ?_)
      (hafter blank after rfl)
    rw [List.append_assoc _ [blank]] at hrest
    rw [scan_bare hrest (List.all_eq_true.mpr h) hfirst hall hends, hlength]

/-- **Every text splits at a blank.**  By induction on the length of the text up to the blank. -/
theorem splits (text : List Char) : Splits text := by
  induction hlength : text.length using Nat.strong_induction_on generalizing text with
  | _ length ih =>
    subst hlength
    cases opening text with
    | blank h => exact splits_blank h
    | unclosed h htext => exact splits_unclosed h htext
    | quoted h htext after =>
      exact splits_quoted h htext (ih after.length (by simp; omega) after rfl)
    | bare h hfirst hword hends =>
      refine splits_bare h hfirst hword hends fun blank rest hafter => ?_
      exact ih rest.length (by simp [hafter]; omega) rest rfl

/-- **Joined texts** have the tokens of the first and then those of the second, if neither ends in a
quote that is never closed, and then the joined text does not either. -/
theorem tokens_join (path : String) {pathA pathB a ws b : String} (hne : ws.toList ≠ [])
    (hws : ∀ c ∈ ws.toList, Text.isBlank c = true)
    (ha : ∀ start, (ofSource pathA a).ending.1 ≠ .unclosed start)
    (hb : ∀ start, (ofSource pathB b).ending.1 ≠ .unclosed start) :
    (ofSource path (a ++ ws ++ b)).tokens = (ofSource pathA a).tokens ++ (ofSource pathB b).tokens ∧
      ∀ start, (ofSource path (a ++ ws ++ b)).ending.1 ≠ .unclosed start := by
  obtain ⟨blank, blanks, hcons⟩ := List.exists_cons_of_ne_nil hne
  rw [hcons] at hws
  generalize hjoined : ofSource path (a ++ ws ++ b) = c
  have hc : c.rest = a.toList ++ blank :: (blanks ++ (b.toList ++ [sentinel])) := by
    rw [← hjoined]
    simp [ofSource, hcons]
  obtain ⟨htokens, hending⟩ := splits a.toList rfl ha hc (hws blank (by simp))
  -- the other blanks make no difference
  have hrest : (c.drop (a.toList.length + 1)).rest = blanks ++ (b.toList ++ [sentinel]) := by
    simp [hc]
  obtain ⟨htokens', hending'⟩ :=
    tokens_eq_of_scan (scan_drop_blanks hrest fun c hc => hws c (by simp [hc]))
  -- the second text is the same here as on its own, where nothing follows it
  generalize hd : (c.drop (a.toList.length + 1)).drop blanks.length = d at htokens' hending'
  have hrest' : d.rest = b.toList ++ [sentinel] := by rw [← hd, rest_drop hrest]
  obtain ⟨htokens'', hending''⟩ := splits b.toList rfl hb hrest' isBlank_sentinel
  have hend : (d.drop (b.toList.length + 1)).rest = [] := by simp [hrest']
  have hfinished := scan_blanks (b := d.drop _) (by rw [hend]; simp)
  constructor
  · rw [htokens, ← htokens', htokens'', tokens_of_finished hfinished, List.append_nil]
  · rw [hending, ← hending', hending'', ending_of_finished hfinished]
    simp

end Buffer

/-! ### Reading -/

namespace Forest

variable {closing : String → Option String} {ending : Scan} {close : Option String}
  {tokens rest : List Value} {forest : Forest}

/-- Reading the group that `close` closes gives a forest and leaves the rest, as in `readTokens`. -/
inductive Reads (closing : String → Option String) (ending : Scan) :
    Option String → List Value → Forest → List Value → Prop
  | finish (h : ∀ start, ending ≠ .unclosed start) : Reads closing ending none [] .nil []
  | close {close : Option String} {token : Value} (hopens : opens? closing token = none)
      (hcloses : closes close token = true) (tokens : List Value) :
      Reads closing ending close (token :: tokens) .nil tokens
  | leaf {close : Option String} {token : Value} {tokens rest : List Value} {later : Forest}
      (hopens : opens? closing token = none) (hcloses : closes close token = false)
      (hlater : Reads closing ending close tokens later rest) :
      Reads closing ending close (token :: tokens) (.leaf token.asLiteral later) rest
  | group {close : Option String} {token : Value} {name : String} {tokens left rest : List Value}
      {inner later : Forest} (hopens : opens? closing token = some name)
      (hinner : Reads closing ending (some name) tokens inner left)
      (hlater : Reads closing ending close left later rest) :
      Reads closing ending close (token :: tokens) (.group inner later) rest

theorem closes_none (token : Value) : closes none token = false := by
  cases token <;> rfl

theorem readTokens_nil (h : ∀ start, ending ≠ .unclosed start) :
    readTokens closing ending close [] =
      match close with
      | some close => .error (.missing close)
      | none => .ok (.nil, []) := by
  cases ending with
  | unclosed start => exact absurd rfl (h start)
  | finished => exact readTokens_finished
  | lexeme found => cases close <;> simp [readTokens, readGroup, Except.map]

/-- What `readTokens` gives, along its recursion. -/
theorem reads_of_readTokens (h : readTokens closing ending close tokens = .ok (forest, rest)) :
    Reads closing ending close tokens forest rest := by
  induction hlength : tokens.length using Nat.strong_induction_on
    generalizing close tokens forest rest with
  | _ length ih =>
    subst hlength
    cases tokens with
    | nil =>
      by_cases hunclosed : ∃ start, ending = .unclosed start
      · obtain ⟨start, rfl⟩ := hunclosed
        rw [readTokens_unclosed] at h
        cases h
      · have hends : ∀ start, ending ≠ .unclosed start := fun start heq => hunclosed ⟨start, heq⟩
        rw [readTokens_nil hends] at h
        cases close with
        | some close => cases h
        | none =>
          obtain ⟨rfl, rfl⟩ := Prod.mk.inj (Except.ok.inj h)
          exact .finish hends
    | cons token tokens =>
      cases hopens : opens? closing token with
      | some name =>
        rw [readTokens_open hopens] at h
        rcases hinner : readTokens closing ending (some name) tokens with fault | ⟨inner, left⟩
        · rw [hinner] at h
          cases h
        rw [hinner] at h
        change (readTokens closing ending close left >>= _) = _ at h
        rcases hlater : readTokens closing ending close left with fault | ⟨later, rest'⟩
        · rw [hlater] at h
          cases h
        rw [hlater] at h
        obtain ⟨rfl, rfl⟩ := Prod.mk.inj (Except.ok.inj h)
        have hshorter := readTokens_shorter hinner
        exact .group hopens (ih tokens.length (by simp) hinner rfl)
          (ih left.length (by simp; omega) hlater rfl)
      | none =>
        cases hcloses : closes close token with
        | true =>
          rw [readTokens_close hopens hcloses] at h
          obtain ⟨rfl, rfl⟩ := Prod.mk.inj (Except.ok.inj h)
          exact .close hopens hcloses tokens
        | false =>
          rw [readTokens_leaf hopens hcloses] at h
          rcases hlater : readTokens closing ending close tokens with fault | ⟨later, rest'⟩
          · rw [hlater] at h
            cases h
          rw [hlater] at h
          obtain ⟨rfl, rfl⟩ := Prod.mk.inj (Except.ok.inj h)
          exact .leaf hopens hcloses (ih tokens.length (by simp) hlater rfl)

namespace Reads

theorem readTokens (h : Reads closing ending close tokens forest rest) :
    readTokens closing ending close tokens = .ok (forest, rest) := by
  induction h with
  | finish h => exact readTokens_nil h
  | close hopens hcloses tokens => exact readTokens_close hopens hcloses
  | leaf hopens hcloses _ ih =>
    rw [readTokens_leaf hopens hcloses, ih]
    rfl
  | group hopens _ _ ihinner ihlater =>
    rw [readTokens_open hopens, ihinner]
    change (Forest.readTokens closing ending _ _ >>= _) = _
    rw [ihlater]
    rfl

/-- Outside of any group, reading ends with the text, which has no quote left open. -/
theorem ne_unclosed (h : Reads closing ending none tokens forest rest) :
    ∀ start, ending ≠ .unclosed start := by
  generalize hclose : none = close at h
  induction h with
  | finish h => exact h
  | close _ hcloses =>
    rw [← hclose, closes_none] at hcloses
    cases hcloses
  | leaf _ _ _ ih => exact ih hclose
  | group _ _ _ _ ihlater => exact ihlater hclose

/-- How the text ends makes no difference, as long as it has no quote left open. -/
theorem withEnding {ending' : Scan} (h : Reads closing ending close tokens forest rest)
    (hending : ∀ start, ending' ≠ .unclosed start) :
    Reads closing ending' close tokens forest rest := by
  induction h with
  | finish => exact .finish hending
  | close hopens hcloses tokens => exact .close hopens hcloses tokens
  | leaf hopens hcloses _ ih => exact .leaf hopens hcloses ih
  | group hopens _ _ ihinner ihlater => exact .group hopens ihinner ihlater

/-- What follows a group makes no difference to it, and is left over. -/
theorem append_rest {name : String} (h : Reads closing ending (some name) tokens forest rest)
    (ending' : Scan) (more : List Value) :
    Reads closing ending' (some name) (tokens ++ more) forest (rest ++ more) := by
  generalize hclose : some name = close at h ⊢
  induction h generalizing name with
  | finish => cases hclose
  | close hopens hcloses tokens => exact .close hopens hcloses (tokens ++ more)
  | leaf hopens hcloses _ ih => exact .leaf hopens hcloses (ih hclose)
  | group hopens _ _ ihinner ihlater => exact .group hopens (ihinner rfl) (ihlater hclose)

end Reads

/-- One forest after the other. -/
def append : Forest → Forest → Forest
  | nil, other => other
  | leaf value rest, other => leaf value (rest.append other)
  | group inner rest, other => group inner (rest.append other)

/-- Tokens that are read in full, and then others, give one forest after the other. -/
theorem Reads.append {ending' : Scan} {tokens' rest' : List Value} {forest' : Forest}
    (h : Reads closing ending none tokens forest rest)
    (h' : Reads closing ending' none tokens' forest' rest') :
    Reads closing ending' none (tokens ++ tokens') (forest.append forest') rest' := by
  generalize hclose : none = close at h
  induction h with
  | finish => exact h'
  | close _ hcloses =>
    rw [← hclose, closes_none] at hcloses
    cases hcloses
  | leaf hopens hcloses _ ih =>
    subst hclose
    exact .leaf hopens hcloses (ih rfl)
  | group hopens hinner _ _ ihlater =>
    subst hclose
    exact .group hopens (hinner.append_rest ending' tokens') (ihlater rfl)

theorem ofText_eq_ok_iff {path source : String} :
    ofText closing path source = .ok forest ↔
      ∃ rest, Reads closing (Buffer.ofSource path source).ending.1 none
        (Buffer.ofSource path source).tokens forest rest := by
  unfold ofText
  constructor
  · intro h
    rcases hread : readTokens closing (Buffer.ofSource path source).ending.1 none
      (Buffer.ofSource path source).tokens with fault | ⟨forest', rest⟩
    · rw [hread] at h
      cases h
    · rw [hread] at h
      obtain rfl : forest' = forest := Except.ok.inj h
      exact ⟨rest, reads_of_readTokens hread⟩
  · rintro ⟨rest, h⟩
    rw [h.readTokens]
    rfl

/-- **Joined texts are read as one forest after the other.** -/
theorem ofText_join (path : String) {pathA pathB a ws b : String} (hne : ws.toList ≠ [])
    (hws : ∀ c ∈ ws.toList, Text.isBlank c = true) {forest forest' : Forest}
    (ha : ofText closing pathA a = .ok forest) (hb : ofText closing pathB b = .ok forest') :
    ofText closing path (a ++ ws ++ b) = .ok (forest.append forest') := by
  obtain ⟨rest, ha⟩ := ofText_eq_ok_iff.mp ha
  obtain ⟨rest', hb⟩ := ofText_eq_ok_iff.mp hb
  obtain ⟨htokens, hending⟩ := Buffer.tokens_join path hne hws ha.ne_unclosed hb.ne_unclosed
  refine ofText_eq_ok_iff.mpr ⟨rest', ?_⟩
  rw [htokens]
  exact ha.append (hb.withEnding hending)

/-- The forest that comes first is built first. -/
theorem build_append (forest forest' : Forest) (heap : Heap) :
    (forest.append forest').build heap =
      ((forest.build heap).1 ++ (forest'.build (forest.build heap).2).1,
        (forest'.build (forest.build heap).2).2) := by
  induction forest generalizing heap with
  | nil => rfl
  | leaf value rest ih => simp only [append, build, ih, List.cons_append]
  | group inner rest _ ih => simp only [append, build, ih, List.cons_append]

/-! ### Leaves -/

/-- Every leaf, inside groups too, has a property. -/
def Leaves (P : Value → Prop) : Forest → Prop
  | nil => True
  | leaf value rest => P value ∧ rest.Leaves P
  | group inner rest => inner.Leaves P ∧ rest.Leaves P

/-- Leaves are tokens, read as the literals they may be. -/
theorem Reads.leaves {P : Value → Prop} (h : Reads closing ending close tokens forest rest)
    (hP : ∀ token ∈ tokens, P token.asLiteral) :
    forest.Leaves P ∧ ∀ token ∈ rest, P token.asLiteral := by
  induction h with
  | finish => exact ⟨trivial, hP⟩
  | close => exact ⟨trivial, fun token hmem => hP token (by simp [hmem])⟩
  | leaf _ _ _ ih =>
    obtain ⟨hlater, hrest⟩ := ih fun token hmem => hP token (by simp [hmem])
    exact ⟨⟨hP _ (by simp), hlater⟩, hrest⟩
  | group _ _ _ ihinner ihlater =>
    obtain ⟨hinner, hleft⟩ := ihinner fun token hmem => hP token (by simp [hmem])
    obtain ⟨hlater, hrest⟩ := ihlater hleft
    exact ⟨⟨hinner, hlater⟩, hrest⟩

end Forest

end Wordstack
