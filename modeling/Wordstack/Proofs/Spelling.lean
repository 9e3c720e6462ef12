import Wordstack.Proofs.Reading

/-!
# Spelling lexemes

Lexemes written one after the other, each with a blank after it, are scanned back as they were, and
an integer written in decimal digits is read back as the integer it was.

* `Numeral.number?_toString`: the text of an integer spells that integer.
* `Text.spaced`, `Lexeme.spell`, `Lexeme.IsScannable`: texts and lexemes in writing.
* `Buffer.tokens_of_spell`: scanning finds the lexemes again.
-/

namespace Wordstack

/-! ### Integers -/

namespace Numeral

theorem digit?_of_isDigit {c : Char} (h : c.isDigit = true) :
    digit? 10 c = some (c.toNat - '0'.toNat) := by
  have hrange : 48 ≤ c.toNat ∧ c.toNat ≤ 57 := Char.isDigit_iff_toNat.mp h
  have hlt : c.toNat - '0'.toNat < 10 := by
    change c.toNat - 48 < 10
    omega
  unfold digit?
  rw [if_pos h, Option.filter_some, if_pos (decide_eq_true hlt)]

/-- Decimal digits have the value that core gives them. -/
theorem digitsValue?_of_isDigit {digits : List Char} (h : ∀ c ∈ digits, c.isDigit = true) :
    digitsValue? 10 digits = some (Nat.ofDigitChars 10 digits 0) := by
  unfold digitsValue?
  generalize 0 = start
  induction digits generalizing start with
  | nil => rfl
  | cons c digits ih =>
    have hc := digit?_of_isDigit (h c (by simp))
    rw [List.foldlM_cons, hc, Nat.ofDigitChars_cons]
    exact ih (fun d hd => h d (by simp [hd])) _

section Digits

variable {digits : List Char} (h : ∀ c ∈ digits, c.isDigit = true)
include h

theorem splitSign_of_isDigit : splitSign digits = (false, digits) := by
  unfold splitSign
  split
  · exact absurd (h '-' (by simp)) (by decide)
  · exact absurd (h '+' (by simp)) (by decide)
  · rfl

theorem splitBase_of_isDigit : splitBase digits = (10, digits) := by
  unfold splitBase
  split
  · exact absurd (h 'x' (by simp)) (by decide)
  · exact absurd (h 'b' (by simp)) (by decide)
  · exact absurd (h 'o' (by simp)) (by decide)
  · rfl

theorem underscore_notMem : '_' ∉ digits := fun hmem => absurd (h '_' hmem) (by decide)

theorem isBody_of_isDigit (hne : digits ≠ []) : isBody digits = true := by
  have hhead : digits.head? ≠ some '_' := fun hhead =>
    underscore_notMem h (List.mem_of_head? hhead)
  have hlast : digits.getLast? ≠ some '_' := fun hlast =>
    underscore_notMem h (List.mem_of_getLast? hlast)
  simp [isBody, hne, hhead, hlast]

theorem withoutUnderscores_of_isDigit : withoutUnderscores digits = digits := by
  unfold withoutUnderscores
  rw [List.filter_eq_self]
  intro c hc
  have : c ≠ '_' := fun hcu => underscore_notMem h (hcu ▸ hc)
  simpa using this

/-- A sign and decimal digits spell the integer they show, if it is in range. -/
theorem integer?_of_splitSign (hne : digits ≠ []) {text : List Char} {negative : Bool}
    (hsign : splitSign text = (negative, digits)) :
    integer? text =
      fit? (if negative then -(Nat.ofDigitChars 10 digits 0 : Int)
        else (Nat.ofDigitChars 10 digits 0 : Int)) := by
  unfold integer?
  rw [hsign]
  dsimp only
  rw [splitBase_of_isDigit h]
  dsimp only
  rw [if_pos (isBody_of_isDigit h hne), withoutUnderscores_of_isDigit h, digitsValue?_of_isDigit h]
  rfl

end Digits

theorem isDigit_of_mem_toDigits {n : Nat} : ∀ c ∈ Nat.toDigits 10 n, c.isDigit = true :=
  fun _ => Nat.isDigit_of_mem_toDigits (by decide) (by decide)

/-- An integer is written as its digits, after a minus if it is negative. -/
theorem toList_toString_int (n : Int) :
    (toString n).toList =
      if 0 ≤ n then Nat.toDigits 10 n.toNat else '-' :: Nat.toDigits 10 (-n).toNat := by
  rw [Int.toString_eq_repr, Int.repr_eq_if]
  split
  · rw [Nat.repr_eq_ofList_toDigits, String.toList_ofList]
  · simp [Nat.repr_eq_ofList_toDigits]

theorem fit?_toInt (n : Int64) : fit? n.toInt = some n := by
  unfold fit?
  rw [if_pos ⟨n.minValue_le_toInt, n.toInt_le⟩, Int64.ofInt_toInt]

theorem fit?_eq_some_iff {n : Int} {i : Int64} : fit? n = some i ↔ i.toInt = n :=
  ⟨toInt_of_fit?_eq_some, fun h => h ▸ fit?_toInt i⟩

theorem integer?_toString (n : Int64) : integer? (toString n.toInt).toList = some n := by
  rw [toList_toString_int]
  split
  · next hpos =>
    rw [integer?_of_splitSign isDigit_of_mem_toDigits Nat.toDigits_ne_nil
      (splitSign_of_isDigit isDigit_of_mem_toDigits), Nat.ofDigitChars_ten_toDigits]
    rw [if_neg Bool.false_ne_true, Int.toNat_of_nonneg hpos, fit?_toInt]
  · next hneg =>
    rw [integer?_of_splitSign isDigit_of_mem_toDigits Nat.toDigits_ne_nil rfl,
      Nat.ofDigitChars_ten_toDigits]
    rw [if_pos rfl, Int.toNat_of_nonneg (by omega), Int.neg_neg, fit?_toInt]

/-- **The text of an integer spells that integer**, whichever it is. -/
theorem number?_toString (n : Int64) : number? (toString n.toInt).toList = some (.int n) := by
  rw [number?, integer?_toString]

end Numeral

/-! ### Texts in a row -/

namespace Text

/-- Texts written in order, each with a blank after it. -/
def spaced (texts : List String) : List Char :=
  texts.flatMap fun text => text.toList ++ [Buffer.sentinel]

theorem spaced_cons (text : String) (texts : List String) :
    spaced (text :: texts) = text.toList ++ Buffer.sentinel :: spaced texts := by
  simp [spaced]

theorem spaced_append (xs ys : List String) : spaced (xs ++ ys) = spaced xs ++ spaced ys :=
  List.flatMap_append

theorem isBlank_of_isDigit {c : Char} (h : c.isDigit = true) : isBlank c = false := by
  have hdigit : 48 ≤ c.toNat ∧ c.toNat ≤ 57 := Char.isDigit_iff_toNat.mp h
  have hapart : ∀ range ∈ blankRanges, range.2 < 48 ∨ 57 < range.1 := by decide
  rw [isBlank, List.any_eq_false]
  intro range hmem hinside
  have hrange := hapart range hmem
  simp only [Bool.and_eq_true, decide_eq_true_eq] at hinside
  omega

theorem noBlank_of_all {text : List Char} (h : text.all (!isBlank ·) = true) :
    ∀ c ∈ text, isBlank c = false := by
  simpa using h

/-- Texts joined with blanks, and the blank that ends every source text. -/
theorem toList_intercalate_sentinel (texts : List String) (h : texts ≠ []) :
    (" ".intercalate texts).toList ++ [Buffer.sentinel] = spaced texts := by
  induction texts with
  | nil => exact absurd rfl h
  | cons text texts ih =>
    rw [spaced_cons]
    cases texts with
    | nil => simp [spaced]
    | cons next texts =>
      rw [String.intercalate_cons_of_ne_nil (List.cons_ne_nil _ _), ← ih (List.cons_ne_nil _ _)]
      simp [Buffer.sentinel]

end Text

/-! ### Lexemes in writing -/

namespace Lexeme

/-- How a lexeme is written. -/
def text : Lexeme → String
  | quoted text => "\"" ++ text ++ "\""
  | bare text => text

/-- A quoted text without a quote in it, or a blank-free text that does not look like one that is
quoted. -/
def IsScannable : Lexeme → Prop
  | quoted text => Buffer.quote ∉ text.toList
  | bare text => text.toList ≠ [] ∧ (∀ c ∈ text.toList, Text.isBlank c = false) ∧
      text.toList.head? ≠ some Buffer.quote

/-- The text of an integer is a bare lexeme. -/
theorem isScannable_int (n : Int) : (bare (toString n)).IsScannable := by
  have hdigits : ∀ k, ∀ c ∈ Nat.toDigits 10 k, Text.isBlank c = false := fun k c hc =>
    Text.isBlank_of_isDigit (Numeral.isDigit_of_mem_toDigits c hc)
  change (toString n).toList ≠ [] ∧ (∀ c ∈ (toString n).toList, Text.isBlank c = false) ∧
    (toString n).toList.head? ≠ some Buffer.quote
  rw [Numeral.toList_toString_int]
  split
  · refine ⟨Nat.toDigits_ne_nil, hdigits _, fun hhead => ?_⟩
    exact absurd (Numeral.isDigit_of_mem_toDigits _ (List.mem_of_head? hhead)) (by decide)
  · refine ⟨List.cons_ne_nil _ _, fun c hc => ?_, by simp [Buffer.quote]⟩
    rcases List.mem_cons.mp hc with rfl | hc
    · decide
    · exact hdigits _ c hc

/-- Lexemes written in order, each with a blank after it. -/
def spell (lexemes : List Lexeme) : List Char :=
  Text.spaced (lexemes.map text)

theorem spell_cons (lexeme : Lexeme) (lexemes : List Lexeme) :
    spell (lexeme :: lexemes) = lexeme.text.toList ++ Buffer.sentinel :: spell lexemes :=
  Text.spaced_cons lexeme.text (lexemes.map text)

theorem spell_append (xs ys : List Lexeme) : spell (xs ++ ys) = spell xs ++ spell ys := by
  rw [spell, List.map_append, Text.spaced_append]
  rfl

end Lexeme

namespace Buffer

open Lexeme

theorem isBlank_sentinel : Text.isBlank sentinel = true := by decide

/-- Blanks make no difference to a scan. -/
theorem scan_drop_blanks {b : Buffer} {blanks after : List Char} (hrest : b.rest = blanks ++ after)
    (hblanks : ∀ c ∈ blanks, Text.isBlank c = true) : (b.drop blanks.length).scan = b.scan := by
  have hskip : (b.drop blanks.length).skip Text.isBlank = b.skip Text.isBlank := by
    have hrun : b.run Text.isBlank = blanks ++ (b.drop blanks.length).run Text.isBlank := by
      rw [run, run, drop_rest, hrest, List.drop_left, List.takeWhile_append_of_pos hblanks]
    rw [skip, skip, drop_drop, hrun, List.length_append]
  unfold scan
  rw [hskip]

/-- In front of a lexeme, a scan finds it, and leaves blanks at most before what follows. -/
theorem scan_of_spell {b : Buffer} {blanks : List Char} {lexeme : Lexeme} {lexemes : List Lexeme}
    (hrest : b.rest = blanks ++ spell (lexeme :: lexemes))
    (hblanks : ∀ c ∈ blanks, Text.isBlank c = true) (hlexeme : lexeme.IsScannable) :
    ∃ after blanks', b.scan = (.lexeme lexeme, after) ∧ after.rest = blanks' ++ spell lexemes ∧
      ∀ c ∈ blanks', Text.isBlank c = true := by
  rw [spell_cons] at hrest
  cases lexeme with
  | quoted text =>
    -- the blank after the closing quote is left where it is
    have hopened : (b.drop blanks.length).rest =
        quote :: text.toList ++ quote :: (sentinel :: spell lexemes) := by
      rw [drop_rest, hrest, List.drop_left]
      simp [Lexeme.text, quote]
    refine ⟨(b.drop blanks.length).drop (text.toList.length + 2), [sentinel], ?_, ?_,
      by simp [isBlank_sentinel]⟩
    · rw [← scan_drop_blanks hrest hblanks, scan_quoted hopened hlexeme, String.ofList_toList]
    · rw [drop_rest, hopened]
      simp
  | bare text =>
    obtain ⟨hne, hword, hfirst⟩ := hlexeme
    obtain ⟨first, word, htext⟩ := List.exists_cons_of_ne_nil hne
    have hrest' : b.rest = blanks ++ first :: word ++ sentinel :: spell lexemes := by
      rw [hrest, Lexeme.text, htext, List.append_assoc]
    rw [htext] at hword hfirst
    refine ⟨b.drop (blanks.length + word.length + 2), [], ?_, ?_, by simp⟩
    · rw [scan_bare hrest' (List.all_eq_true.mpr hblanks) (by simpa using hfirst)
        (by simpa using hword) isBlank_sentinel, ← htext, String.ofList_toList]
    · have hlength : blanks.length + word.length + 2 =
          (blanks ++ first :: word ++ [sentinel]).length := by simp; omega
      have happend : blanks ++ first :: word ++ sentinel :: spell lexemes =
          (blanks ++ first :: word ++ [sentinel]) ++ spell lexemes := by simp
      rw [drop_rest, hrest', hlength, happend, List.drop_left]
      rfl

theorem scan_of_spell_nil {b : Buffer} {blanks : List Char} (hrest : b.rest = blanks ++ spell [])
    (hblanks : ∀ c ∈ blanks, Text.isBlank c = true) :
    b.scan = (.finished, b.drop b.rest.length) := by
  refine scan_blanks fun c hc => hblanks c ?_
  rw [hrest] at hc
  simpa [spell, Text.spaced] using hc

/-- **Lexemes that are written out are scanned back**, and the text ends after the last one. -/
theorem tokens_of_spell {b : Buffer} {blanks : List Char} {lexemes : List Lexeme}
    (hrest : b.rest = blanks ++ spell lexemes) (hblanks : ∀ c ∈ blanks, Text.isBlank c = true)
    (hlexemes : ∀ lexeme ∈ lexemes, lexeme.IsScannable) :
    b.tokens = lexemes.map Value.ofLexeme ∧ b.ending.1 = .finished := by
  induction lexemes generalizing b blanks with
  | nil =>
    have hscan := scan_of_spell_nil hrest hblanks
    rw [tokens_of_finished hscan, ending_of_finished hscan]
    exact ⟨rfl, rfl⟩
  | cons lexeme lexemes ih =>
    obtain ⟨after, blanks', hscan, hafter, hblanks'⟩ :=
      scan_of_spell hrest hblanks (hlexemes lexeme (by simp))
    rw [tokens_of_lexeme hscan, ending_of_lexeme hscan, List.map_cons, List.cons.injEq]
    have hlater := ih hafter hblanks' fun lexeme' hmem => hlexemes lexeme' (by simp [hmem])
    exact ⟨⟨rfl, hlater.1⟩, hlater.2⟩

end Buffer

end Wordstack
