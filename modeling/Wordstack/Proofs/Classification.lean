import Mathlib.Data.List.Forall2
import Mathlib.Data.Nat.Digits.Defs
import Wordstack.Proofs.Spelling
import Wordstack.Value.Basic

/-!
# Which texts are numbers

The grammar of integers and floats, stated with relations that say nothing of how a text is cut
apart, and the proof that the readers accept exactly that grammar and give the value it assigns.

* `Denotes`: a row of digits and its positional value.
* `SpellsInteger`, `SpellsFloat`: the texts of integers and of floats.
* `integer?_eq_some_iff`, `float?_eq_some_iff`: the readers against the grammar.
* `text_classified`: every bare text is an integer, or else a float, or else a word.
-/

namespace Wordstack

namespace Numeral

/-! ### The grammar -/

/-- A character is the digit `d` of a base, a letter in either case. -/
def IsDigit (base : Nat) (c : Char) (d : Nat) : Prop :=
  d < base ∧ (c = d.digitChar ∨ c = d.digitChar.toUpper)

/-- A row of digits, most significant first, and its positional value. -/
def Denotes (base : Nat) (text : List Char) (n : Nat) : Prop :=
  ∃ digits, List.Forall₂ (IsDigit base) text digits ∧ n = Nat.ofDigits base digits.reverse

/-- An optional sign and what follows it; the flag says whether it is a minus. -/
inductive Signed : List Char → Bool → List Char → Prop
  | bare (rest : List Char) : Signed rest false rest
  | plus (rest : List Char) : Signed ('+' :: rest) false rest
  | minus (rest : List Char) : Signed ('-' :: rest) true rest

/-- An optional base mark and what follows it. -/
inductive Marked : List Char → Nat → List Char → Prop
  | decimal (body : List Char) : Marked body 10 body
  | hexadecimal (body : List Char) : Marked ('0' :: 'x' :: body) 16 body
  | binary (body : List Char) : Marked ('0' :: 'b' :: body) 2 body
  | octal (body : List Char) : Marked ('0' :: 'o' :: body) 8 body

/-- Digits with underscores between them, and the value of the digits. -/
structure Body (base : Nat) (body : List Char) (n : Nat) : Prop where
  ne_nil : body ≠ []
  head : body.head? ≠ some '_'
  last : body.getLast? ≠ some '_'
  denotes : Denotes base (body.filter (· != '_')) n

/-- A text that spells an integer, of any size. -/
inductive SpellsInteger : List Char → Int → Prop
  | intro {text unsigned body : List Char} {negative : Bool} {base n : Nat}
      (sign : Signed text negative unsigned) (mark : Marked unsigned base body)
      (digits : Body base body n) :
      SpellsInteger text (if negative then -(n : Int) else n)

/-- An optional point with any number of digits after it. -/
inductive Pointed : List Char → List Char → Prop
  | none : Pointed [] []
  | point (fraction : List Char) : Pointed ('.' :: fraction) fraction

/-- An optional exponent: a mark, an optional sign and at least one digit. -/
inductive Raised : List Char → Int → Prop
  | none : Raised [] 0
  | mark {mark : Char} {text digits : List Char} {negative : Bool} {n : Nat}
      (hmark : mark = 'e' ∨ mark = 'E') (sign : Signed text negative digits)
      (ne_nil : digits ≠ []) (denotes : Denotes 10 digits n) :
      Raised (mark :: text) (if negative then -(n : Int) else n)

/-- An unsigned decimal: at least one digit, an optional fraction and an optional exponent.  Which
texts these are is said here from scratch, but not which double each denotes, as arithmetic on
doubles has no theory: `Decimal.toFloat` stands for the reader of doubles, which is taken to give
the nearest one. -/
inductive SpellsDecimal : List Char → Float → Prop
  | intro {whole point fraction power : List Char} {n : Nat} {exponent : Int}
      (ne_nil : whole ≠ []) (pointed : Pointed point fraction)
      (denotes : Denotes 10 (whole ++ fraction) n) (raised : Raised power exponent) :
      SpellsDecimal (whole ++ point ++ power) (Decimal.toFloat n (exponent - fraction.length))

/-- A text that spells a float. -/
inductive SpellsFloat : List Char → Float → Prop
  | intro {text body : List Char} {negative : Bool} {x : Float}
      (sign : Signed text negative body) (chars : ∀ c ∈ body, c.isDigit ∨ c ∈ ".eE_+-".toList)
      (head : ∃ c ∈ body.head?, c.isDigit) (last : ∃ c ∈ body.getLast?, c.isDigit)
      (decimal : SpellsDecimal (body.filter (· != '_')) x) :
      SpellsFloat text (if negative then -x else x)

/-! ### Digits -/

theorem digit?_sixteen (base : Nat) (hbase : base ≤ 16) (c : Char) :
    digit? base c = (digit? 16 c).filter (· < base) := by
  have hand : ∀ d, (decide (d < 16) && decide (d < base)) = decide (d < base) := by grind
  simp only [digit?, Option.filter_filter, hand]

theorem lt_of_digit?_eq_some {c : Char} {d : Nat} (h : digit? 16 c = some d) : c.toNat < 128 := by
  unfold digit? at h
  rw [Option.filter_eq_some_iff] at h
  obtain ⟨h, -⟩ := h
  split at h
  · next hdigit =>
    exact lt_of_le_of_lt (Char.isDigit_iff_toNat.mp hdigit).2 (by decide)
  · split at h
    · next hlower => exact lt_of_le_of_lt hlower.2 (by decide)
    · split at h
      · next hupper => exact lt_of_le_of_lt hupper.2 (by decide)
      · contradiction

/-- The digits up to sixteen are those that are listed. -/
theorem digit?_sixteen_eq_some_iff {c : Char} {d : Nat} :
    digit? 16 c = some d ↔ IsDigit 16 c d := by
  constructor
  · -- a digit is one of the first 128 characters, and these can be checked one by one
    intro h
    have hascii : ∀ n < 128, ∀ d ∈ digit? 16 (Char.ofNat n), d < 16 ∧
        (Char.ofNat n = d.digitChar ∨ Char.ofNat n = d.digitChar.toUpper) := by
      decide +kernel
    have hc := hascii c.toNat (lt_of_digit?_eq_some h) d
    rw [Char.ofNat_toNat] at hc
    exact hc h
  · rintro ⟨hd, rfl | rfl⟩
    · revert d
      decide
    · revert d
      decide

theorem digit?_eq_some_iff {base : Nat} (hbase : base ≤ 16) {c : Char} {d : Nat} :
    digit? base c = some d ↔ IsDigit base c d := by
  rw [digit?_sixteen base hbase, Option.filter_eq_some_iff, digit?_sixteen_eq_some_iff]
  grind [IsDigit]

theorem ofDigits_reverse (base : Nat) (digits : List Nat) :
    Nat.ofDigits base digits.reverse = digits.foldl (fun n d => base * n + d) 0 := by
  rw [Nat.ofDigits_eq_foldr, List.foldr_reverse]
  congr
  funext n d
  exact Nat.add_comm _ _

theorem digitsValue?_eq_some_iff {base : Nat} (hbase : base ≤ 16) {text : List Char} {n : Nat} :
    digitsValue? base text = some n ↔ Denotes base text n := by
  simp only [Denotes, ofDigits_reverse, digitsValue?]
  generalize 0 = start
  induction text generalizing start with
  | nil => simp [eq_comm]
  | cons c text ih =>
    rw [List.foldlM_cons]
    constructor
    · intro h
      obtain ⟨next, hnext, hrest⟩ := Option.bind_eq_some_iff.mp h
      obtain ⟨d, hd, rfl⟩ := Option.map_eq_some_iff.mp hnext
      obtain ⟨digits, hdigits, hn⟩ := (ih _).mp hrest
      exact ⟨d :: digits, .cons ((digit?_eq_some_iff hbase).mp hd) hdigits, hn⟩
    · rintro ⟨_, hdigits, hn⟩
      cases hdigits with
      | cons hd hdigits =>
        rw [(digit?_eq_some_iff hbase).mpr hd]
        exact (ih _).mpr ⟨_, hdigits, hn⟩

/-- Every character of a row of digits is a digit. -/
theorem Denotes.digit? {base : Nat} (hbase : base ≤ 16) {text : List Char} {n : Nat}
    (h : Denotes base text n) {c : Char} (hc : c ∈ text) : (digit? base c).isSome := by
  obtain ⟨digits, hdigits, -⟩ := h
  induction hdigits with
  | nil => contradiction
  | cons hd _ ih =>
    rcases List.mem_cons.mp hc with rfl | hc
    · rw [(digit?_eq_some_iff hbase).mpr hd]
      rfl
    · exact ih hc

theorem isDigit_of_digit?_ten {c : Char} (h : (digit? 10 c).isSome) : c.isDigit = true := by
  obtain ⟨d, hd⟩ := Option.isSome_iff_exists.mp h
  have hten : ∀ d < 10, d.digitChar.isDigit ∧ d.digitChar.toUpper.isDigit := by decide
  obtain ⟨hlt, rfl | rfl⟩ := (digit?_eq_some_iff (by decide)).mp hd
  · exact (hten d hlt).1
  · exact (hten d hlt).2

/-! ### Integers -/

theorem signed_splitSign (text : List Char) :
    Signed text (splitSign text).1 (splitSign text).2 := by
  unfold splitSign
  split
  · exact .minus _
  · exact .plus _
  · exact .bare _

/-- A sign is split off where a digit follows, or nothing. -/
theorem Signed.splitSign_eq {text rest : List Char} {negative : Bool}
    (h : Signed text negative rest) (hrest : ∀ c ∈ rest.head?, c.isDigit = true) :
    splitSign text = (negative, rest) := by
  cases h with
  | bare =>
    unfold splitSign
    split
    · exact absurd (hrest '-' rfl) (by decide)
    · exact absurd (hrest '+' rfl) (by decide)
    · rfl
  | plus => rfl
  | minus => rfl

theorem marked_splitBase (text : List Char) :
    Marked text (splitBase text).1 (splitBase text).2 := by
  unfold splitBase
  split
  · exact .hexadecimal _
  · exact .binary _
  · exact .octal _
  · exact .decimal _

theorem Marked.base_le {text body : List Char} {base : Nat} (h : Marked text base body) :
    base ≤ 16 := by
  cases h <;> decide

theorem Body.digit_of_mem {base : Nat} (hbase : base ≤ 16) {body : List Char} {n : Nat}
    (h : Body base body n) {c : Char} (hc : c ∈ body) (hunder : c ≠ '_') :
    (digit? base c).isSome :=
  h.denotes.digit? hbase (List.mem_filter.mpr ⟨hc, by simpa using hunder⟩)

/-- A base mark is split off, since without one the letter in it is no digit. -/
theorem Marked.splitBase_eq {text body : List Char} {base n : Nat} (h : Marked text base body)
    (hbody : Body base body n) : splitBase text = (base, body) := by
  cases h with
  | decimal =>
    have hdigit (c : Char) := hbody.digit_of_mem (by decide) (c := c)
    unfold splitBase
    split
    · exact absurd (hdigit 'x' (by simp) (by decide)) (by decide)
    · exact absurd (hdigit 'b' (by simp) (by decide)) (by decide)
    · exact absurd (hdigit 'o' (by simp) (by decide)) (by decide)
    · rfl
  | hexadecimal => rfl
  | binary => rfl
  | octal => rfl

/-- Digits open with a digit, and so does a base mark. -/
theorem Marked.isDigit_head {text body : List Char} {base n : Nat} (h : Marked text base body)
    (hbody : Body base body n) : ∀ c ∈ text.head?, c.isDigit = true := by
  intro c hc
  cases h with
  | decimal =>
    have hunder : c ≠ '_' := fun heq => hbody.head (heq ▸ hc)
    exact isDigit_of_digit?_ten (hbody.digit_of_mem (by decide) (List.mem_of_head? hc) hunder)
  | hexadecimal | binary | octal =>
    cases hc
    rfl

theorem isBody_iff {body : List Char} :
    isBody body = true ↔ body ≠ [] ∧ body.head? ≠ some '_' ∧ body.getLast? ≠ some '_' := by
  simp [isBody, and_assoc]

/-- **The integer reader accepts exactly the integers in range**, with their values. -/
theorem integer?_eq_some_iff {text : List Char} {v : Int64} :
    integer? text = some v ↔ SpellsInteger text v.toInt := by
  constructor
  · intro h
    unfold integer? at h
    dsimp only at h
    split at h
    · next hbody =>
      obtain ⟨n, hn, hfit⟩ := Option.bind_eq_some_iff.mp h
      have hmark := marked_splitBase (splitSign text).2
      rw [fit?_eq_some_iff.mp hfit]
      obtain ⟨hne, hhead, hlast⟩ := isBody_iff.mp hbody
      exact .intro (signed_splitSign text) hmark
        ⟨hne, hhead, hlast, (digitsValue?_eq_some_iff hmark.base_le).mp hn⟩
    · contradiction
  · intro h
    generalize hvalue : v.toInt = value at h
    cases h with
    | intro sign mark digits =>
      unfold integer?
      rw [sign.splitSign_eq (mark.isDigit_head digits)]
      dsimp only
      rw [mark.splitBase_eq digits]
      dsimp only
      rw [if_pos (isBody_iff.mpr ⟨digits.ne_nil, digits.head, digits.last⟩)]
      exact Option.bind_eq_some_iff.mpr
        ⟨_, (digitsValue?_eq_some_iff mark.base_le).mpr digits.denotes, fit?_eq_some_iff.mpr hvalue⟩

/-! ### Floats -/

/-- Decimal digits are the characters that core calls digits. -/
theorem denotes_ten_iff {text : List Char} {n : Nat} :
    Denotes 10 text n ↔ (∀ c ∈ text, c.isDigit = true) ∧ Decimal.digitsValue text = n := by
  constructor
  · intro h
    have hdigits : ∀ c ∈ text, c.isDigit = true := fun c hc =>
      isDigit_of_digit?_ten (h.digit? (by decide) hc)
    have hvalue := (digitsValue?_eq_some_iff (by decide)).mpr h
    rw [digitsValue?_of_isDigit hdigits] at hvalue
    exact ⟨hdigits, Option.some.inj hvalue⟩
  · rintro ⟨hdigits, rfl⟩
    exact (digitsValue?_eq_some_iff (by decide)).mp (digitsValue?_of_isDigit hdigits)

theorem exponentDigits?_eq (text : List Char) :
    Decimal.exponentDigits? text =
      if !(splitSign text).2.isEmpty && (splitSign text).2.all Char.isDigit then
        some (if (splitSign text).1 then -(Decimal.digitsValue (splitSign text).2 : Int)
          else Decimal.digitsValue (splitSign text).2)
      else none := by
  simp only [Decimal.exponentDigits?, splitSign]
  split <;> simp

theorem exponentDigits?_eq_some_iff {text : List Char} {exponent : Int} :
    Decimal.exponentDigits? text = some exponent ↔
      ∃ negative digits n, Signed text negative digits ∧ digits ≠ [] ∧ Denotes 10 digits n ∧
        exponent = if negative then -(n : Int) else n := by
  rw [exponentDigits?_eq, Option.ite_none_right_eq_some, Option.some.injEq, Bool.and_eq_true,
    Bool.not_eq_true', List.isEmpty_eq_false_iff, List.all_eq_true]
  constructor
  · rintro ⟨⟨hne, hall⟩, hexponent⟩
    exact ⟨_, _, _, signed_splitSign text, hne, denotes_ten_iff.mpr ⟨hall, rfl⟩, hexponent.symm⟩
  · rintro ⟨negative, digits, n, hsign, hne, hdenotes, rfl⟩
    obtain ⟨hall, rfl⟩ := denotes_ten_iff.mp hdenotes
    rw [hsign.splitSign_eq fun c hc => hall c (List.mem_of_head? hc)]
    exact ⟨⟨hne, hall⟩, rfl⟩

theorem exponent?_eq_some_iff {text : List Char} {exponent : Int} :
    Decimal.exponent? text = some exponent ↔ Raised text exponent := by
  have hmarked {mark : Char} {rest : List Char} (hmark : mark = 'e' ∨ mark = 'E') :
      Decimal.exponentDigits? rest = some exponent → Raised (mark :: rest) exponent := by
    rw [exponentDigits?_eq_some_iff]
    rintro ⟨negative, digits, n, hsign, hne, hdenotes, rfl⟩
    exact .mark hmark hsign hne hdenotes
  constructor
  · intro h
    unfold Decimal.exponent? at h
    split at h
    · rw [← Option.some.inj h]
      exact .none
    · exact hmarked (.inl rfl) h
    · exact hmarked (.inr rfl) h
    · contradiction
  · intro h
    cases h with
    | none => rfl
    | mark hmark sign ne_nil denotes =>
      have hdigits := exponentDigits?_eq_some_iff.mpr ⟨_, _, _, sign, ne_nil, denotes, rfl⟩
      obtain rfl | rfl := hmark <;> exact hdigits

/-- Digits are cut off where something else, or nothing, follows them. -/
theorem span_digits {digits tail : List Char} (hdigits : ∀ c ∈ digits, c.isDigit = true)
    (htail : ∀ c ∈ tail.head?, c.isDigit = false) :
    (digits ++ tail).takeWhile Char.isDigit = digits ∧
      (digits ++ tail).dropWhile Char.isDigit = tail := by
  rw [List.takeWhile_append_of_pos hdigits, List.dropWhile_append_of_pos hdigits]
  cases tail with
  | nil => simp
  | cons c tail => simp [htail c rfl]

theorem Raised.head_not_digit {power : List Char} {exponent : Int} (h : Raised power exponent) :
    ∀ c ∈ power.head?, c.isDigit = false := by
  intro c hc
  cases h with
  | none => contradiction
  | mark hmark =>
    cases hc
    obtain rfl | rfl := hmark <;> rfl

theorem isDigit_of_mem_takeWhile {text : List Char} :
    ∀ c ∈ text.takeWhile Char.isDigit, c.isDigit = true :=
  List.all_eq_true.mp List.all_takeWhile

theorem parts?_eq_some_iff {text : List Char} {parts : Decimal.Parts} :
    Decimal.parts? text = some parts ↔
      ∃ point power, text = parts.whole ++ point ++ power ∧ parts.whole ≠ [] ∧
        (∀ c ∈ parts.whole ++ parts.fraction, c.isDigit = true) ∧ Pointed point parts.fraction ∧
        Raised power parts.exponent := by
  constructor
  · intro h
    unfold Decimal.parts? at h
    dsimp only at h
    have htext := text.takeWhile_append_dropWhile (p := Char.isDigit)
    split at h
    · contradiction
    · next hne =>
      have hne : text.takeWhile Char.isDigit ≠ [] := by simpa using hne
      split at h
      · next rest hrest =>
        obtain ⟨exponent, hexponent, rfl⟩ := Option.map_eq_some_iff.mp h
        refine ⟨'.' :: rest.takeWhile Char.isDigit, rest.dropWhile Char.isDigit, ?_, hne, ?_,
          .point _, exponent?_eq_some_iff.mp hexponent⟩
        · rw [List.append_assoc, List.cons_append, List.takeWhile_append_dropWhile, ← hrest, htext]
        · exact List.forall_mem_append.mpr ⟨isDigit_of_mem_takeWhile, isDigit_of_mem_takeWhile⟩
      · next rest _ =>
        obtain ⟨exponent, hexponent, rfl⟩ := Option.map_eq_some_iff.mp h
        refine ⟨[], text.dropWhile Char.isDigit, ?_, hne, ?_, .none,
          exponent?_eq_some_iff.mp hexponent⟩
        · rw [List.append_nil, htext]
        · rw [List.append_nil]
          exact isDigit_of_mem_takeWhile
  · obtain ⟨whole, fraction, exponent⟩ := parts
    rintro ⟨point, power, rfl, hne, hdigits, hpoint, hpower⟩
    obtain ⟨hwhole, hfraction⟩ := List.forall_mem_append.mp hdigits
    have hexponent := exponent?_eq_some_iff.mpr hpower
    cases hpoint with
    | none =>
      have hspan := span_digits hwhole hpower.head_not_digit
      unfold Decimal.parts?
      rw [List.append_nil, hspan.1, hspan.2]
      dsimp only
      rw [if_neg (by simpa using hne)]
      split
      · cases hpower with | mark hmark => exact absurd hmark (by decide)
      · rw [hexponent]
        rfl
    | point =>
      have hpoint : ∀ c ∈ ('.' :: (fraction ++ power)).head?, c.isDigit = false := by simp
      have hspan := span_digits hwhole hpoint
      have hspan' := span_digits hfraction hpower.head_not_digit
      unfold Decimal.parts?
      rw [List.append_assoc, List.cons_append, hspan.1, hspan.2]
      simp [hne, hspan', hexponent]

/-- **The decimal reader accepts exactly the unsigned decimals.** -/
theorem decimal_float?_eq_some_iff {text : List Char} {x : Float} :
    Decimal.float? text = some x ↔ SpellsDecimal text x := by
  rw [Decimal.float?, Option.map_eq_some_iff]
  constructor
  · rintro ⟨parts, hparts, rfl⟩
    obtain ⟨point, power, rfl, hne, hdigits, hpoint, hpower⟩ := parts?_eq_some_iff.mp hparts
    exact .intro hne hpoint (denotes_ten_iff.mpr ⟨hdigits, rfl⟩) hpower
  · rintro ⟨hne, hpoint, hdenotes, hpower⟩
    obtain ⟨hdigits, rfl⟩ := denotes_ten_iff.mp hdenotes
    exact ⟨⟨_, _, _⟩, parts?_eq_some_iff.mpr ⟨_, _, rfl, hne, hdigits, hpoint, hpower⟩, rfl⟩

theorem isFloatChar_iff {c : Char} :
    isFloatChar c = true ↔ c.isDigit ∨ c ∈ ".eE_+-".toList := by
  simp [isFloatChar]

/-- **The float reader accepts exactly the floats**, with their values. -/
theorem float?_eq_some_iff {text : List Char} {x : Float} :
    float? text = some x ↔ SpellsFloat text x := by
  have hany {o : Option Char} : o.any Char.isDigit = true ↔ ∃ c ∈ o, c.isDigit := by
    cases o <;> simp
  constructor
  · intro h
    unfold float? at h
    dsimp only at h
    split at h
    · next hbody =>
      simp only [Bool.and_eq_true, List.all_eq_true, isFloatChar_iff, hany] at hbody
      obtain ⟨y, hy, rfl⟩ := Option.map_eq_some_iff.mp h
      exact .intro (signed_splitSign text) hbody.2 hbody.1.1 hbody.1.2
        (decimal_float?_eq_some_iff.mp hy)
    · contradiction
  · rintro ⟨sign, chars, head, last, decimal⟩
    obtain ⟨first, hfirst, hdigit⟩ := head
    unfold float?
    rw [sign.splitSign_eq fun c hc => Option.some.inj (hfirst.symm.trans hc) ▸ hdigit]
    dsimp only
    rw [if_pos, Option.map_eq_some_iff]
    · exact ⟨_, decimal_float?_eq_some_iff.mpr decimal, rfl⟩
    · simp only [Bool.and_eq_true, List.all_eq_true, isFloatChar_iff, hany]
      exact ⟨⟨⟨first, hfirst, hdigit⟩, last⟩, chars⟩

end Numeral

/-! ### Bare texts -/

open Numeral

section Text

variable (text : String)

theorem Value.ofText_eq_int_iff (v : Int64) :
    Value.ofText text = .int v ↔ integer? text.toList = some v := by
  unfold Value.ofText Numeral.number?
  cases integer? text.toList <;> cases Numeral.float? text.toList <;> simp [ofNumber]

theorem Value.ofText_eq_float_iff (x : Float) :
    Value.ofText text = .float x ↔
      integer? text.toList = none ∧ Numeral.float? text.toList = some x := by
  unfold Value.ofText Numeral.number?
  cases integer? text.toList <;> cases Numeral.float? text.toList <;> simp [ofNumber]

theorem Value.ofText_eq_word_iff (word : String) :
    Value.ofText text = .word word ↔
      word = text ∧ integer? text.toList = none ∧ Numeral.float? text.toList = none := by
  unfold Value.ofText Numeral.number?
  cases integer? text.toList <;> cases Numeral.float? text.toList <;> simp [ofNumber, eq_comm]

/-- **Every bare text is classified by the grammar of numbers.**  It is an integer exactly when it
spells one in range, else a float exactly when it spells one, else a word that keeps the text; and
an integer written in decimal is that integer. -/
theorem text_classified :
    (∀ v, integer? text.toList = some v ↔ SpellsInteger text.toList v.toInt) ∧
      (∀ v, Value.ofText text = .int v ↔ SpellsInteger text.toList v.toInt) ∧
      (∀ x, Value.ofText text = .float x ↔
        (∀ v : Int64, ¬ SpellsInteger text.toList v.toInt) ∧ SpellsFloat text.toList x) ∧
      (∀ word, Value.ofText text = .word word ↔
        word = text ∧ (∀ v : Int64, ¬ SpellsInteger text.toList v.toInt) ∧
          ∀ x, ¬ SpellsFloat text.toList x) ∧
      ∀ n : Int64, Value.ofText (toString n.toInt) = .int n := by
  refine ⟨fun _ => integer?_eq_some_iff, fun v => ?_, fun x => ?_, fun word => ?_, fun n => ?_⟩
  · rw [Value.ofText_eq_int_iff, integer?_eq_some_iff]
  · simp only [Value.ofText_eq_float_iff, Option.eq_none_iff_forall_ne_some, ne_eq,
      integer?_eq_some_iff, float?_eq_some_iff]
  · simp only [Value.ofText_eq_word_iff, Option.eq_none_iff_forall_ne_some, ne_eq,
      integer?_eq_some_iff, float?_eq_some_iff]
  · rw [Value.ofText_eq_int_iff, integer?_toString]

end Text

end Wordstack
