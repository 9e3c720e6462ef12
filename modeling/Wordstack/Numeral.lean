import Wordstack.Decimal.Reading
import Wordstack.Number

/-!
# Numerals

Which texts spell numbers.  An integer is an optional sign, an optional base mark (`0x`, `0b`, `0o`)
and digits of that base with single or repeated underscores between them.  A float is an optional
sign and a decimal text that starts and ends with a digit, underscores ignored.  A text that spells
both is an integer.
-/

namespace Wordstack.Numeral

/-- Splits an optional sign off a text; the flag says whether it is a minus. -/
def splitSign : List Char → Bool × List Char
  | '-' :: rest => (true, rest)
  | '+' :: rest => (false, rest)
  | text => (false, text)

/-- Splits an optional base mark off a text. -/
def splitBase : List Char → Nat × List Char
  | '0' :: 'x' :: rest => (16, rest)
  | '0' :: 'b' :: rest => (2, rest)
  | '0' :: 'o' :: rest => (8, rest)
  | text => (10, text)

/-- The value of a digit, letters of either case standing for ten and more. -/
def digit? (base : Nat) (c : Char) : Option Nat :=
  let value :=
    if c.isDigit then some (c.toNat - '0'.toNat)
    else if 'a' ≤ c ∧ c ≤ 'z' then some (c.toNat - 'a'.toNat + 10)
    else if 'A' ≤ c ∧ c ≤ 'Z' then some (c.toNat - 'A'.toNat + 10)
    else none
  value.filter (· < base)

/-- The value of a list of digits, most significant first, if each is a digit of the base. -/
def digitsValue? (base : Nat) (digits : List Char) : Option Nat :=
  digits.foldlM (fun value c => (digit? base c).map (base * value + ·)) 0

/-- Whether underscores stand only between digits and there is something to read. -/
def isBody (digits : List Char) : Bool :=
  !digits.isEmpty && digits.head? != some '_' && digits.getLast? != some '_'

/-- A text without its underscores. -/
def withoutUnderscores (text : List Char) : List Char :=
  text.filter (· != '_')

/-- The integer a text spells. -/
def integer? (text : List Char) : Option Int64 :=
  let (negative, unsigned) := splitSign text
  let (base, body) := splitBase unsigned
  if isBody body then
    (digitsValue? base (withoutUnderscores body)).bind fun (n : Nat) =>
      fit? (if negative then -(n : Int) else n)
  else none

/-- The characters a float may hold. -/
def isFloatChar (c : Char) : Bool :=
  c.isDigit || ['.', 'e', 'E', '_', '+', '-'].contains c

/-- The float a text spells. -/
def float? (text : List Char) : Option Float :=
  let (negative, body) := splitSign text
  if body.head?.any Char.isDigit && body.getLast?.any Char.isDigit && body.all isFloatChar then
    (Decimal.float? (withoutUnderscores body)).map fun x => if negative then -x else x
  else none

/-- The number a text spells; an integer goes before a float. -/
def number? (text : List Char) : Option Number :=
  match integer? text, float? text with
  | some n, _ => some (.int n)
  | none, some x => some (.float x)
  | none, none => none

end Wordstack.Numeral
