/-!
# Reading decimals

The decimal texts `digits [. digits] [e sign digits]` and the double nearest to each.
-/

namespace Wordstack.Decimal

/-- A decimal text taken apart: the digits before the point, those after it, and the exponent. -/
structure Parts where
  whole : List Char
  fraction : List Char
  exponent : Int
  deriving Repr, DecidableEq

/-- The value of a list of decimal digits. -/
def digitsValue (digits : List Char) : Nat :=
  digits.foldl (fun value c => 10 * value + (c.toNat - '0'.toNat)) 0

/-- Reads a non-empty run of digits with an optional sign in front. -/
def exponentDigits? (text : List Char) : Option Int :=
  let (sign, digits) :=
    match text with
    | '-' :: rest => ((-1 : Int), rest)
    | '+' :: rest => (1, rest)
    | rest => (1, rest)
  if !digits.isEmpty && digits.all Char.isDigit then some (sign * digitsValue digits) else none

/-- Reads what follows the digits and the point: nothing, or a mark and an exponent. -/
def exponent? : List Char → Option Int
  | [] => some 0
  | 'e' :: rest => exponentDigits? rest
  | 'E' :: rest => exponentDigits? rest
  | _ => none

/-- Takes a decimal text apart: one or more digits, then an optional point with any digits after it,
then an optional exponent. -/
def parts? (text : List Char) : Option Parts :=
  let whole := text.takeWhile Char.isDigit
  if whole.isEmpty then none
  else
    match text.dropWhile Char.isDigit with
    | '.' :: rest =>
      (exponent? (rest.dropWhile Char.isDigit)).map fun e => ⟨whole, rest.takeWhile Char.isDigit, e⟩
    | rest => (exponent? rest).map fun e => ⟨whole, [], e⟩

/-- Beyond this leading exponent, on either side, every decimal reads as infinity or as zero. -/
def exponentLimit : Int := 400

/-- The double nearest to `mantissa * 10 ^ exponent`. -/
def toFloat (mantissa : Nat) (exponent : Int) : Float :=
  let leading := exponent + (Nat.toDigits 10 mantissa).length
  if mantissa = 0 ∨ leading < -exponentLimit then Float.ofScientific 0 false 0
  else if exponentLimit < leading then Float.ofScientific 1 false exponentLimit.toNat
  else Float.ofScientific mantissa (exponent < 0) exponent.natAbs

/-- The double nearest to a decimal text taken apart. -/
def Parts.toFloat (p : Parts) : Float :=
  Decimal.toFloat (digitsValue (p.whole ++ p.fraction)) (p.exponent - p.fraction.length)

/-- The double nearest to an unsigned decimal text. -/
def float? (text : List Char) : Option Float :=
  (parts? text).map Parts.toFloat

end Wordstack.Decimal
