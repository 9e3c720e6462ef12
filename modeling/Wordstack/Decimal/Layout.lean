import Wordstack.Decimal.Shortest

/-!
# The text of a float

How a float is written: the shortest digits that read back, positionally for the usual magnitudes
and with an exponent for the rest.
-/

namespace Wordstack.Decimal

/-- The choices of a layout for floats. -/
structure Layout where
  /-- The least leading exponent that is written positionally. -/
  leastPositional : Int
  /-- The first leading exponent above those written positionally. -/
  positionalEnd : Int
  nan : String
  infinity : String
  zero : String

/-- Numbers from a ten-thousandth up to ten to the sixteenth are written positionally, with at least
one digit after the point. -/
def floatLayout : Layout :=
  { leastPositional := -4, positionalEnd := 16, nan := "NaN", infinity := "inf", zero := "0.0" }

/-- Digits with the point `whole` places after the first, padded by zeros on either side. -/
def positional (digits : List Char) (leading : Int) : List Char :=
  match leading with
  | .negSucc gap => '0' :: '.' :: (List.replicate gap '0' ++ digits)
  | .ofNat whole =>
    let padded := digits ++ List.replicate (whole + 1 - digits.length) '0'
    let fraction := padded.drop (whole + 1)
    padded.take (whole + 1) ++ '.' :: (if fraction.isEmpty then ['0'] else fraction)

/-- Digits with the point after the first, if there are more, and the exponent. -/
def scientific (digits : List Char) (leading : Int) : List Char :=
  let mantissa :=
    match digits with
    | first :: second :: more => first :: '.' :: second :: more
    | short => short
  mantissa ++ 'e' :: (toString leading).toList

/-- The text of a positive decimal. -/
def Layout.writeDecimal (l : Layout) (d : Scaled) : List Char :=
  let digits := Nat.toDigits 10 d.digits
  let leading := d.exponent + digits.length - 1
  if l.leastPositional ≤ leading ∧ leading < l.positionalEnd then positional digits leading
  else scientific digits leading

/-- The text of a float. -/
def Layout.write (l : Layout) (x : Float) : String :=
  let sign := if isNegative x then "-" else ""
  match magnitude x with
  | .nan => l.nan
  | .infinite => sign ++ l.infinity
  | .zero => sign ++ l.zero
  | .finite b => sign ++ String.ofList (l.writeDecimal b.shortest)

/-- The text of a float in the layout of the language. -/
def floatText (x : Float) : String :=
  floatLayout.write x

end Wordstack.Decimal
