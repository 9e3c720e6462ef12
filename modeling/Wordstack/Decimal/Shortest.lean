/-!
# Shortest decimals

A finite binary fraction `mantissa * 2 ^ exponent` is written with the fewest significant decimal
digits that still read back as the same fraction, and of those with the digits nearest to it.
Everything is decided by comparing natural numbers over one denominator.
-/

namespace Wordstack.Decimal

/-- A positive double: `mantissa * 2 ^ exponent`, and whether its lower neighbour is only half as
far away as its upper one, which happens at a power of two. -/
structure Binary where
  mantissa : Nat
  exponent : Int
  narrowBelow : Bool
  deriving Repr

/-- The decimal `digits * 10 ^ exponent`. -/
structure Scaled where
  digits : Nat
  exponent : Int
  deriving Repr, DecidableEq

/-- What the sixty-four bits of a double stand for, the sign apart. -/
inductive Magnitude where
  | nan
  | infinite
  | zero
  | finite (value : Binary)
  deriving Repr

/-- Whether the sign bit is set. -/
def isNegative (x : Float) : Bool :=
  Nat.pow 2 63 ≤ x.toBits.toNat

/-- Reads the exponent and the fraction of a double. -/
def magnitude (x : Float) : Magnitude :=
  let bits : Nat := x.toBits.toNat
  let biased : Nat := bits / Nat.pow 2 52 % Nat.pow 2 11
  let fraction : Nat := bits % Nat.pow 2 52
  if biased = 2047 then (if fraction = 0 then .infinite else .nan)
  else if biased = 0 then
    if fraction = 0 then .zero
    else .finite { mantissa := fraction, exponent := -1074, narrowBelow := false }
  else
    .finite
      { mantissa := Nat.pow 2 52 + fraction, exponent := (biased : Int) - 1075,
        narrowBelow := fraction = 0 && 1 < biased }

/-- The reals that read back as one double, between `low` and `high`, all over `denominator`. -/
structure Interval where
  low : Nat
  value : Nat
  high : Nat
  denominator : Nat
  closed : Bool

/-- The reals nearest to a double.  The ends lie halfway to its neighbours and round to the even
mantissa. -/
def Binary.interval (b : Binary) : Interval :=
  let scale := Nat.pow 2 b.exponent.toNat
  { low := (4 * b.mantissa - if b.narrowBelow then 1 else 2) * scale
    value := 4 * b.mantissa * scale
    high := (4 * b.mantissa + 2) * scale
    denominator := 4 * Nat.pow 2 (-b.exponent).toNat
    closed := b.mantissa % 2 = 0 }

/-- Whether `digits * up / down` lies in the interval. -/
def Interval.contains (i : Interval) (digits up down : Nat) : Bool :=
  let point := digits * up * i.denominator
  if i.closed then i.low * down ≤ point && point ≤ i.high * down
  else i.low * down < point && point < i.high * down

/-- The exponent of the leading decimal digit. -/
def Interval.leading (i : Interval) (b : Binary) : Int :=
  let guess := ((b.exponent + b.mantissa.log2) * 30103).fdiv 100000
  let next := guess + 1
  if Nat.pow 10 next.toNat * i.denominator ≤ i.value * Nat.pow 10 (-next).toNat then next
  else guess

/-- The nearer of the value's two neighbours among the multiples of `10 ^ exponent`, if the interval
holds one; the upper one at equal distance. -/
def Interval.nearest? (i : Interval) (exponent : Int) : Option Scaled :=
  let up := Nat.pow 10 exponent.toNat
  let down := Nat.pow 10 (-exponent).toNat
  let below := i.value * down / (up * i.denominator)
  let above := below + 1
  let fromBelow := i.value * down - below * up * i.denominator
  let toAbove := above * up * i.denominator - i.value * down
  match i.contains below up down, i.contains above up down with
  | true, true => some ⟨if fromBelow < toAbove then below else above, exponent⟩
  | true, false => some ⟨below, exponent⟩
  | false, true => some ⟨above, exponent⟩
  | false, false => none

/-- The most decimal digits a double needs. -/
def maxDigits : Nat := 17

/-- Removes the zeros at the end of the digits, at most `fuel` of them. -/
def Scaled.trim (fuel : Nat) (d : Scaled) : Scaled :=
  match fuel with
  | 0 => d
  | fuel + 1 =>
    if d.digits % 10 = 0 && d.digits ≠ 0 then trim fuel ⟨d.digits / 10, d.exponent + 1⟩ else d

/-- The shortest decimal that reads back as the double, and of those the nearest. -/
def Binary.shortest (b : Binary) : Scaled :=
  let i := b.interval
  let leading := i.leading b
  let found := (List.range maxDigits).findSome? fun (more : Nat) => i.nearest? (leading - more)
  (found.getD ⟨b.mantissa, 0⟩).trim (maxDigits + 1)

end Wordstack.Decimal
