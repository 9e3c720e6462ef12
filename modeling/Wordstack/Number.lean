import Wordstack.Decimal.Layout

/-!
# Numbers

A number of the language is a 64-bit integer or a double.  Integers are computed exactly and then
fitted back into 64 bits, or refused.  A computed double that is a whole number in range becomes the
integer again.
-/

namespace Wordstack

/-- The 64-bit integer with the given value, if there is one. -/
def fit? (n : Int) : Option Int64 :=
  if Int64.minValue.toInt ≤ n ∧ n ≤ Int64.maxValue.toInt then some (Int64.ofInt n) else none

/-- An integer or a float. -/
inductive Number where
  | int (n : Int64)
  | float (x : Float)

namespace Number

/-- The number as a float; an integer goes to the nearest one. -/
def asFloat : Number → Float
  | int n => Float.ofInt n.toInt
  | float x => x

/-- The order of two floats, if they have one. -/
def compareFloats (a b : Float) : Option Ordering :=
  if a < b then some .lt else if b < a then some .gt else if a == b then some .eq else none

/-- The order of two numbers; an integer and a float are compared as floats. -/
def compare : Number → Number → Option Ordering
  | int a, int b => some (Ord.compare a.toInt b.toInt)
  | a, b => compareFloats a.asFloat b.asFloat

/-- The text of a number. -/
def text : Number → String
  | int n => toString n.toInt
  | float x => Decimal.floatText x

/-- The text of a number with a letter for its form. -/
def tagged : Number → String
  | int n => (int n).text ++ " i"
  | float x => (float x).text ++ " f"

end Number

namespace Decimal

/-- The value of a positive double, if it is a whole number. -/
def Binary.whole? (b : Binary) : Option Nat :=
  let scale := Nat.pow 2 (-b.exponent).toNat
  if b.mantissa % scale = 0 then some (b.mantissa / scale * Nat.pow 2 b.exponent.toNat) else none

/-- The value of a double, if it is a whole number. -/
def whole? (x : Float) : Option Int :=
  match magnitude x with
  | .zero => some 0
  | .finite b => b.whole?.map fun (n : Nat) => if isNegative x then -(n : Int) else n
  | _ => none

end Decimal

/-- The form a computed number settles in: a float that is a whole number in range is an integer. -/
def Number.settle : Number → Number
  | .int n => .int n
  | .float x => ((Decimal.whole? x).bind fit?).elim (.float x) .int

/-- A fitted integer has the value asked for. -/
theorem toInt_of_fit?_eq_some {n : Int} {i : Int64} (h : fit? n = some i) : i.toInt = n := by
  unfold fit? at h
  split at h
  · next range =>
    rw [Int64.toInt_minValue, Int64.toInt_maxValue] at range
    rw [← Option.some.inj h]
    exact Int64.toInt_ofInt_of_le range.1 (Int.lt_of_le_sub_one range.2)
  · contradiction

end Wordstack
