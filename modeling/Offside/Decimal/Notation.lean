import Offside.Decimal.Rounding

/-!
# Floats in decimal notation

A float is written with the fewest digits that read back to it and the nearest such number, a tie
going up. There is always a point with a digit on both sides and never an exponent.
-/

namespace Offside.Decimal

/-! ## Reading -/

/-- The float nearest to `digits * 10 ^ exponent`. -/
def toFloat (digits : Nat) (exponent : Int) : Float :=
  if 0 ≤ exponent then nearest (digits * 10 ^ exponent.toNat) 1
  else nearest digits (10 ^ (-exponent).toNat)

/-- The number that a row of decimal digits denotes. -/
def digitsValue (digits : List Char) : Nat :=
  digits.foldl (fun n c => 10 * n + (c.toNat - '0'.toNat)) 0

/-! ## Choosing the digits -/

/-- The number `m * 2 ^ k / 2 ^ 1074` as a fraction of steps of `10 ^ exponent`. -/
def inSteps (m k : Nat) (exponent : Int) : Nat × Nat :=
  if 0 ≤ exponent then (m * 2 ^ k, 2 ^ 1074 * 10 ^ exponent.toNat)
  else (m * 2 ^ k * 10 ^ (-exponent).toNat, 2 ^ 1074)

/-- Whether `digits * 10 ^ exponent` reads back to the float of this bit pattern. -/
def readsBack (bits digits : Nat) (exponent : Int) : Bool :=
  if 0 ≤ exponent then nearestBits (digits * 10 ^ exponent.toNat) 1 = bits
  else nearestBits digits (10 ^ (-exponent).toNat) = bits

/-- The neighbour on the grid of step `10 ^ exponent` that reads back, the nearer of two. -/
def gridPoint? (m k : Nat) (exponent : Int) : Option Nat :=
  let bits := k * 2 ^ 52 + m
  let (num, den) := inSteps m k exponent
  let below := num / den
  let lower := readsBack bits below exponent
  let upper := readsBack bits (below + 1) exponent
  let lowerIsNearer := 2 * (num % den) < den
  if lower && (lowerIsNearer || !upper) then some below
  else if upper then some (below + 1)
  else none

/-- Tries ever finer grids, and after the last one takes the number itself, which is a whole
number of steps of `10 ^ -1074`. -/
def searchDigits (m k : Nat) : Nat → Int → Nat × Int
  | 0, _ => (m * 2 ^ k * 5 ^ 1074, -1074)
  | tries + 1, exponent =>
    match gridPoint? m k exponent with
    | some digits => (digits, exponent)
    | none => searchDigits m k tries (exponent - 1)

/-- A power of ten above `m * 2 ^ k / 2 ^ 1074`, by a rational above the logarithm of two. -/
def startExponent (m k : Nat) : Int :=
  ((m.log2 + 1 + k : Int) - 1074) * 30103 / 100000 + 2

/-- The digits of `m * 2 ^ k / 2 ^ 1074` and the exponent of their last one. Seventeen digits are
always enough, and the search starts at most four places too high. -/
def shortestDigits (m k : Nat) : Nat × Int :=
  if m = 0 then (0, 0) else searchDigits m k 22 (startExponent m k)

/-! ## Writing -/

/-- A natural number as exactly so many digits. -/
def padded (width n : Nat) : List Char :=
  let digits := Nat.toDigits 10 n
  List.replicate (width - digits.length) '0' ++ digits

/-- The number `digits * 10 ^ exponent` with a point and no exponent. -/
def positional (digits : Nat) (exponent : Int) : String :=
  if 0 ≤ exponent then String.ofList (Nat.toDigits 10 (digits * 10 ^ exponent.toNat) ++ ['.', '0'])
  else
    let places := (-exponent).toNat
    let whole := Nat.toDigits 10 (digits / 10 ^ places)
    String.ofList (whole ++ ['.'] ++ padded places (digits % 10 ^ places))

def sign (negative : Bool) : String := if negative then "-" else ""

def floatText (x : Float) : String :=
  match parts x with
  | .nan => "NaN"
  | .infinite negative => sign negative ++ "inf"
  | .finite negative m k =>
    let (digits, exponent) := shortestDigits m k
    sign negative ++ positional digits exponent

end Offside.Decimal
