/-!
# The float nearest to a fraction

A finite float of sign plus is `m * 2 ^ k / 2 ^ 1074` with `m < 2 ^ 53`, and with `2 ^ 52 ≤ m`
unless `k = 0`. Its bit pattern is then the number `k * 2 ^ 52 + m`, so the patterns of ascending
floats are ascending numbers and a mantissa that rounds up to `2 ^ 53` carries by itself.
-/

namespace Offside.Decimal

/-- Powers of natural numbers are those of the core library, whatever else is imported. -/
@[default_instance high]
instance (priority := high) natPow : Pow Nat Nat := instPowNat

/-- The quotient rounded to the nearest natural number, a half to the even one. -/
def roundHalfEven (num den : Nat) : Nat :=
  let q := num / den
  let twice := 2 * (num % den)
  if twice < den then q else if den < twice then q + 1 else q + q % 2

/-- The pattern of plus infinity, above those of all finite floats. -/
def infinityBits : Nat := 2047 * 2 ^ 52

/-- The pattern of the float nearest to `num / den`. -/
def nearestBits (num den : Nat) : Nat :=
  let scaled := num * 2 ^ 1074
  let shift := (scaled / den).log2 - 52
  min (shift * 2 ^ 52 + roundHalfEven scaled (den * 2 ^ shift)) infinityBits

def nearest (num den : Nat) : Float := Float.ofBits (UInt64.ofNat (nearestBits num den))

/-- What a bit pattern stands for. -/
inductive Parts where
  | nan
  | infinite (negative : Bool)
  /-- The number `mantissa * 2 ^ shift / 2 ^ 1074`, or its opposite. -/
  | finite (negative : Bool) (mantissa shift : Nat)
deriving DecidableEq, Repr

def parts (x : Float) : Parts :=
  let bits := x.toBits.toNat
  let negative := 2 ^ 63 ≤ bits
  let exponent := bits / 2 ^ 52 % 2048
  let fraction := bits % 2 ^ 52
  if exponent = 2047 then
    if fraction = 0 then .infinite negative else .nan
  else if exponent = 0 then .finite negative fraction 0
  else .finite negative (fraction + 2 ^ 52) (exponent - 1)

end Offside.Decimal
