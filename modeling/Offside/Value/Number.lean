import Offside.Fault
import Offside.Value

/-!
# Numbers

Integers have 64 bits, and a result that does not fit is a fault. A float beside an integer makes
a float of it first.
-/

namespace Offside.Number

/-- The integer of 64 bits with this value, if there is one. -/
def integer? (n : Int) : Option Int64 :=
  if Int64.minValue.toInt ≤ n ∧ n ≤ Int64.maxValue.toInt then some (Int64.ofInt n) else none

/-- Takes a result that has to fit. -/
def checked (op : Operator) (n : Int) : Except Fault Value :=
  match integer? n with
  | some n => .ok (.integer n)
  | none => .error (.integerOverflow op)

/-- Division truncates toward zero. -/
def integers (op : Operator) (a b : Int64) : Except Fault Value :=
  match op with
  | .add => checked op (a.toInt + b.toInt)
  | .subtract => checked op (a.toInt - b.toInt)
  | .multiply => checked op (a.toInt * b.toInt)
  | .divide =>
    if b = 0 then .error .divisionByZero else checked op (a.toInt.tdiv b.toInt)
  | _ => .error (.invalidOperands op "integer" "integer")

def floats (op : Operator) (x y : Float) : Except Fault Value :=
  match op with
  | .add => .ok (.float (x + y))
  | .subtract => .ok (.float (x - y))
  | .multiply => .ok (.float (x * y))
  | .divide => .ok (.float (x / y))
  | _ => .error (.invalidOperands op "float" "float")

/-- An overflow of a negation counts as one of a subtraction. -/
def negate : Value → Except Fault Value
  | .integer n => checked .subtract (-n.toInt)
  | .float x => .ok (.float (-x))
  | v => .error (.invalidNegate v.typeName)

/-- How two floats compare. One that is not a number does not compare with any. -/
def compareFloats (x y : Float) : Option Ordering :=
  if x < y then some .lt else if x == y then some .eq else if y < x then some .gt else none

end Offside.Number
