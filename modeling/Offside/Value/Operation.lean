import Offside.Value.Equality
import Offside.Value.Number
import Offside.Value.Text

/-!
# Operations on values

Arithmetic on numbers, sums and products of strings and lists, comparisons, and reading and
writing by index or key.
-/

namespace Offside.Value

open Store

def invalidOperands (op : Operator) (v w : Value) : Fault :=
  .invalidOperands op v.typeName w.typeName

/-! ## Comparisons -/

/-- How two values compare, if they are of types that have an order. Strings compare by code
points. -/
def order? : Value → Value → Option (Option Ordering)
  | integer a, integer b => some (some (compare a.toInt b.toInt))
  | float x, float y => some (Number.compareFloats x y)
  | integer a, float y => some (Number.compareFloats a.toFloat y)
  | float x, integer b => some (Number.compareFloats x b.toFloat)
  | string a, string b => some (some (compare a b))
  | _, _ => none

def holds? (op : Operator) (o : Ordering) : Option Bool :=
  match op with
  | .less => some o.isLT
  | .lessEqual => some o.isLE
  | .greater => some o.isGT
  | .greaterEqual => some o.isGE
  | _ => none

/-- One link of a chain of comparisons. What is not a number is in no order with any number. -/
def compares (s : Store) (op : Operator) (v w : Value) : Except Fault Bool :=
  match op with
  | .equal => .ok (equals s v w)
  | .notEqual => .ok (!equals s v w)
  | op =>
    match order? v w with
    | none => .error (invalidOperands op v w)
    | some none => .ok false
    | some (some o) =>
      match holds? op o with
      | some b => .ok b
      | none => .error (invalidOperands op v w)

/-! ## Sums and products -/

/-- How often a sequence is to be repeated. -/
def repeatCount (n : Int64) : Except Fault Nat :=
  if 0 ≤ n.toInt then .ok n.toInt.toNat else .error (.negativeRepeat n)

def checkLength (n : Nat) : Except Fault Unit :=
  if n ≤ maxSequenceLength then .ok () else .error .sequenceTooLong

/-- A text a number of times. -/
def repeated (text : String) (count : Nat) : String := count.repeat (· ++ text) ""

/-- The items over and over, a number of times. -/
def cycled (items : Array Value) (count : Nat) : Array Value := count.repeat (· ++ items) #[]

def repeatString (text : String) (n : Int64) : Except Fault Value := do
  let count ← repeatCount n
  checkLength (text.utf8ByteSize * count)
  if text.isEmpty then return .string text else return .string (repeated text count)

def repeatList (id : ListId) (n : Int64) : Run Value := do
  let count ← Run.ofExcept (repeatCount n)
  let items ← Run.read (·.list id)
  Run.ofExcept (checkLength (items.size * count))
  newList (if items.isEmpty then items else cycled items count)

def arithmetic (op : Operator) (v w : Value) : Run Value :=
  match v, w with
  | integer a, integer b => Run.ofExcept (Number.integers op a b)
  | integer a, float y => Run.ofExcept (Number.floats op a.toFloat y)
  | float x, integer b => Run.ofExcept (Number.floats op x b.toFloat)
  | float x, float y => Run.ofExcept (Number.floats op x y)
  | v, w =>
    match op, v, w with
    | .add, string a, string b => Run.ofExcept do
      checkLength (a.utf8ByteSize + b.utf8ByteSize)
      return .string (a ++ b)
    | .add, list a, list b => do
      let xs ← Run.read (·.list a)
      let ys ← Run.read (·.list b)
      Run.ofExcept (checkLength (xs.size + ys.size))
      newList (xs ++ ys)
    | .multiply, string text, integer n => Run.ofExcept (repeatString text n)
    | .multiply, integer n, string text => Run.ofExcept (repeatString text n)
    | .multiply, list id, integer n => repeatList id n
    | .multiply, integer n, list id => repeatList id n
    | op, v, w => Run.fail (invalidOperands op v w)

/-! ## Indices and keys -/

/-- The place that an index means. A negative one counts from the end. -/
def position (key : Value) (length : Nat) : Except Fault Nat :=
  match key with
  | integer i =>
    let place := if i.toInt < 0 then i.toInt + length else i.toInt
    if 0 ≤ place ∧ place < length then .ok place.toNat else .error (.indexOutOfRange i length)
  | key => .error (.invalidIndex key.typeName)

def key (v : Value) : Except Fault Key :=
  match Key.ofValue? v with
  | some k => .ok k
  | none => .error (.unhashableKey v.typeName)

def index (s : Store) (v k : Value) : Except Fault Value :=
  match v with
  | list id => do
    let items := s.list id
    return items.getD (← position k items.size) .null
  | string text => do
    let chars := text.toList
    return .string (chars.getD (← position k chars.length) ' ').toString
  | dictionary id => do
    let k ← key k
    match (s.dictionary id).get? k with
    | some v => .ok v
    | none => .error (.missingKey (k.toValue.scalarText true))
  | v => .error (.notIndexable v.typeName)

/-- Puts a value at an index or key. Void is refused before anything else is looked at. -/
def setIndex (v k new : Value) : Run Unit := do
  if new.isVoid then
    Run.fail (.voidAssignment (v.typeName ++ "[" ++ (← Run.read (k.repr ·)) ++ "]"))
  else
    match v with
    | list id =>
      let i ← Run.readExcept fun s => position k (s.list id).size
      Run.modify (·.modifyList id fun items => items.setIfInBounds i new)
    | dictionary id =>
      let k ← Run.ofExcept (key k)
      Run.modify (·.modifyDictionary id fun d => d.insert k new)
    | v => Run.fail (.notIndexable v.typeName)

/-- What a loop over a value visits, as it is when the loop begins. -/
def iterate (s : Store) : Value → Except Fault (List Value)
  | list id => .ok (s.list id).toList
  | string text => .ok (text.toList.map fun c => .string c.toString)
  | dictionary id => .ok ((s.dictionary id).keys.map Key.toValue)
  | v => .error (.notIterable v.typeName)

/-- How many elements a value has, if it has any. -/
def length? (s : Store) : Value → Option Nat
  | string text => some text.length
  | list id => some (s.list id).size
  | dictionary id => some (s.dictionary id).size
  | _ => none

end Offside.Value
