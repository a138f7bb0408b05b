import Offside.Store.Scope
import Offside.Value.Operation

/-!
# Built-in functions

Built-in functions get arguments that are already evaluated. Of a keyword given twice the later
value counts.
-/

namespace Offside

/-- The value of a keyword argument. -/
def keyword? (keywords : List (String × Value)) (name : String) : Option Value :=
  keywords.reverse.lookup name

namespace Action

/-- Refuses every keyword but the known ones. Nothing settles which of several the error names: here
it is the first. -/
def refuseKeywords (name : String) (known : List String) (keywords : List (String × Value)) :
    Except Fault Unit :=
  match keywords.find? fun k => !known.contains k.1 with
  | some (keyword, _) => .error (.unexpectedKeyword name keyword)
  | none => .ok ()

/-- A keyword argument of `print`, where null stands for the default. -/
def stringKeyword (keywords : List (String × Value)) (name default : String) :
    Except Fault String :=
  match keyword? keywords name with
  | none => .ok default
  | some (.string text) => .ok text
  | some .null => .ok default
  | some v => .error (.builtin "print" (name ++ " must be a string, not " ++ v.typeName))

/-- Writes a line and its end, each at once or not at all. -/
def printValues (args : List Value) (keywords : List (String × Value)) : Run Value := do
  let sep ← Run.ofExcept (stringKeyword keywords "sep" " ")
  let ending ← Run.ofExcept (stringKeyword keywords "end" "\n")
  Run.ofExcept (refuseKeywords "print" ["sep", "end"] keywords)
  let texts ← Run.read fun s => args.map (Value.display s)
  Store.write (sep.intercalate texts)
  Store.write ending
  return .void

/-- The only argument of a function that takes one. -/
def onlyArgument (name : String) : List Value → Except Fault Value
  | [v] => .ok v
  | args => .error (.invalidFunctionCall name args.length 1)

/-- The length of a value as an integer. -/
def lengthIn (s : Store) (v : Value) : Except Fault Value :=
  match v.length? s with
  | some n =>
    match Number.integer? n with
    | some n => .ok (.integer n)
    | none => .error (.builtin "len" "length does not fit in an integer")
  | none => .error (.builtin "len" (v.typeName ++ " has no length"))

def lengthOf (args : List Value) (keywords : List (String × Value)) : Run Value := do
  Run.ofExcept (refuseKeywords "len" [] keywords)
  let v ← Run.ofExcept (onlyArgument "len" args)
  Run.readExcept (lengthIn · v)

def bound : Value → Except Fault Int64
  | .integer n => .ok n
  | v => .error (.builtin "range" ("bounds must be integers, not " ++ v.typeName))

/-- The integers from the start up to but not with the stop. -/
def integersBetween (start stop : Int) : List Value :=
  (List.range (stop - start).toNat).map fun (i : Nat) => .integer (Int64.ofInt (start + i))

def rangeOf (args : List Value) (keywords : List (String × Value)) : Run Value := do
  Run.ofExcept (refuseKeywords "range" [] keywords)
  let bounds ← Run.ofExcept (args.mapM bound)
  let (start, stop) ← match bounds with
    | [stop] => pure (0, stop.toInt)
    | [start, stop] => pure (start.toInt, stop.toInt)
    | bounds => Run.fail (.invalidFunctionCall "range" bounds.length 2)
  Run.ofExcept (Value.checkLength (stop - start).toNat)
  Store.newList (integersBetween start stop).toArray

def pushTo (list : ListId) (args : List Value) : Run Value := do
  let v ← Run.ofExcept (onlyArgument "push" args)
  if v.isVoid then Run.fail (.voidAssignment "push")
  else
    Run.modify (·.modifyList list (·.push v))
    return .void

def popFrom (list : ListId) (args : List Value) : Run Value := do
  if args.isEmpty then
    match ← Run.read fun s => (s.list list).back? with
    | none => Run.fail (.builtin "pop" "pop from empty list")
    | some v =>
      Run.modify (·.modifyList list Array.pop)
      return v
  else Run.fail (.invalidFunctionCall "pop" args.length 0)

/-- The list methods take no notice of keywords. -/
def call (action : Action) (args : List Value) (keywords : List (String × Value)) : Run Value :=
  match action with
  | print => printValues args keywords
  | len => lengthOf args keywords
  | range => rangeOf args keywords
  | push list => pushTo list args
  | pop list => popFrom list args

/-- The method of a list with this name. -/
def ofList? (list : ListId) : String → Option Action
  | "push" => some (.push list)
  | "pop" => some (.pop list)
  | _ => none

end Action

end Offside
