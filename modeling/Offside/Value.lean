import Offside.Syntax.Tree

/-!
# Values

A value is a scalar, or the handle of something in the store: a list or a dictionary. Functions,
classes and instances never change, so a value holds them whole, with an identity that tells apart
two that look alike.
-/

namespace Offside

/-! ## Handles -/

structure FrameId where
  index : Nat
deriving DecidableEq, Repr

structure ListId where
  index : Nat
deriving DecidableEq, Repr

structure DictionaryId where
  index : Nat
deriving DecidableEq, Repr

/-- A chain of frames, each inside the next. A name means what the nearest frame says. -/
structure Scope where
  innermost : FrameId
  outer : List FrameId
deriving DecidableEq, Repr

def Scope.chain (scope : Scope) : List FrameId := scope.innermost :: scope.outer

/-! ## Functions and classes -/

structure Function where
  identity : Nat
  definition : FunctionDef
  closure : Scope

/-- What a built-in function does. The list methods belong to one list. -/
inductive Action where
  | print
  | len
  | range
  | push (list : ListId)
  | pop (list : ListId)
deriving DecidableEq, Repr

def Action.name : Action → String
  | print => "print"
  | len => "len"
  | range => "range"
  | push _ => "push"
  | pop _ => "pop"

structure Builtin where
  identity : Nat
  action : Action

/-- The methods have different names. -/
structure Class where
  identity : Nat
  name : String
  methods : List Function

def Class.method? (c : Class) (name : String) : Option Function :=
  c.methods.find? fun f => f.definition.name = name

structure Instance where
  identity : Nat
  ofClass : Class

/-! ## Values -/

inductive Value where
  | integer (n : Int64)
  | float (x : Float)
  | string (text : String)
  | boolean (b : Bool)
  | null
  /-- The result of what produces nothing. It is never stored. -/
  | void
  | list (id : ListId)
  | dictionary (id : DictionaryId)
  | function (f : Function)
  | builtin (b : Builtin)
  | classObject (c : Class)
  | classInstance (i : Instance)

namespace Value

def typeName : Value → String
  | integer _ => "integer"
  | float _ => "float"
  | string _ => "string"
  | boolean _ => "boolean"
  | null => "null"
  | void => "void"
  | list _ => "list"
  | dictionary _ => "dictionary"
  | function _ => "function"
  | builtin _ => "native function"
  | classObject _ => "class"
  | classInstance _ => "instance"

def isVoid : Value → Bool
  | void => true
  | _ => false

end Value

/-! ## Dictionary keys -/

inductive Key where
  | integer (n : Int64)
  | string (text : String)
  | boolean (b : Bool)
  | null
deriving DecidableEq

namespace Key

def toValue : Key → Value
  | integer n => .integer n
  | string text => .string text
  | boolean b => .boolean b
  | null => .null

/-- Values of other types are no keys. -/
def ofValue? : Value → Option Key
  | .integer n => some (.integer n)
  | .string text => some (.string text)
  | .boolean b => some (.boolean b)
  | .null => some .null
  | _ => none

@[simp] theorem ofValue?_toValue (k : Key) : ofValue? k.toValue = some k := by
  cases k <;> rfl

theorem toValue_of_ofValue? {v : Value} {k : Key} (h : ofValue? v = some k) : k.toValue = v := by
  cases v <;> simp [ofValue?] at h <;> subst h <;> rfl

end Key

end Offside
