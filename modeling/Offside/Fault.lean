import Offside.Syntax.Source

/-!
# Faults of running programs
-/

namespace Offside

/-- The longest list that a sum, a product or a range makes, and the longest string, in bytes, that
a sum or a product makes. -/
def maxSequenceLength : Nat := 2 ^ 24

/-- Why an operation fails. Types are given by name, and `void` is one of them. -/
inductive Fault where
  /-- The output takes no more. -/
  | sinkFull
  | assertionFailed (test : Expr)
  | undeclaredVariable (name : String)
  | redeclaration (name : String)
  | immutableReassignment (name : String)
  | voidAssignment (target : String)
  | uninitializedVariable (name : String)
  | invalidOperands (op : Operator) (left right : String)
  | invalidNegate (operand : String)
  | integerOverflow (op : Operator)
  | divisionByZero
  | negativeRepeat (n : Int64)
  | sequenceTooLong
  | notCallable (type : String)
  | notIndexable (type : String)
  | notIterable (type : String)
  | invalidIndex (type : String)
  | indexOutOfRange (index : Int64) (length : Nat)
  | missingKey (key : String)
  | unhashableKey (type : String)
  | invalidAssignmentTarget (target : String)
  | unsupportedMember (type name : String)
  | invalidFunctionCall (name : String) (given expected : Nat)
  | unexpectedKeyword (function keyword : String)
  | duplicateArgument (function parameter : String)
  | returnOutsideFunction
  | breakOutsideLoop
  | continueOutsideLoop
  /-- A built-in function refuses its arguments for a reason of its own. -/
  | builtin (function reason : String)

namespace Fault

def text : Fault → String
  | sinkFull => "IO error: sink full"
  | assertionFailed test => "Assertion failed: " ++ test.text
  | undeclaredVariable name => "Undeclared variable: " ++ name
  | redeclaration name => "Redeclaration of " ++ name ++ " in the same scope"
  | immutableReassignment name => "Cannot reassign immutable variable: " ++ name
  | voidAssignment target => "Cannot assign a void value to " ++ target
  | uninitializedVariable name => "Variable used before assignment: " ++ name
  | invalidOperands op left right =>
    "Invalid operation: " ++ left ++ " " ++ op.symbol ++ " " ++ right
  | invalidNegate operand => "Invalid negate operation: -" ++ operand
  | integerOverflow op => "Integer overflow in " ++ op.symbol ++ " operation"
  | divisionByZero => "Division by zero"
  | negativeRepeat n =>
    "Cannot repeat a sequence a negative number of times: " ++ toString n.toInt
  | sequenceTooLong =>
    "Sequence would be longer than " ++ toString maxSequenceLength ++ " elements"
  | notCallable type => "Not callable: " ++ type
  | notIndexable type => "Not indexable: " ++ type
  | notIterable type => "Not iterable: " ++ type
  | invalidIndex type => "Index must be an integer, got " ++ type
  | indexOutOfRange index length =>
    "Index " ++ toString index.toInt ++ " out of range for length " ++ toString length
  | missingKey key => "Missing key: " ++ key
  | unhashableKey type => "Unhashable dictionary key: " ++ type
  | invalidAssignmentTarget target => "Invalid assignment target: " ++ target
  | unsupportedMember type name => "Unsupported attribute " ++ name ++ " on " ++ type
  | invalidFunctionCall name given expected =>
    "Invalid function call: " ++ name ++ " called with " ++ toString given
      ++ " arguments, expected " ++ toString expected
  | unexpectedKeyword function keyword =>
    function ++ " got an unexpected keyword argument " ++ keyword
  | duplicateArgument function parameter =>
    function ++ " got multiple values for argument " ++ parameter
  | returnOutsideFunction => "return outside of a function"
  | breakOutsideLoop => "break outside of a loop"
  | continueOutsideLoop => "continue outside of a loop"
  | builtin function reason => function ++ ": " ++ reason

end Fault

end Offside
