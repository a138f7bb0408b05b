/-!
# Syntax trees

Expressions, statements and programs. A tree may be one that no text is read as, such as a
comparison without operators or a loop with an empty body.
-/

namespace Offside

inductive Operator where
  | add | subtract | multiply | divide
  | greater | greaterEqual | less | lessEqual | equal | notEqual
deriving DecidableEq, Repr

namespace Operator

def isComparison : Operator → Bool
  | add | subtract | multiply | divide => false
  | _ => true

def symbol : Operator → String
  | add => "+"
  | subtract => "-"
  | multiply => "*"
  | divide => "/"
  | greater => ">"
  | greaterEqual => ">="
  | less => "<"
  | lessEqual => "<="
  | equal => "=="
  | notEqual => "!="

end Operator

inductive Expr where
  | name (name : String)
  | integer (n : Int64)
  | float (x : Float)
  | string (text : String)
  | boolean (b : Bool)
  | null
  | list (items : List Expr)
  | dictionary (entries : List (Expr × Expr))
  | not (operand : Expr)
  | negative (operand : Expr)
  | binary (left : Expr) (op : Operator) (right : Expr)
  /-- A chain of comparisons, where each operand but the first has the operator before it. -/
  | compare (first : Expr) (ops : List Operator) (operands : List Expr)
  | call (callee : Expr) (args : List Expr) (keywords : List (String × Expr))
  | index (target key : Expr)
  | member (target : Expr) (name : String)

/-- The variable of a `for` loop, one in scope or one that each round declares anew. -/
inductive LoopVariable where
  | name (name : String)
  | declared (name : String) (isMutable : Bool)
deriving DecidableEq, Repr

mutual

inductive Stmt where
  | functionDef (definition : FunctionDef)
  | classDef (name : String) (methods : List FunctionDef)
  | declare (name : String) (isMutable : Bool)
  | assign (target value : Expr)
  | ifElse (test : Expr) (body : List Stmt) (elseIfs : List ElseIf)
      (otherwise : Option (List Stmt))
  | whileLoop (test : Expr) (body : List Stmt)
  | forLoop (binder : LoopVariable) (iterable : Expr) (body : List Stmt)
  | returnStmt (value : Option Expr)
  | breakStmt
  | continueStmt
  | assertion (test : Expr)
  | expression (e : Expr)

structure FunctionDef where
  name : String
  parameters : List String
  body : List Stmt

structure ElseIf where
  test : Expr
  body : List Stmt

end

abbrev Block := List Stmt

abbrev Program := Block

end Offside
