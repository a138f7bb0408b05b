import Offside.Machine

/-!
# Programs that declare their names

A program is well scoped if every name that it uses is declared before in the same block or in one
around it, and no block declares a name twice. The body of a function sees what is declared before
the function, the function itself and its parameters. A method sees its class in place of itself.
-/

namespace Offside

/-- The names that a statement sees: those of the blocks around its own, and those that its own
block has declared so far. -/
structure View where
  outer : List String
  block : List String

namespace View

def names (view : View) : List String := view.block ++ view.outer

/-- What the first statement sees in a block inside that declares these names at its start. -/
def enter (view : View) (declared : List String) : View := ⟨view.names, declared⟩

/-- What the next statement sees, after one that declares these names. -/
def declare (view : View) (declared : List String) : View :=
  { view with block := declared ++ view.block }

end View

/-! ## Names in expressions -/

mutual

/-- The names that an expression reads. -/
def Expr.names : Expr → List String
  | .name n => [n]
  | .integer _ | .float _ | .string _ | .boolean _ | .null => []
  | .list items => Expr.namesOfAll items
  | .dictionary entries => Expr.namesOfEntries entries
  | .not operand | .negative operand => operand.names
  | .binary left _ right => left.names ++ right.names
  | .compare first _ operands => first.names ++ Expr.namesOfAll operands
  | .call callee args keywords =>
    callee.names ++ Expr.namesOfAll args ++ Expr.namesOfKeywords keywords
  | .index target key => target.names ++ key.names
  | .member target _ => target.names
termination_by structural e => e

def Expr.namesOfAll : List Expr → List String
  | [] => []
  | e :: rest => e.names ++ Expr.namesOfAll rest
termination_by structural es => es

def Expr.namesOfEntries : List (Expr × Expr) → List String
  | [] => []
  | (key, value) :: rest => key.names ++ value.names ++ Expr.namesOfEntries rest
termination_by structural es => es

def Expr.namesOfKeywords : List (String × Expr) → List String
  | [] => []
  | (_, value) :: rest => value.names ++ Expr.namesOfKeywords rest
termination_by structural es => es

end

def View.sees (view : View) (names : List String) : Bool := names.all view.names.contains

/-! ## Names in statements -/

/-- The names that a statement declares in its own block. -/
def Stmt.declared : Stmt → List String
  | .functionDef definition => [definition.name]
  | .classDef name _ => [name]
  | .declare name _ => [name]
  | _ => []

/-- The names that the body of a loop declares at its start. -/
def LoopVariable.declares : LoopVariable → List String
  | .name _ => []
  | .declared n _ => [n]

/-- The names that a loop assigns to and does not declare. -/
def LoopVariable.assigns : LoopVariable → List String
  | .name n => [n]
  | .declared _ _ => []

mutual

/-- The statement uses names that it sees, and declares none that its block has declared. -/
def Stmt.wellScoped (view : View) : Stmt → Bool
  | .functionDef definition =>
    !view.block.contains definition.name &&
      definition.wellScoped (definition.name :: view.names)
  | .classDef name methods =>
    !view.block.contains name && FunctionDef.wellScopedAll (name :: view.names) methods
  | .declare name _ => !view.block.contains name
  | .assign target value => view.sees target.names && view.sees value.names
  | .ifElse test body elseIfs otherwise =>
    view.sees test.names && Stmt.wellScopedAll (view.enter []) body &&
      ElseIf.wellScopedAll view elseIfs && Stmt.wellScopedOption (view.enter []) otherwise
  | .whileLoop test body => view.sees test.names && Stmt.wellScopedAll (view.enter []) body
  | .forLoop binder iterable body =>
    view.sees binder.assigns && view.sees iterable.names &&
      Stmt.wellScopedAll (view.enter binder.declares) body
  | .returnStmt value => value.all fun e => view.sees e.names
  | .breakStmt | .continueStmt => true
  | .assertion test => view.sees test.names
  | .expression e => view.sees e.names
termination_by structural s => s

/-- The body sees these names and the parameters, which are all different. -/
def FunctionDef.wellScoped (outer : List String) : FunctionDef → Bool
  | ⟨_, parameters, body⟩ => parameters.Nodup && Stmt.wellScopedAll ⟨outer, parameters⟩ body
termination_by structural f => f

def Stmt.wellScopedAll (view : View) : List Stmt → Bool
  | [] => true
  | s :: rest => s.wellScoped view && Stmt.wellScopedAll (view.declare s.declared) rest
termination_by structural ss => ss

def FunctionDef.wellScopedAll (outer : List String) : List FunctionDef → Bool
  | [] => true
  | f :: rest => f.wellScoped outer && FunctionDef.wellScopedAll outer rest
termination_by structural fs => fs

def ElseIf.wellScopedAll (view : View) : List ElseIf → Bool
  | [] => true
  | ⟨test, body⟩ :: rest =>
    view.sees test.names && Stmt.wellScopedAll (view.enter []) body &&
      ElseIf.wellScopedAll view rest
termination_by structural bs => bs

def Stmt.wellScopedOption (view : View) : Option (List Stmt) → Bool
  | none => true
  | some body => Stmt.wellScopedAll view body
termination_by structural b => b

end

/-- The program is well scoped on a machine with these built-in functions. -/
def Program.wellScoped (actions : List Action) (p : Program) : Bool :=
  Stmt.wellScopedAll ⟨[], actions.map Action.name⟩ p

/-- The faults of names that are not declared, or declared again. -/
def Fault.ofNames : Fault → Bool
  | .undeclaredVariable _ | .redeclaration _ => true
  | _ => false

end Offside
