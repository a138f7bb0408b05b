import Offside.Evaluation.Arguments
import Offside.Evaluation.Builtin

/-!
# Evaluation

Expressions are evaluated from left to right, operands before their operator. A statement says
how it ended, and all but a normal end travels outward to the loop or call that it is meant for.
Fuel bounds how deep evaluation goes and how often a `while` loop goes around.

One level of evaluation is the same for every monad in which parts of a run can be carried out.
-/

namespace Offside

/-- How a statement ends. -/
inductive Flow where
  | normal
  | returning (v : Value)
  | breaking
  | continuing

variable {m : Type → Type} [Monad m] [MonadLiftT Run m]

/-! ## Parts of expressions -/

namespace Expr

/-- A value about to be stored in a container. -/
def storable (what : String) (v : Value) : Except Fault Value :=
  if v.isVoid then .error (.voidAssignment what) else .ok v

@[specialize]
def evalAll (eval : Expr → m Value) : List Expr → m (List Value)
  | [] => return []
  | e :: rest => do
    let v ← eval e
    return v :: (← evalAll eval rest)

@[specialize]
def evalEntries (eval : Expr → m Value) : List (Expr × Expr) → m (List (Key × Value))
  | [] => return []
  | (key, value) :: rest => do
    let k ← Run.ofExcept (Value.key (← eval key))
    let v ← Run.ofExcept (storable "dictionary value" (← eval value))
    return (k, v) :: (← evalEntries eval rest)

@[specialize]
def evalKeywords (eval : Expr → m Value) : List (String × Expr) → m (List (String × Value))
  | [] => return []
  | (keyword, value) :: rest => do
    let v ← eval value
    return (keyword, v) :: (← evalKeywords eval rest)

/-- A chain of comparisons from its first value on. What follows a link that does not hold is not
evaluated. -/
@[specialize]
def evalChain (eval : Expr → m Value) (first : Value) : List (Operator × Expr) → m Bool
  | [] => return true
  | (op, operand) :: rest => do
    let v ← eval operand
    if ← Run.readExcept (Value.compares · op first v) then evalChain eval v rest
    else return false

end Expr

/-! ## Blocks and calls -/

/-- Executes statements up to the first that does not end normally. -/
@[specialize]
def Stmt.execAll (exec : Stmt → m Flow) : List Stmt → m Flow
  | [] => return .normal
  | s :: rest => do
    match ← exec s with
    | .normal => execAll exec rest
    | flow => return flow

/-- Executes a block in a scope of its own inside the given one. -/
@[specialize]
def Stmt.execBlock (exec : Scope → Stmt → m Flow) (scope : Scope) (body : Block) : m Flow := do
  let inner ← scope.child
  Stmt.execAll (exec inner) body

/-- The value that a call gets from the end of a function body. -/
def Flow.result : Flow → Except Fault Value
  | normal => .ok .void
  | returning v => .ok v
  | breaking => .error .breakOutsideLoop
  | continuing => .error .continueOutsideLoop

@[specialize]
def Function.apply (exec : Scope → Stmt → m Flow) (f : Function) (args : List Value)
    (keywords : List (String × Value)) : m Value := do
  let scope ← f.bindArguments args keywords
  let flow ← Stmt.execAll (exec scope) f.definition.body
  Run.ofExcept flow.result

/-! ## Expressions -/

namespace Expr

/-- Calls what a callee evaluates to. A class makes an instance, whatever the arguments, which are
then not evaluated. -/
@[specialize]
def evalCall (eval : Expr → m Value) (exec : Scope → Stmt → m Flow) (callee : Value)
    (args : List Expr) (keywords : List (String × Expr)) : m Value := do
  match callee with
  | .classObject c => return .classInstance ⟨← Store.freshIdentity, c⟩
  | .function f =>
    let args ← evalAll eval args
    let keywords ← evalKeywords eval keywords
    f.apply exec args keywords
  | .builtin b =>
    let args ← evalAll eval args
    let keywords ← evalKeywords eval keywords
    b.action.call args keywords
  | v => Run.fail (.notCallable v.typeName)

/-- Only lists have members. -/
def evalMember (v : Value) (member : String) : Run Value := do
  match v with
  | .list id =>
    match Action.ofList? id member with
    | some action => return .builtin ⟨← Store.freshIdentity, action⟩
    | none => Run.fail (.unsupportedMember v.typeName member)
  | v => Run.fail (.unsupportedMember v.typeName member)

/-- One level of evaluation, given the evaluation of the levels below. -/
@[specialize]
def evalStep (eval : Scope → Expr → m Value) (exec : Scope → Stmt → m Flow) (scope : Scope)
    (e : Expr) : m Value := do
  match e with
  | .name n => Run.readExcept (scope.get n)
  | .integer n => return .integer n
  | .float x => return .float x
  | .string text => return .string text
  | .boolean b => return .boolean b
  | .null => return .null
  | .list items =>
    let items ← evalAll (fun e => do Run.ofExcept (storable "list item" (← eval scope e))) items
    Store.newList items.toArray
  | .dictionary entries => Store.newDictionary (.ofList (← evalEntries (eval scope) entries))
  | .not operand =>
    let v ← eval scope operand
    return .boolean (!(← Run.read (Value.isTruthy · v)))
  | .negative operand => Run.ofExcept (Number.negate (← eval scope operand))
  | .binary left op right =>
    let v ← eval scope left
    let w ← eval scope right
    if op.isComparison then return .boolean (← Run.readExcept (Value.compares · op v w))
    else Value.arithmetic op v w
  | .compare first ops operands =>
    let v ← eval scope first
    return .boolean (← evalChain (eval scope) v (ops.zip operands))
  | .call callee args keywords => evalCall (eval scope) exec (← eval scope callee) args keywords
  | .index target key =>
    let v ← eval scope target
    let k ← eval scope key
    Run.readExcept (Value.index · v k)
  | .member target n => evalMember (← eval scope target) n

end Expr

/-! ## Statements -/

namespace Stmt

def variableRole (isMutable : Bool) : Role := if isMutable then .variable else .immutableVariable

/-- A function closes over a snapshot, in which it is then known by its own name. -/
def defineFunction (scope : Scope) (definition : FunctionDef) : Run Unit := do
  let closure ← scope.snapshot
  let f : Value := .function ⟨← Store.freshIdentity, definition, closure⟩
  scope.define definition.name .function f
  closure.define definition.name .function f

/-- Of methods with one name the last one counts. -/
def lastOfEachName : List FunctionDef → List FunctionDef
  | [] => []
  | f :: rest =>
    if rest.any fun g => g.name = f.name then lastOfEachName rest else f :: lastOfEachName rest

/-- All methods close over one snapshot, in which the class is then known by its name. -/
def defineClass (scope : Scope) (name : String) (methods : List FunctionDef) : Run Unit := do
  let closure ← scope.snapshot
  let methods ← (lastOfEachName methods).mapM fun definition =>
    return ⟨← Store.freshIdentity, definition, closure⟩
  let c : Value := .classObject ⟨← Store.freshIdentity, name, methods⟩
  scope.define name .classDefinition c
  closure.define name .classDefinition c

/-- Assigns to a name, which has to be declared before the value is evaluated, or to a place in a
container. -/
@[specialize]
def execAssign (eval : Expr → m Value) (scope : Scope) (target value : Expr) : m Unit := do
  match target with
  | .name n =>
    let _ ← Run.readExcept (scope.lookup n)
    scope.assign n (← eval value)
  | .index target key =>
    let container ← eval target
    let k ← eval key
    container.setIndex k (← eval value)
  | .member target n =>
    let v ← eval target
    let _ ← eval value
    Run.fail (.unsupportedMember v.typeName n)
  | target => Run.fail (.invalidAssignmentTarget target.text)

@[specialize]
def isTrue (eval : Expr → m Value) (test : Expr) : m Bool := do
  let v ← eval test
  Run.read (Value.isTruthy · v)

/-- Executes the first block whose test holds. -/
@[specialize]
def execElse (eval : Expr → m Value) (block : Block → m Flow) (otherwise : Option Block) :
    List ElseIf → m Flow
  | [] =>
    match otherwise with
    | some body => block body
    | none => return .normal
  | branch :: rest => do
    if ← isTrue eval branch.test then block branch.body
    else execElse eval block otherwise rest

@[specialize]
def execWhile (test : m Bool) (body : m Flow) : Nat → m Flow
  | 0 => Run.outOfFuel
  | fuel + 1 => do
    if ← test then
      match ← body with
      | .normal | .continuing => execWhile test body fuel
      | .breaking => return .normal
      | .returning v => return .returning v
    else return .normal

@[specialize]
def execFor (body : Value → m Flow) : List Value → m Flow
  | [] => return .normal
  | item :: rest => do
    match ← body item with
    | .normal | .continuing => execFor body rest
    | .breaking => return .normal
    | .returning v => return .returning v

/-- Gives the loop variable its value for one round, in the scope of that round. -/
def bindLoopVariable (scope : Scope) (binder : LoopVariable) (item : Value) : Run Unit :=
  match binder with
  | .name n => scope.assign n item
  | .declared n isMutable => scope.define n (variableRole isMutable) item

/-- One level of execution, given evaluation and execution of the levels below. -/
@[specialize]
def execStep (fuel : Nat) (eval : Scope → Expr → m Value) (exec : Scope → Stmt → m Flow)
    (scope : Scope) (s : Stmt) : m Flow := do
  match s with
  | .functionDef definition =>
    defineFunction scope definition
    return .normal
  | .classDef name methods =>
    defineClass scope name methods
    return .normal
  | .declare name isMutable =>
    scope.declare name (variableRole isMutable)
    return .normal
  | .assign target value =>
    execAssign (eval scope) scope target value
    return .normal
  | .ifElse test body elseIfs otherwise =>
    execElse (eval scope) (execBlock exec scope) otherwise (⟨test, body⟩ :: elseIfs)
  | .whileLoop test body => execWhile (isTrue (eval scope) test) (execBlock exec scope body) fuel
  | .forLoop binder iterable body =>
    let v ← eval scope iterable
    let items ← Run.readExcept (Value.iterate · v)
    execFor (fun item => do
      let inner ← scope.child
      bindLoopVariable inner binder item
      execAll (exec inner) body) items
  | .returnStmt none => return .returning .void
  | .returnStmt (some e) => return .returning (← eval scope e)
  | .breakStmt => return .breaking
  | .continueStmt => return .continuing
  | .assertion test =>
    if ← isTrue (eval scope) test then return .normal else Run.fail (.assertionFailed test)
  | .expression e =>
    let _ ← eval scope e
    return .normal

end Stmt

/-! ## All levels -/

mutual

def Expr.eval : Nat → Scope → Expr → Run Value
  | 0, _, _ => Run.outOfFuel
  | fuel + 1, scope, e => e.evalStep (Expr.eval fuel) (Stmt.exec fuel) scope

def Stmt.exec : Nat → Scope → Stmt → Run Flow
  | 0, _, _ => Run.outOfFuel
  | fuel + 1, scope, s => s.execStep fuel (Expr.eval fuel) (Stmt.exec fuel) scope

end

end Offside
