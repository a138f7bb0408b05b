import Offside.Proofs.Store.Operations
import Offside.Proofs.Trace.Log

/-!
# Logics of runs

A logic says what a part of a run ensures while a task is carried out. Its worlds grow as the run
goes on, and what a world admits is admitted in every world that extends it. The rules are those
of sequences, of operations on values and of each operation on scopes, the latter where the
statement in hand calls for it. Definitions are carried out in one operation each, so that no other
operation is ever part of a task that defines something.
-/

namespace Offside

/-! ## Where statements stand -/

/-- What there is around a statement in the same body of a function, or at the same top level. -/
structure Surroundings where
  inLoop : Bool
  inFunction : Bool
deriving DecidableEq

namespace Surroundings

def topLevel : Surroundings := ⟨false, false⟩

def functionBody : Surroundings := ⟨false, true⟩

/-- What there is around the statements in the blocks of a statement. -/
def inside (around : Surroundings) : Stmt → Surroundings
  | .whileLoop _ _ | .forLoop _ _ _ => { around with inLoop := true }
  | _ => around

/-- Whether something around takes this end of a statement. -/
def takes (around : Surroundings) : Flow → Bool
  | .normal => true
  | .returning _ => around.inFunction
  | .breaking | .continuing => around.inLoop

end Surroundings

/-- The blocks that are parts of a statement. Those of the functions it defines are not. -/
def Stmt.blocks : Stmt → List Block
  | .ifElse _ body elseIfs otherwise => body :: elseIfs.map ElseIf.body ++ otherwise.toList
  | .whileLoop _ body | .forLoop _ _ body => [body]
  | _ => []

/-- Definitions have no blocks. -/
theorem Task.defines_of_mem_blocks {scope : Scope} {s : Stmt} {body : Block} (h : body ∈ s.blocks) :
    (Task.executing scope s).defines = false := by
  cases s <;> first | rfl | cases h

/-- The statement ends so by itself, and not because of a statement in it. -/
def Stmt.EndsIn : Stmt → Flow → Prop
  | .breakStmt, .breaking => True
  | .continueStmt, .continuing => True
  | .returnStmt _, .returning _ => True
  | _, _ => False

/-! ## Logics -/

structure Logic (m : Type → Type) [Monad m] [MonadLiftT Run m] where
  World : Type
  /-- The part leads to a world in which this is true of its value, unless it gives none. -/
  Ensures : {α : Type} → Task → World → m α → (World → α → Prop) → Prop
  Extends : World → World → Prop
  /-- The value may be kept in the store. -/
  Stores : World → Value → Prop
  /-- The statement may be executed in the scope. -/
  Allows : World → Surroundings → Scope → Stmt → Prop
  /-- The second scope is one that the statement, executed in the first one, opens for a block. -/
  Opens : World → Scope → Stmt → Scope → Prop
  /-- Whether what is allowed to jump or to return has something around it that takes it. -/
  confined : Prop

namespace Logic

variable {m : Type → Type} [Monad m] [MonadLiftT Run m] (L : Logic m)

/-- What an expression may evaluate to. Void may be passed on but not kept. -/
def Admits (w : L.World) (v : Value) : Prop := v.isVoid = false → L.Stores w v

/-- How a statement may end. -/
def AdmitsFlow (w : L.World) (around : Surroundings) (flow : Flow) : Prop :=
  (∀ v, flow = .returning v → L.Admits w v) ∧ (L.confined → around.takes flow = true)

/-- The rules from which it follows what all of evaluation ensures. -/
structure Rules : Prop where
  -- Sequences
  imp {α : Type} {t : Task} {w : L.World} {x : m α} {Q R : L.World → α → Prop} :
    L.Ensures t w x Q → (∀ w' a, L.Extends w w' → Q w' a → R w' a) → L.Ensures t w x R
  pure {α : Type} {t : Task} {w : L.World} {a : α} {Q : L.World → α → Prop} :
    Q w a → L.Ensures t w (pure a) Q
  bind {α β : Type} {t : Task} {w : L.World} {x : m α} {f : α → m β} {Q : L.World → α → Prop}
    {R : L.World → β → Prop} :
    L.Ensures t w x Q → (∀ w' a, L.Extends w w' → Q w' a → L.Ensures t w' (f a) R) →
    L.Ensures t w (x >>= f) R
  outOfFuel {α : Type} {t : Task} {w : L.World} {Q : L.World → α → Prop} :
    L.Ensures t w (liftM (Run.outOfFuel : Run α)) Q
  -- Worlds
  stores_mono {w w' : L.World} {v : Value} : L.Extends w w' → L.Stores w v → L.Stores w' v
  stores_plain {w : L.World} {v : Value} : v.isPlain = true → L.Stores w v
  stores_instance {w : L.World} {c : Class} (identity : Nat) :
    L.Stores w (.classObject c) → L.Stores w (.classInstance ⟨identity, c⟩)
  allows_mono {w w' : L.World} {around : Surroundings} {scope : Scope} {s : Stmt} :
    L.Extends w w' → L.Allows w around scope s → L.Allows w' around scope s
  opens_mono {w w' : L.World} {scope inner : Scope} {s : Stmt} :
    L.Extends w w' → L.Opens w scope s inner → L.Opens w' scope s inner
  -- Operations on values
  operation {α : Type} {t : Task} {w : L.World} {r : Run α} {Q : α → Prop} :
    t.defines = false → r.Contained (L.Stores w) Q → L.Ensures t w (liftM r) fun _ a => Q a
  -- Names and scopes
  get {t : Task} {w : L.World} {scope : Scope} {n : String} :
    t.defines = false → L.Ensures t w (liftM (Run.readExcept (scope.get n))) L.Stores
  lookup {t : Task} {w : L.World} {scope : Scope} {n : String} :
    t.defines = false → L.Ensures t w (liftM (Run.readExcept (scope.lookup n))) fun _ _ => True
  assign {w : L.World} {around : Surroundings} {scope : Scope} {n : String} {e : Expr} {v : Value} :
    L.Allows w around scope (.assign (.name n) e) → L.Admits w v →
    L.Ensures (.executing scope (.assign (.name n) e)) w (liftM (scope.assign n v)) fun _ _ => True
  declare {w : L.World} {around : Surroundings} {scope : Scope} {n : String} {isMutable : Bool} :
    L.Allows w around scope (.declare n isMutable) →
    L.Ensures (.executing scope (.declare n isMutable)) w
      (liftM (scope.declare n (Stmt.variableRole isMutable))) fun _ _ => True
  defineFunction {w : L.World} {around : Surroundings} {scope : Scope} {definition : FunctionDef} :
    L.Allows w around scope (.functionDef definition) →
    L.Ensures (.executing scope (.functionDef definition)) w
      (liftM (Stmt.defineFunction scope definition)) fun _ _ => True
  defineClass {w : L.World} {around : Surroundings} {scope : Scope} {n : String}
    {methods : List FunctionDef} :
    L.Allows w around scope (.classDef n methods) →
    L.Ensures (.executing scope (.classDef n methods)) w
      (liftM (Stmt.defineClass scope n methods)) fun _ _ => True
  child {w : L.World} {around : Surroundings} {scope : Scope} {s : Stmt} {body : Block} :
    L.Allows w around scope s → body ∈ s.blocks →
    L.Ensures (.executing scope s) w (liftM scope.child) fun w' inner => L.Opens w' scope s inner
  bindLoopVariable {w : L.World} {around : Surroundings} {scope inner : Scope}
    {binder : LoopVariable} {iterable : Expr} {body : Block} {item : Value} :
    L.Allows w around scope (.forLoop binder iterable body) →
    L.Opens w scope (.forLoop binder iterable body) inner → L.Admits w item →
    L.Ensures (.executing scope (.forLoop binder iterable body)) w
      (liftM (Stmt.bindLoopVariable inner binder item)) fun _ _ => True
  enter {w : L.World} {around : Surroundings} {scope inner : Scope} {outer s : Stmt} {body : Block} :
    L.Allows w around scope outer → L.Opens w scope outer inner → body ∈ outer.blocks → s ∈ body →
    L.Allows w (around.inside outer) inner s
  bindArguments {t : Task} {w : L.World} {f : Function} {args : List Value}
    {keywords : List (String × Value)} :
    t.defines = false → L.Stores w (.function f) → (∀ v ∈ args, L.Admits w v) →
    (∀ e ∈ keywords, L.Admits w e.2) →
    L.Ensures t w (liftM (f.bindArguments args keywords)) fun w' inner =>
      ∀ s ∈ f.definition.body, L.Allows w' .functionBody inner s
  -- Ends of statements
  jumps {w : L.World} {around : Surroundings} {scope : Scope} {s : Stmt} {flow : Flow} :
    L.Allows w around scope s → L.confined → s.EndsIn flow → around.takes flow = true
  escapes {t : Task} {w : L.World} {flow : Flow} {e : Fault} {Q : L.World → Value → Prop} :
    t.defines = false → ¬ L.confined → flow.result = .error e →
    L.Ensures t w (liftM (Run.ofExcept flow.result)) Q
  assertionFailed {w : L.World} {scope : Scope} {test : Expr} {Q : L.World → Flow → Prop} :
    L.Ensures (.executing scope (.assertion test)) w
      (liftM (Run.fail (.assertionFailed test) : Run Flow)) Q

end Logic

end Offside
