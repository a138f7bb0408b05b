import Offside.Evaluation

/-!
# Evaluation is natural in the monad

One level of evaluation is the same for every monad in which parts of a run can be carried out. So a
map between two of these, that respects sequences and the parts of runs, takes the evaluation in the
one to the evaluation in the other.
-/

namespace Offside

/-- A map of such monads. -/
structure RunHom (m n : Type → Type) [Monad m] [MonadLiftT Run m] [Monad n] [MonadLiftT Run n] where
  app : {α : Type} → m α → n α
  app_pure {α : Type} (a : α) : app (pure a : m α) = pure a
  app_bind {α β : Type} (x : m α) (f : α → m β) : app (x >>= f) = app x >>= fun a => app (f a)
  app_liftM {α : Type} (r : Run α) : app (liftM r : m α) = liftM r

variable {m n : Type → Type} [Monad m] [MonadLiftT Run m] [Monad n] [MonadLiftT Run n]
  (φ : RunHom m n) (exec : Scope → Stmt → m Flow)

/-! ## Expressions -/

namespace Expr

variable (eval : Expr → m Value)

theorem app_evalAll (es : List Expr) :
    φ.app (evalAll eval es) = evalAll (fun e => φ.app (eval e)) es := by
  induction es with
  | nil => exact φ.app_pure []
  | cons e rest ih => simp only [evalAll, φ.app_bind, φ.app_pure, ih]

theorem app_evalEntries (es : List (Expr × Expr)) :
    φ.app (evalEntries eval es) = evalEntries (fun e => φ.app (eval e)) es := by
  induction es with
  | nil => exact φ.app_pure []
  | cons e rest ih => simp only [evalEntries, φ.app_bind, φ.app_pure, φ.app_liftM, ih]

theorem app_evalKeywords (es : List (String × Expr)) :
    φ.app (evalKeywords eval es) = evalKeywords (fun e => φ.app (eval e)) es := by
  induction es with
  | nil => exact φ.app_pure []
  | cons e rest ih => simp only [evalKeywords, φ.app_bind, φ.app_pure, ih]

theorem app_evalChain (first : Value) (links : List (Operator × Expr)) :
    φ.app (evalChain eval first links) = evalChain (fun e => φ.app (eval e)) first links := by
  induction links generalizing first with
  | nil => exact φ.app_pure true
  | cons e rest ih =>
    simp only [evalChain, φ.app_bind, φ.app_liftM, apply_ite φ.app, φ.app_pure, ih]

end Expr

theorem Stmt.app_execAll (exec : Stmt → m Flow) (body : List Stmt) :
    φ.app (execAll exec body) = execAll (fun s => φ.app (exec s)) body := by
  induction body with
  | nil => exact φ.app_pure Flow.normal
  | cons s rest ih =>
    simp only [execAll, φ.app_bind]
    congr 1
    funext flow
    cases flow with
    | normal => exact ih
    | _ => exact φ.app_pure _

theorem Function.app_apply (f : Function) (args : List Value) (keywords : List (String × Value)) :
    φ.app (f.apply exec args keywords) =
      f.apply (fun scope s => φ.app (exec scope s)) args keywords := by
  simp only [apply, φ.app_bind, φ.app_liftM, Stmt.app_execAll]

theorem Expr.app_evalCall (eval : Expr → m Value) (callee : Value) (args : List Expr)
    (keywords : List (String × Expr)) :
    φ.app (evalCall eval exec callee args keywords) =
      evalCall (fun e => φ.app (eval e)) (fun scope s => φ.app (exec scope s)) callee args
        keywords := by
  unfold evalCall
  cases callee with
  | function f => simp only [φ.app_bind, app_evalAll, app_evalKeywords, Function.app_apply]
  | builtin b => simp only [φ.app_bind, app_evalAll, app_evalKeywords, φ.app_liftM]
  | classObject c => simp only [φ.app_bind, φ.app_pure, φ.app_liftM]
  | _ => exact φ.app_liftM _

theorem Expr.app_evalStep (eval : Scope → Expr → m Value) (scope : Scope) (e : Expr) :
    φ.app (e.evalStep eval exec scope) =
      e.evalStep (fun scope e => φ.app (eval scope e)) (fun scope s => φ.app (exec scope s))
        scope := by
  unfold evalStep
  cases e with
  | name | member | list | dictionary | not | negative | index =>
    simp only [φ.app_bind, φ.app_pure, φ.app_liftM, app_evalAll, app_evalEntries]
  | binary left op right =>
    simp only [φ.app_bind, apply_ite φ.app, φ.app_pure, φ.app_liftM]
  | compare first ops operands => simp only [φ.app_bind, φ.app_pure, app_evalChain]
  | call callee args keywords => simp only [φ.app_bind, app_evalCall]
  | _ => exact φ.app_pure _

/-! ## Statements -/

namespace Stmt

variable (eval : Expr → m Value)

theorem app_execAssign (scope : Scope) (target value : Expr) :
    φ.app (execAssign eval scope target value) =
      execAssign (fun e => φ.app (eval e)) scope target value := by
  unfold execAssign
  cases target <;> simp only [φ.app_bind, φ.app_liftM]

theorem app_isTrue (test : Expr) :
    φ.app (isTrue eval test) = isTrue (fun e => φ.app (eval e)) test := by
  simp only [isTrue, φ.app_bind, φ.app_liftM]

theorem app_execElse (block : Block → m Flow) (otherwise : Option Block) (branches : List ElseIf) :
    φ.app (execElse eval block otherwise branches) =
      execElse (fun e => φ.app (eval e)) (fun body => φ.app (block body)) otherwise branches := by
  induction branches with
  | nil =>
    cases otherwise with
    | none => exact φ.app_pure Flow.normal
    | some body => rfl
  | cons branch rest ih =>
    simp only [execElse, φ.app_bind, apply_ite φ.app, app_isTrue, ih]

theorem app_execWhile (test : m Bool) (body : m Flow) (fuel : Nat) :
    φ.app (execWhile test body fuel) = execWhile (φ.app test) (φ.app body) fuel := by
  induction fuel with
  | zero => exact φ.app_liftM _
  | succ fuel ih =>
    simp only [execWhile, φ.app_bind, apply_ite φ.app, φ.app_pure]
    congr 1
    funext holds
    congr 2
    funext flow
    cases flow with
    | normal | continuing => exact ih
    | breaking | returning => exact φ.app_pure _

theorem app_execFor (body : Value → m Flow) (items : List Value) :
    φ.app (execFor body items) = execFor (fun item => φ.app (body item)) items := by
  induction items with
  | nil => exact φ.app_pure Flow.normal
  | cons item rest ih =>
    simp only [execFor, φ.app_bind]
    congr 1
    funext flow
    cases flow with
    | normal | continuing => exact ih
    | breaking | returning => exact φ.app_pure _

theorem app_execBlock (scope : Scope) (body : Block) :
    φ.app (execBlock exec scope body) =
      execBlock (fun scope s => φ.app (exec scope s)) scope body := by
  simp only [execBlock, φ.app_bind, φ.app_liftM, app_execAll]

theorem app_execStep (fuel : Nat) (eval : Scope → Expr → m Value) (scope : Scope) (s : Stmt) :
    φ.app (s.execStep fuel eval exec scope) =
      s.execStep fuel (fun scope e => φ.app (eval scope e)) (fun scope s => φ.app (exec scope s))
        scope := by
  have hblock : (fun body => φ.app (execBlock exec scope body)) =
      execBlock (fun scope s => φ.app (exec scope s)) scope :=
    funext (app_execBlock φ exec scope)
  unfold execStep
  cases s with
  | functionDef | classDef | declare => simp only [φ.app_bind, φ.app_pure, φ.app_liftM]
  | assign => simp only [φ.app_bind, φ.app_pure, app_execAssign]
  | ifElse => simp only [app_execElse, hblock]
  | whileLoop => simp only [app_execWhile, app_isTrue, app_execBlock]
  | forLoop => simp only [φ.app_bind, φ.app_liftM, app_execFor, app_execAll]
  | returnStmt value => cases value <;> simp only [φ.app_bind, φ.app_pure]
  | breakStmt | continueStmt => exact φ.app_pure _
  | assertion => simp only [φ.app_bind, apply_ite φ.app, φ.app_pure, φ.app_liftM, app_isTrue]
  | expression => simp only [φ.app_bind, φ.app_pure]

end Stmt

end Offside
