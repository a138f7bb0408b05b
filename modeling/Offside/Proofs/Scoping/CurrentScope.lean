import Offside.Proofs.Store.Meets
import Offside.Proofs.Trace.Naturality

/-!
# The current scope

Evaluation is given its scope. One may as well keep a current scope beside the store, in which names
are read and declared, make the scope of each part the current one and put back the one before when
the part has ended. That comes to the same, and in the end the current scope is the one that it was.
-/

namespace Offside

/-- A run with a current scope. -/
def Seated (α : Type) : Type := Scope → Store → Outcome α × Scope

namespace Seated

variable {α β : Type}

protected def pure (a : α) : Seated α := fun here s => (.done a s, here)

protected def bind (x : Seated α) (f : α → Seated β) : Seated β := fun here s =>
  match x here s with
  | (.done a s, here) => f a here s
  | (.failed e s, here) => (.failed e s, here)
  | (.outOfFuel, here) => (.outOfFuel, here)

instance : Monad Seated where
  pure := Seated.pure
  bind := Seated.bind

/-- A part that does nothing to the current scope. -/
def ofRun (r : Run α) : Seated α := fun here s => (r s, here)

instance : MonadLiftT Run Seated := ⟨ofRun⟩

def current : Seated Scope := fun here s => (.done here s, here)

/-- Makes the scope the current one, and puts back the one before however the part ends. -/
def within (scope : Scope) (x : Seated α) : Seated α := fun before s => ((x scope s).1, before)

end Seated

mutual

/-- Evaluates in the current scope. -/
def Expr.evalHere : Nat → Expr → Seated Value
  | 0, _ => .ofRun Run.outOfFuel
  | fuel + 1, e => do
    e.evalStep (fun scope e => .within scope (Expr.evalHere fuel e))
      (fun scope s => .within scope (Stmt.execHere fuel s)) (← Seated.current)

/-- Executes in the current scope. -/
def Stmt.execHere : Nat → Stmt → Seated Flow
  | 0, _ => .ofRun Run.outOfFuel
  | fuel + 1, s => do
    s.execStep fuel (fun scope e => .within scope (Expr.evalHere fuel e))
      (fun scope s => .within scope (Stmt.execHere fuel s)) (← Seated.current)

end

namespace Seated

/-- Every run is one with a current scope. -/
def inclusion : RunHom Run Seated where
  app := ofRun
  app_pure _ := rfl
  app_bind x f := by
    funext here s
    show ((x >>= f) s, here) = Seated.bind (ofRun x) (fun a => ofRun (f a)) here s
    unfold Seated.bind ofRun
    rw [Run.bind_apply]
    cases x s <;> rfl
  app_liftM _ := rfl

end Seated

/-- The scope that evaluation is given may be kept as the current one, which stays the same however
evaluation ends. -/
theorem evalHere_execHere (fuel : Nat) :
    (∀ (e : Expr) scope s, e.evalHere fuel scope s = (e.eval fuel scope s, scope)) ∧
      ∀ (st : Stmt) scope s, st.execHere fuel scope s = (st.exec fuel scope s, scope) := by
  induction fuel with
  | zero => exact ⟨fun _ _ _ => rfl, fun _ _ _ => rfl⟩
  | succ fuel ih =>
    have heval : (fun scope (e : Expr) => Seated.within scope (e.evalHere fuel)) =
        fun scope e => Seated.inclusion.app (e.eval fuel scope) := by
      funext scope e before s
      show ((e.evalHere fuel scope s).1, before) = (e.eval fuel scope s, before)
      rw [ih.1]
    have hexec : (fun scope (st : Stmt) => Seated.within scope (st.execHere fuel)) =
        fun scope st => Seated.inclusion.app (st.exec fuel scope) := by
      funext scope st before s
      show ((st.execHere fuel scope s).1, before) = (st.exec fuel scope s, before)
      rw [ih.2]
    constructor
    · intro e scope s
      show e.evalStep (fun scope e => Seated.within scope (e.evalHere fuel))
        (fun scope st => Seated.within scope (st.execHere fuel)) scope scope s = _
      rw [heval, hexec, ← Expr.app_evalStep]
      rfl
    · intro st scope s
      show st.execStep fuel (fun scope e => Seated.within scope (e.evalHere fuel))
        (fun scope st => Seated.within scope (st.execHere fuel)) scope scope s = _
      rw [heval, hexec, ← Stmt.app_execStep]
      rfl

end Offside
