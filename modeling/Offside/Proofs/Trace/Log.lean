import Offside.Machine
import Offside.Proofs.Store.Meets

/-!
# Runs with a log

A traced run does what the run does and logs each of its steps on the store, with the expression
or the statement that was being carried out. The log leads from the store at the start to the one
at the end, and what is logged of a run that fails or goes on is kept.
-/

namespace Offside

/-! ## Logs -/

/-- What is being carried out, and in which scope. -/
inductive Task where
  | evaluating (scope : Scope) (e : Expr)
  | executing (scope : Scope) (s : Stmt)

def Task.scope : Task → Scope
  | evaluating scope _ => scope
  | executing scope _ => scope

/-- The task is the execution of a definition. -/
def Task.defines : Task → Bool
  | executing _ (.functionDef _) | executing _ (.classDef _ _) => true
  | _ => false

structure Step where
  task : Task
  before : Store
  after : Store

/-- Each step begins where the one before has ended. -/
def Leads (s : Store) : List Step → Store → Prop
  | [], s' => s = s'
  | step :: rest, s' => step.before = s ∧ Leads step.after rest s'

theorem Leads.append {s s' s'' : Store} {log log' : List Step} (h : Leads s log s')
    (h' : Leads s' log' s'') : Leads s (log ++ log') s'' := by
  induction log generalizing s with
  | nil =>
    obtain rfl := h
    exact h'
  | cons step rest ih => exact ⟨h.1, ih h.2⟩

/-- The log leads to the store at the end, or to some store where there is no end. -/
def Outcome.IsReached {α : Type} (s : Store) (log : List Step) : Outcome α → Prop
  | .done _ s' | .failed _ s' => Leads s log s'
  | .outOfFuel => ∃ s', Leads s log s'

/-! ## Traced runs -/

structure Traced (α : Type) where
  run : Run α
  log : Task → Store → List Step
  isReached : ∀ task s, (run s).IsReached s (log task s)

namespace Traced

variable {α β : Type}

protected def pure (a : α) : Traced α where
  run := pure a
  log _ _ := []
  isReached _ _ := rfl

/-- What is logged after a first part, if it ends with a value. -/
def logAfter (f : α → Traced β) (task : Task) : Outcome α → List Step
  | .done a s => (f a).log task s
  | .failed _ _ | .outOfFuel => []

protected def bind (x : Traced α) (f : α → Traced β) : Traced β where
  run := x.run >>= fun a => (f a).run
  log task s := x.log task s ++ logAfter f task (x.run s)
  isReached task s := by
    have hx := x.isReached task s
    rw [Run.bind_apply]
    cases hrun : x.run s with
    | done a s' =>
      rw [hrun] at hx
      have hf := (f a).isReached task s'
      show ((f a).run s').IsReached s (x.log task s ++ (f a).log task s')
      cases hrun' : (f a).run s' with
      | done b s'' =>
        rw [hrun'] at hf
        exact Leads.append hx hf
      | failed e s'' =>
        rw [hrun'] at hf
        exact Leads.append hx hf
      | outOfFuel =>
        rw [hrun'] at hf
        obtain ⟨s'', hf⟩ := hf
        exact ⟨s'', Leads.append hx hf⟩
    | failed e s' =>
      rw [hrun] at hx
      show Leads s (x.log task s ++ []) s'
      rwa [List.append_nil]
    | outOfFuel =>
      rw [hrun] at hx
      show ∃ s', Leads s (x.log task s ++ []) s'
      rwa [List.append_nil]

instance : Monad Traced where
  pure := Traced.pure
  bind := Traced.bind

/-- One step, which is logged unless it runs out of fuel. -/
def step (r : Run α) : Traced α where
  run := r
  log task s :=
    match r s with
    | .done _ s' | .failed _ s' => [⟨task, s, s'⟩]
    | .outOfFuel => []
  isReached task s := by
    cases hrun : r s with
    | done a s' => exact ⟨rfl, rfl⟩
    | failed e s' => exact ⟨rfl, rfl⟩
    | outOfFuel => exact ⟨s, rfl⟩

instance : MonadLiftT Run Traced := ⟨step⟩

theorem log_liftM (r : Run α) (task : Task) (s : Store) :
    (liftM r : Traced α).log task s =
      match r s with
      | .done _ s' | .failed _ s' => [⟨task, s, s'⟩]
      | .outOfFuel => [] := rfl

/-- What is logged inside belongs to this task. -/
def within (task : Task) (x : Traced α) : Traced α where
  run := x.run
  log _ s := x.log task s
  isReached _ s := x.isReached task s

end Traced

/-! ## Traced evaluation -/

mutual

def Expr.trace : Nat → Scope → Expr → Traced Value
  | 0, _, _ => Traced.step Run.outOfFuel
  | fuel + 1, scope, e =>
    .within (.evaluating scope e) (e.evalStep (Expr.trace fuel) (Stmt.trace fuel) scope)

def Stmt.trace : Nat → Scope → Stmt → Traced Flow
  | 0, _, _ => Traced.step Run.outOfFuel
  | fuel + 1, scope, s =>
    .within (.executing scope s) (s.execStep fuel (Expr.trace fuel) (Stmt.trace fuel) scope)

end

/-- The steps of a program, statement by statement up to the first one that fails. -/
def Program.steps (fuel : Nat) (globals : Scope) : Program → Store → List Step
  | [], _ => []
  | s :: rest, store =>
    (s.trace fuel globals).log (.executing globals s) store ++
      match s.execTopLevel fuel globals store with
      | .done () store' => Program.steps fuel globals rest store'
      | .failed _ _ | .outOfFuel => []

end Offside
