import Offside.Proofs.Trace.Log
import Offside.Proofs.Trace.Naturality

/-!
# Tracing changes nothing

Without its log, a traced run is the run itself.
-/

namespace Offside

/-- A traced run without its log. -/
def Traced.erasure : RunHom Traced Run where
  app := Traced.run
  app_pure _ := rfl
  app_bind _ _ := rfl
  app_liftM _ := rfl

theorem run_trace (fuel : Nat) :
    (∀ scope e, (Expr.trace fuel scope e).run = e.eval fuel scope) ∧
      ∀ scope s, (Stmt.trace fuel scope s).run = s.exec fuel scope := by
  induction fuel with
  | zero => exact ⟨fun _ _ => rfl, fun _ _ => rfl⟩
  | succ fuel ih =>
    have heval : (fun scope e => (Expr.trace fuel scope e).run) =
        fun scope e => e.eval fuel scope :=
      funext fun scope => funext (ih.1 scope)
    have hexec : (fun scope s => (Stmt.trace fuel scope s).run) =
        fun scope s => s.exec fuel scope :=
      funext fun scope => funext (ih.2 scope)
    constructor
    · intro scope e
      refine (Expr.app_evalStep Traced.erasure _ _ scope e).trans ?_
      show e.evalStep (fun scope e => (Expr.trace fuel scope e).run)
        (fun scope s => (Stmt.trace fuel scope s).run) scope = _
      rw [heval, hexec]
      rfl
    · intro scope s
      refine (Stmt.app_execStep Traced.erasure _ fuel _ scope s).trans ?_
      show s.execStep fuel (fun scope e => (Expr.trace fuel scope e).run)
        (fun scope s => (Stmt.trace fuel scope s).run) scope = _
      rw [heval, hexec]
      rfl

/-! ## Programs -/

/-- The log leads to the store in which the program ends. -/
def Ending.IsReached (s : Store) (log : List Step) : Ending → Prop
  | .finished s' | .stopped _ s' => Leads s log s'
  | .outOfFuel => ∃ s', Leads s log s'

theorem Ending.IsReached.append {s s' : Store} {log log' : List Step} {ending : Ending}
    (h : Leads s log s') (h' : ending.IsReached s' log') : ending.IsReached s (log ++ log') := by
  cases ending with
  | finished _ => exact Leads.append h h'
  | stopped _ _ => exact Leads.append h h'
  | outOfFuel =>
    obtain ⟨s'', h'⟩ := h'
    exact ⟨s'', h.append h'⟩

theorem Program.isReached_steps (fuel : Nat) (globals : Scope) (p : Program) (store : Store) :
    (Program.run fuel globals p store).IsReached store (p.steps fuel globals store) := by
  induction p generalizing store with
  | nil => exact rfl
  | cons s rest ih =>
    have hlog := (s.trace fuel globals).isReached (.executing globals s) store
    rw [(run_trace fuel).2] at hlog
    unfold Program.run Program.steps Stmt.execTopLevel
    rw [Run.bind_apply]
    cases hexec : s.exec fuel globals store with
    | done flow store' =>
      rw [hexec] at hlog
      cases flow with
      | normal => exact Ending.IsReached.append hlog (ih store')
      | returning v => exact Ending.IsReached.append hlog rfl
      | breaking => exact Ending.IsReached.append hlog rfl
      | continuing => exact Ending.IsReached.append hlog rfl
    | failed e store' =>
      rw [hexec] at hlog
      exact Ending.IsReached.append hlog rfl
    | outOfFuel =>
      rw [hexec] at hlog
      obtain ⟨store', hlog⟩ := hlog
      exact ⟨store', hlog.append rfl⟩

end Offside
