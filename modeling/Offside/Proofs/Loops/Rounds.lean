import Offside.Proofs.Bindings.Arguments
import Offside.Proofs.Loops.Halting
import Offside.Proofs.Trace.Erasure

/-!
# Rounds of loops

The items of a `for` loop are read once, when the loop begins. All that the loop does afterwards is
to enter its body for one item after another, with the loop variable bound to the item. So whatever
the body does to the list, it is entered no more often than the list had items.
-/

namespace Offside

open Run Store

/-! ## Rounds -/

/-- The name of the loop variable. -/
def LoopVariable.variable : LoopVariable → String
  | .name n | .declared n _ => n

/-- In the scope of a round, the loop variable has the item as its value. -/
theorem Stmt.get_of_bindLoopVariable {inner : Scope} {binder : LoopVariable} {item : Value}
    {s t : Store} (h : bindLoopVariable inner binder item s = .done () t) :
    inner.get binder.variable t = .ok item := by
  cases binder with
  | name n => exact Scope.get_of_assign h
  | declared n isMutable =>
    obtain ⟨_, s', -, hassign⟩ := bind_eq_done.mp h
    exact Scope.get_of_assign hassign

/-- A round of a loop, in which the body is entered. -/
structure Round where
  /-- The scope of the round. -/
  inner : Scope
  before : Store
  /-- The store with the new scope. -/
  opened : Store
  entered : Store

namespace Round

/-- The round opens a scope and enters the body with the loop variable bound to the item. -/
structure Enters (scope : Scope) (binder : LoopVariable) (round : Round) (item : Value) : Prop where
  opens : scope.child round.before = .done round.inner round.opened
  binds : Stmt.bindLoopVariable round.inner binder item round.opened = .done () round.entered
  holds : round.inner.get binder.variable round.entered = .ok item

/-- The steps of a round are those of its beginning and those of the body. -/
def steps (fuel : Nat) (loop : Task) (body : Block) (round : Round) : List Step :=
  ⟨loop, round.before, round.opened⟩ :: ⟨loop, round.opened, round.entered⟩ ::
    (Stmt.execAll (Stmt.trace fuel round.inner) body).log loop round.entered

end Round

/-- The loop variable does not take the item, so that the body is not entered. -/
def Refuses (scope : Scope) (binder : LoopVariable) (loop : Task) (item : Value)
    (log : List Step) : Prop :=
  ∃ before inner opened e after, scope.child before = .done inner opened ∧
    Stmt.bindLoopVariable inner binder item opened = .failed e after ∧
    log = [⟨loop, before, opened⟩, ⟨loop, opened, after⟩]

/-- The log is that of some rounds for the first items, in order. After it there may be an item that
the loop variable does not take. -/
def IsLogOfRounds (fuel : Nat) (scope : Scope) (binder : LoopVariable) (body : Block) (loop : Task)
    (items : List Value) (log : List Step) : Prop :=
  ∃ (rounds : List Round) (refusal : List Step),
    log = rounds.flatMap (Round.steps fuel loop body) ++ refusal ∧
    rounds.length ≤ items.length ∧
    List.Forall₂ (Round.Enters scope binder) rounds (items.take rounds.length) ∧
    (refusal = [] ∨ ∃ item, items[rounds.length]? = some item ∧
      Refuses scope binder loop item refusal)

section Rounds

variable {fuel : Nat} {scope : Scope} {binder : LoopVariable} {body : Block} {loop : Task}
  {items : List Value} {item : Value} {log : List Step}

theorem isLogOfRounds_nil : IsLogOfRounds fuel scope binder body loop items [] :=
  ⟨[], [], rfl, Nat.zero_le _, .nil, .inl rfl⟩

theorem Round.Enters.isLogOfRounds {round : Round} (h : round.Enters scope binder item)
    (hlog : IsLogOfRounds fuel scope binder body loop items log) :
    IsLogOfRounds fuel scope binder body loop (item :: items)
      (round.steps fuel loop body ++ log) := by
  obtain ⟨rounds, refusal, rfl, hlength, hrounds, hrefusal⟩ := hlog
  refine ⟨round :: rounds, refusal, ?_, Nat.succ_le_succ hlength, .cons h hrounds, hrefusal⟩
  rw [List.flatMap_cons, List.append_assoc]

theorem Refuses.isLogOfRounds (h : Refuses scope binder loop item log) :
    IsLogOfRounds fuel scope binder body loop (item :: items) log :=
  ⟨[], log, rfl, Nat.zero_le _, .nil, .inr ⟨item, rfl, h⟩⟩

end Rounds

/-! ## Loops -/

namespace Traced

variable {α β : Type} {r : Run α} {x : Traced α} {f : α → Traced β} {s t : Store} {a : α}
  {e : Fault} (task : Task)

theorem log_bind_of_done (h : x.run s = .done a t) :
    (x >>= f).log task s = x.log task s ++ (f a).log task t := by
  show x.log task s ++ logAfter f task (x.run s) = _
  rw [h]
  rfl

/-- Nothing follows a part that has no result. -/
theorem log_bind_of_not_done (h : ∀ a t, x.run s ≠ .done a t) :
    (x >>= f).log task s = x.log task s := by
  show x.log task s ++ logAfter f task (x.run s) = _
  cases hrun : x.run s with
  | done a t => exact absurd hrun (h a t)
  | failed e t => exact List.append_nil _
  | outOfFuel => exact List.append_nil _

theorem log_bind_of_failed (h : x.run s = .failed e t) :
    (x >>= f).log task s = x.log task s :=
  log_bind_of_not_done task (by simp [h])

/-- A part that ends is one step. -/
theorem log_liftM_bind (h : r s = .done a t) :
    ((liftM r : Traced α) >>= f).log task s = ⟨task, s, t⟩ :: (f a).log task t := by
  rw [log_bind_of_done (x := liftM r) task h, log_liftM, h]
  rfl

theorem log_liftM_bind_of_failed (h : r s = .failed e t) :
    ((liftM r : Traced α) >>= f).log task s = [⟨task, s, t⟩] := by
  rw [log_bind_of_failed (x := liftM r) task h, log_liftM, h]

end Traced

namespace Stmt

variable (fuel : Nat) (scope : Scope) (binder : LoopVariable) (body : Block) (loop : Task)

/-- One round of a loop for an item, with its log. -/
def traceRound (item : Value) : Traced Flow := do
  let inner ← scope.child
  bindLoopVariable inner binder item
  execAll (Stmt.trace fuel inner) body

/-- A round enters the body and does what the body does, or fails because the item is refused. -/
theorem traceRound_cases (item : Value) (s : Store) :
    (∃ round : Round, round.Enters scope binder item ∧
      (traceRound fuel scope binder body item).log loop s = round.steps fuel loop body) ∨
    (Refuses scope binder loop item ((traceRound fuel scope binder body item).log loop s) ∧
      ∃ e t, (traceRound fuel scope binder body item).run s = .failed e t) := by
  have hchild := Scope.child_eq scope s
  unfold traceRound
  rw [Traced.log_liftM_bind loop hchild]
  cases hbind : bindLoopVariable ⟨⟨s.frames.size⟩, scope.chain⟩ binder item (s.withFrames [[]]) with
  | done _ entered =>
    rw [Traced.log_liftM_bind loop hbind]
    exact .inl ⟨⟨_, s, _, entered⟩, ⟨hchild, hbind, get_of_bindLoopVariable hbind⟩, rfl⟩
  | failed e after =>
    rw [Traced.log_liftM_bind_of_failed loop hbind]
    refine .inr ⟨⟨s, _, _, e, after, hchild, hbind, rfl⟩, e, after, ?_⟩
    show (scope.child >>= fun inner => bindLoopVariable inner binder item >>= fun _ =>
      (execAll (Stmt.trace fuel inner) body).run) s = _
    rw [bind_apply, hchild]
    dsimp only
    rw [bind_apply, hbind]
  | outOfFuel => exact absurd hbind (bindLoopVariable_finite _ _ _ _)

theorem execFor_isLogOfRounds (items : List Value) (s : Store) :
    IsLogOfRounds fuel scope binder body loop items
      ((execFor (traceRound fuel scope binder body) items).log loop s) := by
  induction items generalizing s with
  | nil => exact isLogOfRounds_nil
  | cons item rest ih =>
    unfold execFor
    rcases traceRound_cases fuel scope binder body loop item s with
      ⟨round, henters, hlog⟩ | ⟨hrefuses, e, t, hrun⟩
    · have hlast : IsLogOfRounds fuel scope binder body loop (item :: rest)
          (round.steps fuel loop body ++ []) := henters.isLogOfRounds isLogOfRounds_nil
      -- After the round come the rounds for the other items, or none if the loop ends there.
      cases hrun : (traceRound fuel scope binder body item).run s with
      | done flow t =>
        rw [Traced.log_bind_of_done loop hrun, hlog]
        cases flow with
        | normal => exact henters.isLogOfRounds (ih t)
        | continuing => exact henters.isLogOfRounds (ih t)
        | breaking => exact hlast
        | returning v => exact hlast
      | failed e t =>
        rw [Traced.log_bind_of_failed loop hrun, hlog, ← List.append_nil (round.steps _ _ _)]
        exact hlast
      | outOfFuel =>
        rw [Traced.log_bind_of_not_done loop (by simp [hrun]), hlog, ← List.append_nil (round.steps _ _ _)]
        exact hlast
    · rw [Traced.log_bind_of_failed loop hrun]
      exact hrefuses.isLogOfRounds

/-- After the items are read, the loop does nothing but rounds for them. -/
theorem trace_forLoop {loop : Stmt} {iterable : Expr} {s s₁ : Store} {v : Value}
    {items : List Value} (hloop : loop = .forLoop binder iterable body) (task : Task)
    (heval : iterable.eval fuel scope s = .done v s₁) (hitems : v.iterate s₁ = .ok items) :
    ∃ log, (loop.trace (fuel + 1) scope).log task s =
        (iterable.trace fuel scope).log (.executing scope loop) s ++
          ⟨.executing scope loop, s₁, s₁⟩ :: log ∧
      IsLogOfRounds fuel scope binder body (.executing scope loop) items log := by
  subst hloop
  have hrun : (iterable.trace fuel scope).run s = .done v s₁ := by
    rw [(run_trace fuel).1, heval]
  have hread : readExcept (Value.iterate · v) s₁ = .done items s₁ := by
    rw [readExcept, hitems]
  refine ⟨_, ?_, execFor_isLogOfRounds fuel scope binder body _ items s₁⟩
  show (iterable.trace fuel scope >>= fun v =>
    liftM (readExcept (Value.iterate · v)) >>= fun items =>
      execFor (traceRound fuel scope binder body) items).log _ s = _
  rw [Traced.log_bind_of_done _ hrun, Traced.log_liftM_bind _ hread]

end Stmt

/-- A program without `while` loops and without definitions of functions and methods comes to an end
on every new machine. A `for` loop over a list, in any program, enters its body for some of the
first items that the list had at the beginning of the loop, for each once and in order, and its log
shows no more than that. -/
theorem Program.forLoops_bounded :
    (∀ p : Program, p.Bounded → ∀ (actions : List Action) (room : Option Nat) (fuel : Nat),
      sizeOf p ≤ fuel →
        (p.run fuel (Machine.new actions room).globals (Machine.new actions room).store).Halted) ∧
    ∀ (fuel : Nat) (scope : Scope) (loop : Stmt) (binder : LoopVariable) (iterable : Expr)
      (body : Block) (task : Task) (s s₁ : Store) (id : ListId),
      loop = .forLoop binder iterable body → iterable.eval fuel scope s = .done (.list id) s₁ →
      (loop.trace (fuel + 1) scope).run = loop.exec (fuel + 1) scope ∧
      ∃ log, (loop.trace (fuel + 1) scope).log task s =
          (iterable.trace fuel scope).log (.executing scope loop) s ++
            ⟨.executing scope loop, s₁, s₁⟩ :: log ∧
        IsLogOfRounds fuel scope binder body (.executing scope loop) (s₁.list id).toList log := by
  constructor
  · intro p hp actions room fuel h
    exact p.run_halted hp h _ (Machine.holds_new actions room fun _ _ => nofun)
  · intro fuel scope loop binder iterable body task s s₁ id hloop heval
    refine ⟨(run_trace (fuel + 1)).2 scope loop, ?_⟩
    exact Stmt.trace_forLoop fuel scope binder body hloop task heval rfl

/-- A loop over a list that grows in every round. -/
def growingLoop : Stmt :=
  .forLoop (.declared "x" false) (.name "xs")
    [.expression (.call (.member (.name "xs") "push") [.name "x"] [])]

def growingProgram : Program :=
  [.declare "xs" true, .assign (.name "xs") (.list [.integer 1, .integer 2]), growingLoop]

/-- A store in which the loop can begin. -/
def growingStore : Store where
  frames := #[[("xs", ⟨.variable, some (.list ⟨0⟩)⟩)]]
  lists := #[#[.integer 1, .integer 2]]
  dictionaries := #[]
  identities := 0
  output := ⟨"", none⟩

theorem bounded_growingProgram : growingProgram.Bounded := by
  refine List.forall_mem_cons.mpr ⟨⟨rfl, nofun⟩, List.forall_mem_cons.mpr ⟨⟨rfl, nofun⟩, ?_⟩⟩
  refine List.forall_mem_singleton.mpr ⟨rfl, List.forall_mem_singleton.mpr ?_⟩
  exact List.forall_mem_singleton.mpr ⟨rfl, nofun⟩

theorem Program.forLoops_bounded_growing :
    (growingProgram.run (sizeOf growingProgram) (Machine.new [] none).globals
      (Machine.new [] none).store).Halted ∧
    ∃ log, (growingLoop.trace 5 ⟨⟨0⟩, []⟩).log (.executing ⟨⟨0⟩, []⟩ growingLoop) growingStore =
        ((Expr.name "xs").trace 4 ⟨⟨0⟩, []⟩).log (.executing ⟨⟨0⟩, []⟩ growingLoop) growingStore ++
          ⟨.executing ⟨⟨0⟩, []⟩ growingLoop, growingStore, growingStore⟩ :: log ∧
      IsLogOfRounds 4 ⟨⟨0⟩, []⟩ (.declared "x" false)
        [.expression (.call (.member (.name "xs") "push") [.name "x"] [])]
        (.executing ⟨⟨0⟩, []⟩ growingLoop) [.integer 1, .integer 2] log :=
  ⟨Program.forLoops_bounded.1 growingProgram bounded_growingProgram [] none _ (Nat.le_refl _),
    (Program.forLoops_bounded.2 4 ⟨⟨0⟩, []⟩ growingLoop _ _ _ _ growingStore growingStore ⟨0⟩ rfl
      rfl).2⟩

end Offside
