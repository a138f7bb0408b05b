import Offside.Proofs.Logic.Soundness
import Offside.Proofs.Store.Edits
import Offside.Proofs.Trace.Erasure

/-!
# Every step edits the frames

Each step of a run changes the frames by edits alone, and puts nothing into the store that is not
made of what was there. So what every edit preserves is preserved along the whole log.
-/

namespace Offside

open Run

/-- Whatever a program can make is of this kind, apart from void. -/
structure Value.Makes (P : Value → Prop) : Prop where
  plain {v : Value} : v.isPlain = true → P v
  function (f : Function) : P (.function f)
  classObject (c : Class) : P (.classObject c)
  classInstance (i : Instance) : P (.classInstance i)

theorem Value.makes_true : Makes fun _ => True :=
  ⟨fun _ => trivial, fun _ => trivial, fun _ => trivial, fun _ => trivial⟩

/-- The step edits some frames. -/
def Step.Edits (P : Value → Prop) (step : Step) : Prop :=
  ∃ ids, step.before.Edits P ids step.after

variable {P : Value → Prop} {s s' : Store} {log : List Step}

namespace Leads

theorem holds_after (h : Leads s log s') (hs : s.Holds P) (hlog : ∀ step ∈ log, step.Edits P) :
    ∀ step ∈ log, step.after.Holds P := by
  induction log generalizing s with
  | nil => exact List.forall_mem_nil _
  | cons step rest ih =>
    rw [List.forall_mem_cons] at hlog ⊢
    obtain ⟨rfl, h⟩ := h
    obtain ⟨⟨ids, hedits⟩, hlog⟩ := hlog
    exact ⟨hedits.holds hs, ih h (hedits.holds hs) hlog⟩

theorem holds (h : Leads s log s') (hs : s.Holds P) (hlog : ∀ step ∈ log, step.Edits P) :
    s'.Holds P := by
  induction log generalizing s with
  | nil =>
    obtain rfl := h
    exact hs
  | cons step rest ih =>
    rw [List.forall_mem_cons] at hlog
    obtain ⟨rfl, h⟩ := h
    obtain ⟨⟨ids, hedits⟩, hlog⟩ := hlog
    exact ih h (hedits.holds hs) hlog

end Leads

/-- A logic of runs from stores that hold nothing else, in which every step edits the frames. -/
def editing (P : Value → Prop) : Logic Traced where
  World := Unit
  Ensures t _ x Q := ∀ s, s.Holds P → (∀ step ∈ x.log t s, step.Edits P) ∧
    ∀ a s', x.run s = .done a s' → Q () a
  Extends _ _ := True
  Stores _ v := P v
  Allows _ _ _ _ := True
  Opens _ _ _ _ := True
  confined := False

namespace editing

variable {α β : Type} {t : Task} {w : Unit} {r : Run α}

theorem ensures_of_edits (ids : List FrameId) {Q : α → Prop} {T : Store → α → Store → Prop}
    (h : ∀ s : Store, s.Holds P → r.Edits P ids s (T s)) (hQ : ∀ s a s', T s a s' → Q a) :
    (editing P).Ensures t w (liftM r) fun _ a => Q a := by
  intro s hs
  have hedits := h s hs
  show (∀ step ∈ (liftM r : Traced α).log t s, step.Edits P) ∧ ∀ a s', r s = .done a s' → Q a
  rw [Traced.log_liftM]
  cases hr : r s with
  | done a s' =>
    obtain ⟨hs', ha⟩ := hedits.of_done hr
    refine ⟨List.forall_mem_singleton.mpr ⟨ids, hs'⟩, ?_⟩
    rintro _ _ ⟨⟩
    exact hQ s a s' ha
  | failed e s' => exact ⟨List.forall_mem_singleton.mpr ⟨ids, (hedits.of_failed hr).1⟩, nofun⟩
  | outOfFuel => exact ⟨nofun, nofun⟩

theorem ensures_fail (e : Fault) {Q : Unit → α → Prop} :
    (editing P).Ensures t w (liftM (fail e : Run α)) Q :=
  fun _ _ => ⟨List.forall_mem_singleton.mpr ⟨[], .refl⟩, nofun⟩

theorem ensures_bind {x : Traced α} {f : α → Traced β} {Q : Unit → α → Prop} {R : Unit → β → Prop}
    (hx : (editing P).Ensures t w x Q) (hf : ∀ a, Q () a → (editing P).Ensures t () (f a) R) :
    (editing P).Ensures t w (x >>= f) R := by
  intro s hs
  obtain ⟨hlog, hvalue⟩ := hx s hs
  have hreached := x.isReached t s
  show (∀ step ∈ x.log t s ++ Traced.logAfter f t (x.run s), step.Edits P) ∧
    ∀ b s', (x.run >>= fun a => (f a).run) s = .done b s' → R () b
  rw [bind_apply, List.forall_mem_append]
  cases hrun : x.run s with
  | done a s' =>
    rw [hrun] at hreached
    obtain ⟨hlog', hvalue'⟩ := hf a (hvalue a s' hrun) s' (hreached.holds hs hlog)
    exact ⟨⟨hlog, hlog'⟩, hvalue'⟩
  | failed e s' => exact ⟨⟨hlog, nofun⟩, nofun⟩
  | outOfFuel => exact ⟨⟨hlog, nofun⟩, nofun⟩

theorem rules (hP : Value.Makes P) : (editing P).Rules where
  imp h hQ s hs := ⟨(h s hs).1, fun a s' hrun => hQ () a trivial ((h s hs).2 a s' hrun)⟩
  pure h s _ := by
    refine ⟨nofun, ?_⟩
    rintro _ _ ⟨⟩
    exact h
  bind h hf := ensures_bind h fun a ha => hf () a trivial ha
  outOfFuel _ _ := ⟨nofun, nofun⟩
  stores_mono _ hv := hv
  stores_plain hv := hP.plain hv
  stores_instance _ _ := hP.classInstance _
  allows_mono _ _ := trivial
  opens_mono _ _ := trivial
  operation _ h := ensures_of_edits [] (fun _ hs => h.edits hs) fun _ _ _ ha => ha
  get _ := ensures_of_edits [] (fun _ hs => Scope.get_edits hs) fun _ _ _ hv => hv
  lookup _ := ensures_of_edits [] (fun _ _ => Scope.lookup_edits) fun _ _ _ _ => trivial
  assign {_ _ scope _ _ _} _ hv :=
    ensures_of_edits scope.chain (fun _ _ => Scope.assign_edits hv (List.Subset.refl _))
      fun _ _ _ _ => trivial
  declare {_ _ scope _ _} _ :=
    ensures_of_edits scope.chain (fun _ _ => Scope.declare_edits List.mem_cons_self)
      fun _ _ _ _ => trivial
  defineFunction {_ _ scope _} _ :=
    ensures_of_edits scope.chain (fun _ hs => Stmt.defineFunction_edits hs
      ⟨List.mem_cons_self, .inr (List.Subset.refl _)⟩ fun _ => hP.function _) fun _ _ _ _ => trivial
  defineClass {_ _ scope _ _} _ :=
    ensures_of_edits scope.chain (fun _ hs => Stmt.defineClass_edits hs
      ⟨List.mem_cons_self, .inr (List.Subset.refl _)⟩ fun c _ => hP.classObject c)
      fun _ _ _ _ => trivial
  child _ _ := ensures_of_edits [] (fun _ _ => Scope.child_edits) fun _ _ _ _ => trivial
  bindLoopVariable {_ _ _ inner _ _ _ _} _ _ hitem :=
    ensures_of_edits inner.chain
      (fun _ _ => Stmt.bindLoopVariable_edits (List.Subset.refl _) hitem) fun _ _ _ _ => trivial
  enter _ _ _ _ := trivial
  bindArguments _ _ hargs hkeywords :=
    ensures_of_edits [] (fun _ _ => Function.bindArguments_edits hargs hkeywords)
      fun _ _ _ _ _ _ => trivial
  jumps _ h _ := h.elim
  escapes {_ _ _ e _} _ _ hflow := by
    rw [hflow]
    exact ensures_fail e
  assertionFailed := ensures_fail _

end editing

theorem Program.steps_edit (hP : Value.Makes P) (fuel : Nat) (globals : Scope) (p : Program)
    (hs : s.Holds P) : ∀ step ∈ p.steps fuel globals s, step.Edits P := by
  induction p generalizing s with
  | nil => exact List.forall_mem_nil _
  | cons st rest ih =>
    have hlog := (((editing.rules hP).trace (fun h => h) fuel).2 (.executing globals st) ()
      .topLevel globals st trivial s hs).1
    have hreached := (st.trace fuel globals).isReached (.executing globals st) s
    rw [(run_trace fuel).2] at hreached
    unfold steps Stmt.execTopLevel
    rw [List.forall_mem_append, bind_apply]
    refine ⟨hlog, ?_⟩
    cases hexec : st.exec fuel globals s with
    | done flow s' =>
      rw [hexec] at hreached
      cases flow with
      | normal => exact ih (hreached.holds hs hlog)
      | _ => exact List.forall_mem_nil _
    | failed e s' => exact List.forall_mem_nil _
    | outOfFuel => exact List.forall_mem_nil _

end Offside
