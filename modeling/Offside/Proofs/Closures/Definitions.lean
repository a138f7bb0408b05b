import Offside.Proofs.Logic.Rules
import Offside.Proofs.Store.Keeping

/-!
# Definitions in a log

Each definition that is executed closes over frames of its own. What respects them is said of a
step, given the definitions that were executed before, and of a whole log.
-/

namespace Offside

/-- The statement stands in the body, and not in that of a function which is defined there. -/
inductive Stmt.IsIn (body : Block) : Stmt → Prop where
  | direct {s : Stmt} : s ∈ body → IsIn body s
  | nested {outer s : Stmt} {block : Block} :
    IsIn body outer → block ∈ outer.blocks → s ∈ block → IsIn body s

/-- The statement assigns to a name by itself. -/
def Stmt.assignsName : Stmt → Bool
  | .assign (.name _) _ | .forLoop (.name _) _ _ => true
  | _ => false

/-! ## Definitions -/

/-- The execution of a definition: the scope it was executed in, the scope that it closed over, and
the bodies of the function or the methods. -/
structure Definition where
  scope : Scope
  closure : Scope
  bodies : List Block

/-- The frames of a snapshot are the next ones that the store gets. -/
def Task.definition? (before : Store) : Task → Option Definition
  | executing scope (.functionDef f) => some ⟨scope, scope.copyAt before.frames.size, [f.body]⟩
  | executing scope (.classDef _ methods) =>
    some ⟨scope, scope.copyAt before.frames.size, methods.map FunctionDef.body⟩
  | _ => none

namespace Definition

/-- The statement is one of the function itself, and is executed in a scope opened on top of what the
function closed over. -/
structure Encloses (d : Definition) (scope : Scope) (s : Stmt) : Prop where
  isSuffix : d.closure.chain <:+ scope.outer
  isIn : ∃ body ∈ d.bodies, s.IsIn body

def Disjoint (d d' : Definition) : Prop := d.closure.chain.Disjoint d'.closure.chain

instance : Std.Symm Disjoint := ⟨fun _ _ h _ hid hid' => h hid' hid⟩

end Definition

/-- The task is an assignment to a name in the function itself. -/
def Task.AssignsWithin (t : Task) (d : Definition) : Prop :=
  ∃ scope s, t = .executing scope s ∧ s.assignsName = true ∧ d.Encloses scope s

/-- The functions of the value come from these definitions. -/
def Value.IsFrom (ds : List Definition) (v : Value) : Prop :=
  ∀ f ∈ v.functions, ∃ d ∈ ds, f.closure = d.closure ∧ f.definition.body ∈ d.bodies

theorem Value.IsFrom.mono {ds ds' : List Definition} {v : Value} (h : v.IsFrom ds) (hds : ds ⊆ ds') :
    v.IsFrom ds' := by
  intro f hf
  obtain ⟨d, hd, hfd⟩ := h f hf
  exact ⟨d, hds hd, hfd⟩

theorem Value.isFrom_of_isPlain {ds : List Definition} {v : Value} (h : v.isPlain = true) :
    v.IsFrom ds := by
  intro f hf
  rw [functions_of_isPlain h] at hf
  cases hf

namespace Task

variable {t : Task} {s : Store} {d : Definition}

theorem definition?_eq_none (h : t.defines = false) : t.definition? s = none := by
  unfold definition?
  split
  · cases h
  · cases h
  · rfl

/-- No frame that a definition closes over was there before. -/
theorem not_hasFrame_of_definition? (h : d ∈ t.definition? s) :
    ∀ id ∈ d.closure.chain, ¬ s.HasFrame id := by
  have hcopy : d.closure = d.scope.copyAt s.frames.size := by
    unfold definition? at h
    split at h <;> cases h <;> rfl
  rw [hcopy]
  exact fun id hid => Scope.not_hasFrame_copyAt hid

end Task

/-! ## Steps and logs -/

namespace Step

def definition? (step : Step) : Option Definition := step.task.definition? step.before

/-- The frames that the definition closed over look the same after the step, unless the step assigns
to a name within the function. -/
def Spares (step : Step) (d : Definition) : Prop :=
  ∀ id ∈ d.closure.chain,
    step.after.frame id = step.before.frame id ∨ step.task.AssignsWithin d

/-- The step respects what was defined before, and defines something apart from it. -/
structure Respects (step : Step) (ds : List Definition) : Prop where
  spares : ∀ d ∈ ds, step.Spares d
  scope : ∀ d ∈ step.definition?, d.closure.chain.Disjoint d.scope.chain
  disjoint : ∀ d ∈ ds, ∀ d' ∈ step.definition?, d.Disjoint d'
  holds : step.after.Holds (Value.IsFrom (ds ++ step.definition?.toList))

end Step

/-- Each step respects the definitions before it. -/
def Isolated (ds : List Definition) : List Step → Prop
  | [] => True
  | step :: rest => step.Respects ds ∧ Isolated (ds ++ step.definition?.toList) rest

namespace Isolated

variable {ds : List Definition} {log log' : List Step}

theorem definitions_cons (step : Step) (log : List Step) :
    (step :: log).filterMap Step.definition? =
      step.definition?.toList ++ log.filterMap Step.definition? := by
  rw [List.filterMap_cons]
  cases step.definition? <;> rfl

theorem append (h : Isolated ds log) (h' : Isolated (ds ++ log.filterMap Step.definition?) log') :
    Isolated ds (log ++ log') := by
  induction log generalizing ds with
  | nil =>
    rw [List.filterMap_nil, List.append_nil] at h'
    exact h'
  | cons step rest ih =>
    rw [definitions_cons, ← List.append_assoc] at h'
    exact ⟨h.1, ih h.2 h'⟩

/-- What was defined before the log is respected by all of it. -/
theorem of_mem (h : Isolated ds log) {d : Definition} (hd : d ∈ ds) :
    ∀ step ∈ log, step.Spares d ∧ ∀ d' ∈ step.definition?, d.Disjoint d' := by
  induction log generalizing ds with
  | nil => exact nofun
  | cons step rest ih =>
    refine List.forall_mem_cons.mpr ⟨⟨h.1.spares d hd, h.1.disjoint d hd⟩, ?_⟩
    exact ih h.2 (List.mem_append_left _ hd)

theorem pairwise (h : Isolated ds log) :
    log.Pairwise fun earlier later => ∀ d ∈ earlier.definition?,
      later.Spares d ∧ ∀ d' ∈ later.definition?, d.Disjoint d' := by
  induction log generalizing ds with
  | nil => exact .nil
  | cons step rest ih =>
    refine .cons (fun later hlater d hd => ?_) (ih h.2)
    exact h.2.of_mem (List.mem_append_right _ (Option.mem_toList.mpr hd)) later hlater

theorem scope (h : Isolated ds log) :
    ∀ step ∈ log, ∀ d ∈ step.definition?, d.closure.chain.Disjoint d.scope.chain := by
  induction log generalizing ds with
  | nil => exact nofun
  | cons step rest ih => exact List.forall_mem_cons.mpr ⟨h.1.scope, ih h.2⟩

theorem holds (h : Isolated ds log) :
    ∀ step ∈ log, step.after.Holds (Value.IsFrom (ds ++ log.filterMap Step.definition?)) := by
  induction log generalizing ds with
  | nil => exact nofun
  | cons step rest ih =>
    rw [definitions_cons, ← List.append_assoc]
    refine List.forall_mem_cons.mpr ⟨?_, ih h.2⟩
    exact h.1.holds.mono fun v hv => hv.mono (List.subset_append_left ..)

end Isolated

end Offside
