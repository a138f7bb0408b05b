import Offside.Proofs.Logic.Soundness
import Offside.Proofs.Scoping.CurrentScope
import Offside.Proofs.Scoping.WellScoped
import Offside.Proofs.Store.Edits

/-!
# Nested code declares nothing outside

Expressions, and the blocks inside a statement, declare names in scopes of their own. Of the frames
that were there before, at most the innermost one of the scope gets a name, from a statement that
declares it. So an assignment writes where its name was found before the value was evaluated.
-/

namespace Offside

open Store Run

/-! ## Names of frames -/

/-- No frame is lost, and none gets a name but this one, which gets at most one of these. -/
structure Store.Adds (added : List String) (id : FrameId) (s s' : Store) : Prop
    extends Keeps Frame.names [id] s s' where
  names : s.HasFrame id → s'.names id = s.names id ∨ ∃ n ∈ added, s'.names id = n :: s.names id

/-- What holds of the store at the end, whether or not the run fails. -/
def Run.Leaves {α : Type} (r : Run α) (s : Store) (R : Store → Prop) : Prop :=
  r.Meets s (fun _ => R) fun _ => R

namespace Store

variable {s s' s'' : Store} {id : FrameId} {ids : List FrameId} {added : List String}

namespace Adds

theorem of_keeps (h : Keeps Frame.names [] s s') : Adds added id s s' :=
  ⟨h.weaken, fun hid => .inl (h.same id hid List.not_mem_nil)⟩

/-- Names that new frames get later do not count. -/
theorem trans_keeps (h : Adds added id s s') (h' : Keeps Frame.names ids s' s'')
    (hids : ∀ id ∈ ids, ¬ s.HasFrame id) : Adds added id s s'' := by
  refine ⟨h.toKeeps.trans_new h' fun id' hmem hid' => absurd hid' (hids id' hmem), fun hid => ?_⟩
  have hsame : s''.names id = s'.names id :=
    h'.same id (h.hasFrame hid) fun hmem => hids id hmem hid
  rw [hsame]
  exact h.names hid

end Adds

theorem Keeps.trans_adds (h : Keeps Frame.names [] s s') (h' : Adds added id s' s'') :
    Adds added id s s'' := by
  refine ⟨h.weaken.trans h'.toKeeps, fun hid => ?_⟩
  have hsame : s'.names id = s.names id := h.same id hid List.not_mem_nil
  rw [← hsame]
  exact h'.names (h.hasFrame hid)

/-- The nearest frame that declares a name is the same as long as no frame gets names. -/
theorem Keeps.owner?_eq {chain : List FrameId} (h : Keeps Frame.names [] s s')
    (hchain : ∀ id ∈ chain, s.HasFrame id) (n : String) : s'.owner? n chain = s.owner? n chain := by
  induction chain with
  | nil => rfl
  | cons first outer ih =>
    rw [List.forall_mem_cons] at hchain
    have hnames : (s'.frame first).names = (s.frame first).names :=
      h.same first hchain.1 List.not_mem_nil
    have hdeclares : (s'.frame first).declares n = (s.frame first).declares n := by
      rw [Bool.eq_iff_iff, Frame.declares_iff, Frame.declares_iff, hnames]
    unfold owner?
    rw [hdeclares, ih hchain.2]

end Store

/-! ## Operations on scopes -/

variable {s : Store} {scope : Scope} {n : String} {role : Role} {v : Value}

namespace Scope

theorem assign_keeps : (scope.assign n v).Leaves s (Keeps Frame.names [] s) := by
  refine assign_meets.mono ?_ ?_
  · rintro _ _ ⟨id, b, -, -, -, rfl⟩
    exact .modifyFrame_same Frame.names_set
  · rintro e _ ⟨rfl, -⟩
    exact .refl

theorem declare_adds : (scope.declare n role).Leaves s (s.Adds [n] scope.innermost) := by
  refine declare_meets.mono ?_ ?_
  · rintro _ _ ⟨-, rfl⟩
    refine ⟨.modifyFrame .., fun hid => .inr ⟨n, List.mem_singleton_self n, ?_⟩⟩
    unfold names
    rw [frame_modifyFrame_self hid]
    rfl
  · rintro e _ ⟨-, -, rfl⟩
    exact .of_keeps .refl

theorem define_adds : (scope.define n role v).Leaves s (s.Adds [n] scope.innermost) := by
  apply meets_bind
  refine Meets.imp declare_adds fun _ s₁ h₁ => ?_
  exact assign_keeps.mono (fun _ _ h => h₁.trans_keeps h nofun) fun _ _ h => h₁.trans_keeps h nofun

end Scope

namespace Stmt

/-- The snapshot is new, so the name that it gets does not count. -/
theorem defineOver_adds {make : Scope → Run Value}
    (hmake : ∀ closure, Contained (fun _ => True) (make closure) fun _ => True) :
    (defineOver scope n role make).Leaves s (s.Adds [n] scope.innermost) := by
  unfold defineOver
  apply meets_bind
  unfold Meets
  rw [Scope.snapshot_eq]
  have h₁ : Keeps Frame.names [] s (s.withFrames (scope.chain.map s.frame)) := .withFrames ..
  apply meets_bind
  refine (hmake _ _ (holds_true _)).mono ?_ fun _ s₂ h => .of_keeps (h₁.trans (.of_frames_eq h.1))
  rintro v s₂ ⟨hframes, -⟩
  have h₂ : Keeps Frame.names [] s s₂ := h₁.trans (.of_frames_eq hframes)
  apply meets_bind
  refine Scope.define_adds.mono ?_ fun _ s₃ h => h₂.trans_adds h
  intro _ s₃ h
  have h₃ : s.Adds [n] scope.innermost s₃ := h₂.trans_adds h
  have hnew : ∀ id ∈ [(scope.copyAt s.frames.size).innermost], ¬ s.HasFrame id :=
    List.forall_mem_singleton.mpr (Nat.lt_irrefl _)
  exact Scope.define_adds.mono (fun _ _ h => h₃.trans_keeps h.toKeeps hnew)
    fun _ _ h => h₃.trans_keeps h.toKeeps hnew

theorem defineFunction_adds {definition : FunctionDef} :
    (defineFunction scope definition).Leaves s (s.Adds [definition.name] scope.innermost) := by
  rw [defineFunction_eq]
  exact defineOver_adds fun _ => makeFunction_contained fun _ => trivial

theorem defineClass_adds {methods : List FunctionDef} :
    (defineClass scope n methods).Leaves s (s.Adds [n] scope.innermost) := by
  rw [defineClass_eq]
  exact defineOver_adds fun _ => makeClass_contained fun _ _ => trivial

theorem bindLoopVariable_keeps {binder : LoopVariable} {item : Value} :
    (bindLoopVariable scope binder item).Leaves s (Keeps Frame.names [scope.innermost] s) := by
  cases binder with
  | name n => exact Scope.assign_keeps.mono (fun _ _ h => h.weaken) fun _ _ h => h.weaken
  | declared n isMutable =>
    exact Scope.define_adds.mono (fun _ _ h => h.toKeeps) fun _ _ h => h.toKeeps

end Stmt

/-! ## Runs -/

/-- A logic of runs in which the frames of a store get no names. What is allowed to declare a name
does so in another frame. -/
def containment (base : Store) : Logic Run where
  World := Unit
  Ensures _ _ r Q := ∀ s, Keeps Frame.names [] base s →
    r.Meets s (fun a s' => Keeps Frame.names [] base s' ∧ Q () a) fun _ => Keeps Frame.names [] base
  Extends _ _ := True
  Stores _ _ := True
  Allows _ _ scope st := st.declared = [] ∨ ¬ base.HasFrame scope.innermost
  Opens _ _ _ inner := ¬ base.HasFrame inner.innermost
  confined := False

namespace containment

variable {base : Store} {α : Type} {t : Task} {w : Unit} {r : Run α} {Q : α → Prop}

/-- A part that gives names to no frame but these, which are not frames of the store. -/
theorem ensures_of_leaves {ids : List FrameId} (hids : ∀ id ∈ ids, ¬ base.HasFrame id)
    (h : ∀ s, r.Leaves s (Keeps Frame.names ids s)) :
    (containment base).Ensures t w r fun _ _ => True := by
  intro s hs
  have hkeeps {s' : Store} (h : Keeps Frame.names ids s s') : Keeps Frame.names [] base s' :=
    hs.trans_new h fun id hmem hid => absurd hid (hids id hmem)
  exact (h s).mono (fun _ _ h => ⟨hkeeps h, trivial⟩) fun _ _ h => hkeeps h

/-- A part that leaves all frames as they are. -/
theorem ensures_of_edits {T : Store → α → Store → Prop}
    (h : ∀ s : Store, r.Edits (fun _ => True) [] s (T s))
    (hQ : ∀ s a s', Keeps Frame.names [] base s → T s a s' → Q a) :
    (containment base).Ensures t w r fun _ a => Q a := by
  intro s hs
  have hkeeps {s' : Store} (h : s.Edits (fun _ => True) [] s') : Keeps Frame.names [] base s' :=
    hs.trans ⟨h.keeps.size, fun id hid hmem => congrArg Frame.names (h.keeps.same id hid hmem)⟩
  exact Meets.mono (h s) (fun a s' h => ⟨hkeeps h.1, hQ s a s' hs h.2⟩) fun _ _ h => hkeeps h.1

theorem not_hasFrame_size (h : Keeps Frame.names [] base s) :
    ¬ base.HasFrame ⟨s.frames.size⟩ :=
  Nat.not_lt_of_le h.size

/-- What declares a name and is allowed is in a new frame. -/
theorem not_hasFrame_of_declared {declared : List String}
    (h : n :: declared = [] ∨ ¬ base.HasFrame scope.innermost) :
    ∀ id ∈ [scope.innermost], ¬ base.HasFrame id :=
  List.forall_mem_singleton.mpr (h.resolve_left (List.cons_ne_nil _ _))

theorem rules (base : Store) : (containment base).Rules where
  imp h hQ s hs := (h s hs).imp fun a _ ⟨hs', ha⟩ => ⟨hs', hQ () a trivial ha⟩
  pure h _ hs := meets_pure ⟨hs, h⟩
  bind h hf s hs := meets_bind ((h s hs).imp fun a s' ⟨hs', ha⟩ => hf () a trivial ha s' hs')
  outOfFuel _ _ := trivial
  stores_mono _ _ := trivial
  stores_plain _ := trivial
  stores_instance _ _ := trivial
  allows_mono _ h := h
  opens_mono _ h := h
  operation _ h := ensures_of_edits (fun s => h.edits s.holds_true) fun _ _ _ _ ha => ha
  get _ := ensures_of_edits (fun s => Scope.get_edits s.holds_true) fun _ _ _ _ _ => trivial
  lookup _ := ensures_of_edits (fun _ => Scope.lookup_edits) fun _ _ _ _ _ => trivial
  assign _ _ := ensures_of_leaves (List.forall_mem_nil _) fun _ => Scope.assign_keeps
  declare hst := ensures_of_leaves (not_hasFrame_of_declared hst) fun _ =>
    Scope.declare_adds.mono (fun _ _ h => h.toKeeps) fun _ _ h => h.toKeeps
  defineFunction hst :=
    ensures_of_leaves (not_hasFrame_of_declared hst) fun _ =>
      Stmt.defineFunction_adds.mono (fun _ _ h => h.toKeeps) fun _ _ h => h.toKeeps
  defineClass hst :=
    ensures_of_leaves (not_hasFrame_of_declared hst) fun _ =>
      Stmt.defineClass_adds.mono (fun _ _ h => h.toKeeps) fun _ _ h => h.toKeeps
  child _ _ := ensures_of_edits (fun _ => Scope.child_edits) fun _ _ _ hs h => by
    rw [h.1]
    exact not_hasFrame_size hs
  bindLoopVariable _ hinner _ :=
    ensures_of_leaves (List.forall_mem_singleton.mpr hinner) fun _ => Stmt.bindLoopVariable_keeps
  enter _ hinner _ _ := .inr hinner
  bindArguments _ _ _ _ :=
    ensures_of_edits (fun _ => Function.bindArguments_edits (fun _ _ _ => trivial)
      fun _ _ _ => trivial) fun _ _ _ hs h _ _ => .inr (by
        rw [h.1]
        exact not_hasFrame_size hs)
  jumps _ h _ := h.elim
  escapes {_ _ _ e _} _ _ hflow s hs := by
    rw [hflow]
    exact hs
  assertionFailed _ hs := hs

end containment

/-! ## Expressions and statements -/

theorem Expr.eval_keeps (fuel : Nat) (e : Expr) :
    (e.eval fuel scope).Leaves s (Keeps Frame.names [] s) := by
  have heval := ((containment.rules s).run (fun h => h) fuel).1 (.evaluating scope e) () scope e
  exact (heval s .refl).mono (fun _ _ h => h.1) fun _ _ h => h

namespace Stmt

/-- A statement that declares nothing gives no frame a name. -/
theorem exec_keeps (fuel : Nat) {st : Stmt} (hst : st.declared = []) :
    (st.exec fuel scope).Leaves s (Keeps Frame.names [] s) := by
  have hexec := ((containment.rules s).run (fun h => h) fuel).2 (.executing scope st) () .topLevel
    scope st (.inl hst)
  exact (hexec s .refl).mono (fun _ _ h => h.1) fun _ _ h => h

/-- A statement gives at most the name that it declares to the frame that it is executed in. -/
theorem exec_adds (fuel : Nat) (st : Stmt) :
    (st.exec fuel scope).Leaves s (s.Adds st.declared scope.innermost) := by
  cases fuel with
  | zero => trivial
  | succ fuel =>
    cases st with
    | functionDef definition => exact meets_bind (Meets.imp defineFunction_adds fun _ _ h => h)
    | classDef n methods => exact meets_bind (Meets.imp defineClass_adds fun _ _ h => h)
    | declare n isMutable => exact meets_bind (Meets.imp Scope.declare_adds fun _ _ h => h)
    | _ =>
      exact (exec_keeps (fuel + 1) rfl).mono (fun _ _ h => .of_keeps h)
        fun _ _ h => .of_keeps h

end Stmt

/-! ## Assignments -/

theorem Scope.exists_lookup {id : FrameId} (hid : s.owner? n scope.chain = some id) :
    ∃ b, scope.lookup n s = .ok b := by
  obtain ⟨b, hb⟩ := Option.isSome_iff_exists.mp (Frame.isSome_binding?.mpr (owner?_eq_some hid).2)
  refine ⟨b, ?_⟩
  unfold lookup
  rw [hid, Option.bind_some, hb]

/-- The end of an assignment to a name that is declared in this frame: the frame that the name was
found in has the value, or the evaluation has failed, or the value may not be assigned. -/
def Stmt.AssignsIn (fuel : Nat) (scope : Scope) (n : String) (e : Expr) (id : FrameId) (s : Store) :
    Prop :=
  ((Stmt.assign (.name n) e).exec (fuel + 1) scope).Meets s
    (fun flow s'' => flow = .normal ∧ ∃ v s' b, e.eval fuel scope s = .done v s' ∧
      (s'.frame id).binding? n = some b ∧
      s'' = s'.modifyFrame id fun frame => frame.set n { b with value := some v })
    fun err s' => e.eval fuel scope s = .failed err s' ∨
      ∃ v, e.eval fuel scope s = .done v s' ∧ Scope.IsAssignmentFault n err

theorem Stmt.assignsIn (fuel : Nat) (e : Expr) {id : FrameId} (hscope : s.HasScope scope)
    (hid : s.owner? n scope.chain = some id) : AssignsIn fuel scope n e id s := by
  obtain ⟨b, hb⟩ := Scope.exists_lookup hid
  show ((do
      let _ ← readExcept (scope.lookup n)
      scope.assign n (← e.eval fuel scope)) >>= fun _ => pure Flow.normal : Run Flow).Meets s _ _
  apply meets_bind
  apply meets_bind
  refine meets_readExcept (fun _ _ => ?_) fun err herr => nomatch hb.symm.trans herr
  have hkeeps : (e.eval fuel scope).Leaves s (Keeps Frame.names [] s) := e.eval_keeps fuel
  apply meets_bind
  refine meets_of (fun v s' heval => ?_) fun err s' heval => .inl heval
  have howner : s'.owner? n scope.chain = some id := by
    rw [(hkeeps.of_done heval).owner?_eq hscope, hid]
  refine Scope.assign_meets.mono ?_ ?_
  · rintro _ _ ⟨id', b', hid', hb', -, rfl⟩
    cases howner.symm.trans hid'
    exact ⟨rfl, v, s', b', heval, hb', rfl⟩
  · rintro err _ ⟨rfl, ⟨hnone, -⟩ | herr⟩
    · exact absurd ⟨id, owner?_eq_some howner⟩ hnone
    · exact .inr ⟨v, heval, herr⟩

/-! ## All that evaluation does to scopes -/

/-- However it ends, evaluation leaves the names of all frames and the current scope as they are,
but for the name that a statement declares in the scope it is executed in. So what is assigned to a
name is put where the name was found. -/
theorem declarations_contained (fuel : Nat) (scope : Scope) (s : Store) :
    (∀ e : Expr, (e.eval fuel scope).Leaves s (Keeps Frame.names [] s) ∧
      e.evalHere fuel scope s = (e.eval fuel scope s, scope)) ∧
    (∀ st : Stmt, (st.declared = [] → (st.exec fuel scope).Leaves s (Keeps Frame.names [] s)) ∧
      (st.exec fuel scope).Leaves s (s.Adds st.declared scope.innermost) ∧
      st.execHere fuel scope s = (st.exec fuel scope s, scope)) ∧
    ∀ n e id, s.HasScope scope → s.owner? n scope.chain = some id →
      Stmt.AssignsIn fuel scope n e id s := by
  obtain ⟨heval, hexec⟩ := evalHere_execHere fuel
  refine ⟨fun e => ⟨e.eval_keeps fuel, heval e scope s⟩, fun st => ?_, fun n e id => ?_⟩
  · exact ⟨Stmt.exec_keeps fuel, st.exec_adds fuel, hexec st scope s⟩
  · exact Stmt.assignsIn fuel e

/-- A function with a variable of its own, which closes over an empty frame. -/
def counting : Function :=
  ⟨0, ⟨"step", [], [.declare "count" true, .assign (.name "count") (.integer 1),
    .returnStmt (some (.name "count"))]⟩, ⟨⟨1⟩, []⟩⟩

/-- The function beside a variable with the same name. -/
def countingStore : Store where
  frames := #[[("count", ⟨.variable, none⟩), ("step", ⟨.function, some (.function counting)⟩)], []]
  lists := #[]
  dictionaries := #[]
  identities := 1
  output := ⟨"", none⟩

theorem contained_counting :
    countingStore.HasScope ⟨⟨0⟩, []⟩ ∧ countingStore.owner? "count" [⟨0⟩] = some ⟨0⟩ ∧
      Stmt.AssignsIn 5 ⟨⟨0⟩, []⟩ "count" (.call (.name "step") [] []) ⟨0⟩ countingStore := by
  have hscope : countingStore.HasScope ⟨⟨0⟩, []⟩ :=
    List.forall_mem_singleton.mpr (Nat.zero_lt_succ 1)
  have howner : countingStore.owner? "count" [⟨0⟩] = some ⟨0⟩ := by decide
  exact ⟨hscope, howner,
    (declarations_contained 5 ⟨⟨0⟩, []⟩ countingStore).2.2 "count" _ ⟨0⟩ hscope howner⟩

end Offside
