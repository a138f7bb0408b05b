import Offside.Proofs.Scoping.ExpressionSafety
import Offside.Proofs.Store.Machines

/-!
# Well-scoped programs do not fail on names

Execution keeps the agreement of scope and view from statement to statement, in loops, in blocks
and in the bodies of functions, wherever they are called from.
-/

namespace Offside

open Store Run

variable {s : Store} {scope : Scope} {view : View} {eval : Scope → Expr → Run Value}
  {exec : Scope → Stmt → Run Flow}

theorem View.forall_of_sees {names : List String} (h : view.sees names = true) :
    ∀ n ∈ names, n ∈ view.names := by
  intro n hn
  unfold View.sees at h
  rw [List.all_eq_true] at h
  simpa using h n hn

namespace Stmt

/-! ## Parts of statements -/

theorem execAssign_safe (heval : EvaluatesWell eval) {target value : Expr}
    (hscope : s.Agrees scope view) (htarget : ∀ n ∈ target.names, n ∈ view.names)
    (hvalue : ∀ n ∈ value.names, n ∈ view.names) :
    (execAssign (eval scope) scope target value).Safe [] s fun _ _ => True := by
  unfold execAssign
  split
  · rename_i n
    have hn := hscope.declares n (htarget n List.mem_cons_self)
    refine safe_bind (Scope.lookup_safe hn) fun _ s₁ hgrows₁ _ => ?_
    have hscope₁ := hgrows₁.agrees hscope
    refine safe_bind (heval s₁ scope view value hscope₁ hvalue) fun v s₂ hgrows₂ hv => ?_
    have hscope₂ := hgrows₂.agrees hscope₁
    exact Scope.assign_safe (hscope₂.declares n (htarget n List.mem_cons_self)) hv
  · rename_i container key
    unfold Expr.names at htarget
    rw [List.forall_mem_append] at htarget
    refine safe_bind (heval s scope view container hscope htarget.1) fun v s₁ hgrows₁ _ => ?_
    have hscope₁ := hgrows₁.agrees hscope
    refine safe_bind (heval s₁ scope view key hscope₁ htarget.2) fun k s₂ hgrows₂ _ => ?_
    have hscope₂ := hgrows₂.agrees hscope₁
    refine safe_bind (heval s₂ scope view value hscope₂ hvalue) fun w s₃ _ hw => ?_
    exact (Value.setIndex_contained v k fun _ => hw).safe
  · rename_i object n
    refine safe_bind (heval s scope view object hscope htarget) fun v s₁ hgrows₁ _ => ?_
    refine safe_bind (heval s₁ scope view value (hgrows₁.agrees hscope) hvalue)
      fun w s₂ _ _ => ?_
    exact safe_fail rfl
  · exact safe_fail rfl

theorem isTrue_safe (heval : EvaluatesWell eval) {test : Expr} (hscope : s.Agrees scope view)
    (htest : ∀ n ∈ test.names, n ∈ view.names) :
    (isTrue (eval scope) test).Safe [] s fun _ _ => True := by
  refine safe_bind (heval s scope view test hscope htest) fun v s₁ _ _ => ?_
  exact (contained_read fun _ _ => trivial).safe

theorem execBlock_safe (hexec : ExecutesWell exec) {body : Block} (hscope : s.Agrees scope view)
    (hbody : Stmt.wellScopedAll (view.enter []) body = true) :
    (execBlock exec scope body).Safe [] s fun flow s' => s'.AdmitsFlow flow := by
  refine safe_bind_scope (Scope.child_safe hscope.hasScope hscope.declares) (fun _ _ h => h.2) ?_
  rintro inner s₁ - ⟨hinner, -⟩
  exact execAll_safe hexec hinner hbody

/-- What holds of a block holds of a conditional statement with such blocks. -/
theorem execElse_safe (heval : EvaluatesWell eval) (hexec : ExecutesWell exec)
    {otherwise : Option Block} {branches : List ElseIf} (hscope : s.Agrees scope view)
    (hbranches : ElseIf.wellScopedAll view branches = true)
    (hotherwise : Stmt.wellScopedOption (view.enter []) otherwise = true) :
    (execElse (eval scope) (execBlock exec scope) otherwise branches).Safe [] s
      fun flow s' => s'.AdmitsFlow flow := by
  induction branches generalizing s with
  | nil =>
    cases otherwise with
    | none => exact safe_pure trivial
    | some body => exact execBlock_safe hexec hscope hotherwise
  | cons branch rest ih =>
    obtain ⟨test, body⟩ := branch
    simp only [ElseIf.wellScopedAll, Bool.and_eq_true] at hbranches
    obtain ⟨⟨htest, hbody⟩, hrest⟩ := hbranches
    refine safe_bind (isTrue_safe heval hscope (View.forall_of_sees htest)) fun b s₁ hgrows₁ _ => ?_
    have hscope₁ := hgrows₁.agrees hscope
    split
    · exact execBlock_safe hexec hscope₁ hbody
    · exact ih hscope₁ hrest

/-- Each round of a loop begins in a store that agrees with the view. -/
theorem execWhile_safe {test : Run Bool} {body : Run Flow}
    (htest : ∀ s, s.Agrees scope view → test.Safe [] s fun _ _ => True)
    (hbody : ∀ s, s.Agrees scope view → body.Safe [] s fun flow s' => s'.AdmitsFlow flow)
    (hscope : s.Agrees scope view) (fuel : Nat) :
    (execWhile test body fuel).Safe [] s fun flow s' => s'.AdmitsFlow flow := by
  induction fuel generalizing s with
  | zero => exact safe_outOfFuel
  | succ fuel ih =>
    refine safe_bind (htest s hscope) fun b s₁ hgrows₁ _ => ?_
    have hscope₁ := hgrows₁.agrees hscope
    split
    · refine safe_bind (hbody s₁ hscope₁) fun flow s₂ hgrows₂ hflow => ?_
      have hscope₂ := hgrows₂.agrees hscope₁
      cases flow with
      | normal => exact ih hscope₂
      | continuing => exact ih hscope₂
      | breaking => exact safe_pure trivial
      | returning v => exact safe_pure hflow
    · exact safe_pure trivial

theorem execFor_safe {body : Value → Run Flow} {items : List Value}
    (hbody : ∀ s item, s.Agrees scope view → s.Admits item →
      (body item).Safe [] s fun flow s' => s'.AdmitsFlow flow)
    (hscope : s.Agrees scope view) (hitems : ∀ v ∈ items, s.Admits v) :
    (execFor body items).Safe [] s fun flow s' => s'.AdmitsFlow flow := by
  induction items generalizing s with
  | nil => exact safe_pure trivial
  | cons item rest ih =>
    rw [List.forall_mem_cons] at hitems
    refine safe_bind (hbody s item hscope hitems.1) fun flow s₁ hgrows₁ hflow => ?_
    have hrest : ∀ v ∈ rest, s₁.Admits v := fun v hv => hgrows₁.admits (hitems.2 v hv)
    cases flow with
    | normal => exact ih (hgrows₁.agrees hscope) hrest
    | continuing => exact ih (hgrows₁.agrees hscope) hrest
    | breaking => exact safe_pure trivial
    | returning v => exact safe_pure hflow

/-- One round of a `for` loop, in a scope of its own. -/
theorem round_safe (hexec : ExecutesWell exec) {binder : LoopVariable} {body : Block}
    {item : Value} (hscope : s.Agrees scope view) (hitem : s.Admits item)
    (hbinder : ∀ n ∈ binder.assigns, n ∈ view.names)
    (hbody : Stmt.wellScopedAll (view.enter binder.declares) body = true) :
    (do
      let inner ← scope.child
      bindLoopVariable inner binder item
      execAll (exec inner) body).Safe [] s fun flow s' => s'.AdmitsFlow flow := by
  refine safe_bind_scope (Scope.child_safe hscope.hasScope hscope.declares) (fun _ _ h => h.2) ?_
  rintro inner s₁ hgrows₁ ⟨hinner, -⟩
  refine safe_bind (bindLoopVariable_safe hinner hbinder (hgrows₁.admits hitem)) ?_
  intro _ s₂ _ hinner₂
  exact execAll_safe hexec hinner₂ hbody

/-! ## Statements -/

/-- A statement that declares nothing leaves the agreement as it is. -/
theorem declaring_nothing {st : Stmt} {r : Run Flow} (hscope : s.Agrees scope view)
    (hdeclared : st.declared = []) (h : r.Safe [] s fun flow s' => s'.AdmitsFlow flow) :
    r.Safe [scope.innermost] s fun flow s' =>
      s'.AdmitsFlow flow ∧ (flow = .normal → s'.Agrees scope (view.declare st.declared)) := by
  rw [hdeclared]
  refine (h.imp fun flow s' _ hgrows hflow => ?_).weaken
  exact ⟨hflow, fun _ => hgrows.agrees hscope⟩

theorem declaring {st : Stmt} {r : Run Unit} (hscope : s.Agrees scope view)
    (h : r.Safe [scope.innermost] s fun _ s' =>
      s'.names scope.innermost = st.declared ++ s.names scope.innermost) :
    (do r; return .normal : Run Flow).Safe [scope.innermost] s fun flow s' =>
      s'.AdmitsFlow flow ∧ (flow = .normal → s'.Agrees scope (view.declare st.declared)) := by
  have hagrees := h.imp (T := fun _ s' => s'.Agrees scope (view.declare st.declared))
    fun _ s' _ hgrows hnames => hscope.declare hgrows hnames
  refine safe_bind hagrees fun _ s' _ hs' => ?_
  exact safe_pure ⟨trivial, fun _ => hs'⟩

/-- One level of execution. -/
theorem execStep_safe (heval : EvaluatesWell eval) (hexec : ExecutesWell exec) (fuel : Nat) :
    ExecutesWell fun scope st => st.execStep fuel eval exec scope := by
  intro s scope view st hscope hst
  cases st with
  | functionDef definition =>
    simp only [wellScoped, Bool.and_eq_true, Bool.not_eq_true', List.contains_eq_mem,
      decide_eq_false_iff_not] at hst
    exact declaring hscope (defineFunction_safe hscope hst.1 hst.2)
  | classDef name methods =>
    simp only [wellScoped, Bool.and_eq_true, Bool.not_eq_true', List.contains_eq_mem,
      decide_eq_false_iff_not] at hst
    exact declaring hscope (defineClass_safe hscope hst.1 hst.2)
  | declare name isMutable =>
    simp only [wellScoped, Bool.not_eq_true', List.contains_eq_mem,
      decide_eq_false_iff_not] at hst
    refine declaring hscope (Scope.declare_safe hscope.hasScope fun hn => ?_)
    exact hst (hscope.block name hn)
  | assign target value =>
    simp only [wellScoped, Bool.and_eq_true] at hst
    apply declaring_nothing hscope rfl
    refine safe_bind (execAssign_safe heval hscope (View.forall_of_sees hst.1)
      (View.forall_of_sees hst.2)) fun _ _ _ _ => ?_
    exact safe_pure trivial
  | ifElse test body elseIfs otherwise =>
    simp only [wellScoped, Bool.and_eq_true] at hst
    obtain ⟨⟨⟨htest, hbody⟩, helseIfs⟩, hotherwise⟩ := hst
    apply declaring_nothing hscope rfl
    refine execElse_safe heval hexec hscope ?_ hotherwise
    simp only [ElseIf.wellScopedAll, Bool.and_eq_true]
    exact ⟨⟨htest, hbody⟩, helseIfs⟩
  | whileLoop test body =>
    simp only [wellScoped, Bool.and_eq_true] at hst
    apply declaring_nothing hscope rfl
    refine execWhile_safe (fun s hs => isTrue_safe heval hs (View.forall_of_sees hst.1))
      (fun s hs => execBlock_safe hexec hs hst.2) hscope fuel
  | forLoop binder iterable body =>
    simp only [wellScoped, Bool.and_eq_true] at hst
    obtain ⟨⟨hbinder, hiterable⟩, hbody⟩ := hst
    apply declaring_nothing hscope rfl
    refine safe_bind (heval s scope view iterable hscope (View.forall_of_sees hiterable))
      fun v s₁ hgrows₁ _ => ?_
    have hiterate := contained_readExcept (P := s₁.Admits) (f := (Value.iterate · v))
      fun t ht => Value.iterate_yields (fun u hu => admits_of_isPlain hu) ht v
    refine safe_bind hiterate.safe fun items s₂ hgrows₂ hitems => ?_
    refine execFor_safe (fun s item hs hitem =>
      round_safe hexec hs hitem (View.forall_of_sees hbinder) hbody)
      (hgrows₂.agrees (hgrows₁.agrees hscope)) fun v hv => hgrows₂.admits (hitems v hv)
  | returnStmt value =>
    apply declaring_nothing hscope rfl
    cases value with
    | none => exact safe_pure (admits_of_isVoid rfl)
    | some e =>
      refine safe_bind (heval s scope view e hscope (View.forall_of_sees hst))
        fun v s₁ _ hv => ?_
      exact safe_pure hv
  | breakStmt => exact declaring_nothing hscope rfl (safe_pure trivial)
  | continueStmt => exact declaring_nothing hscope rfl (safe_pure trivial)
  | assertion test =>
    apply declaring_nothing hscope rfl
    refine safe_bind (isTrue_safe heval hscope (View.forall_of_sees hst)) fun b s₁ _ _ => ?_
    split
    · exact safe_pure trivial
    · exact safe_fail rfl
  | expression e =>
    apply declaring_nothing hscope rfl
    refine safe_bind (heval s scope view e hscope (View.forall_of_sees hst)) fun _ _ _ _ => ?_
    exact safe_pure trivial

end Stmt

/-! ## Whole programs -/

theorem eval_exec_safe (fuel : Nat) : EvaluatesWell (Expr.eval fuel) ∧ ExecutesWell (Stmt.exec fuel) := by
  induction fuel with
  | zero =>
    constructor
    · intro s scope view e _ _
      exact safe_outOfFuel
    · intro s scope view st _ _
      exact safe_outOfFuel
  | succ fuel ih =>
    constructor
    · intro s scope view e hscope hnames
      exact Expr.evalStep_safe ih.1 ih.2 s scope view e hscope hnames
    · intro s scope view st hscope hst
      exact Stmt.execStep_safe ih.1 ih.2 fuel s scope view st hscope hst

theorem Stmt.execTopLevel_safe {st : Stmt} (fuel : Nat) (hscope : s.Agrees scope view)
    (hst : st.wellScoped view = true) :
    (st.execTopLevel fuel scope).Safe [scope.innermost] s
      fun _ s' => s'.Agrees scope (view.declare st.declared) := by
  refine safe_bind ((eval_exec_safe fuel).2 s scope view st hscope hst) ?_
  rintro flow s' - ⟨-, hnormal⟩
  cases flow with
  | normal => exact fun hs' => ⟨hs', .refl, hnormal rfl⟩
  | returning v => exact fun _ => rfl
  | breaking => exact fun _ => rfl
  | continuing => exact fun _ => rfl

/-- The program stopped at a name that is not declared, or declared again. -/
def Ending.isFaultOfNames : Ending → Bool
  | .stopped why _ => why.cause.ofNames
  | _ => false

theorem Program.run_safe {p : Program} (fuel : Nat) (hs : s.Consistent)
    (hscope : s.Agrees scope view) (hp : Stmt.wellScopedAll view p = true) :
    (Program.run fuel scope p s).isFaultOfNames = false := by
  induction p generalizing s view with
  | nil => rfl
  | cons st rest ih =>
    unfold Stmt.wellScopedAll at hp
    rw [Bool.and_eq_true] at hp
    have hsafe := Stmt.execTopLevel_safe fuel hscope hp.1 hs
    unfold Program.run
    cases hrun : st.execTopLevel fuel scope s with
    | done u s' =>
      obtain ⟨hs', -, hscope'⟩ := hsafe.of_done hrun
      exact ih hs' hscope' hp.2
    | failed e s' =>
      show (ProgramError.ofFault e st).cause.ofNames = false
      rw [ProgramError.cause_ofFault]
      exact hsafe.of_failed hrun
    | outOfFuel => rfl

/-! ## New machines -/

namespace Machine

theorem mem_names_builtins {actions : List Action} {n : String} :
    n ∈ (builtins actions).names ↔ n ∈ actions.map Action.name := by
  apply builtins_induction fun frame seen => n ∈ frame.names ↔ n ∈ seen.map Action.name
  · exact Iff.rfl
  · intro frame seen action i ih
    rw [List.map_append, List.mem_append, ← ih, List.map_singleton, List.mem_singleton]
    split
    · rename_i hdeclares
      constructor
      · exact .inl
      · rintro (h | rfl)
        · exact h
        · exact Frame.declares_iff.mp hdeclares
    · show n ∈ action.name :: frame.names ↔ _
      rw [List.mem_cons, or_comm]

theorem consistent_new (actions : List Action) (room : Option Nat) :
    (new actions room).store.Consistent :=
  holds_new actions room fun _ => admits_of_isPlain rfl

theorem agrees_new (actions : List Action) (room : Option Nat) :
    (new actions room).store.Agrees (new actions room).globals
      ⟨[], actions.map Action.name⟩ := by
  have hnames : (new actions room).store.names ⟨0⟩ = (builtins actions).names := rfl
  refine ⟨?_, ?_, ?_⟩
  · intro id hid
    rw [List.mem_singleton.mp hid]
    exact Nat.zero_lt_one
  · intro n hn
    refine ⟨⟨0⟩, List.mem_cons_self, ?_⟩
    rw [hnames, mem_names_builtins]
    unfold View.names at hn
    rwa [List.append_nil] at hn
  · intro n hn
    exact mem_names_builtins.mp hn

end Machine

/-- A program that is well scoped on a machine never fails on names there. -/
theorem Program.run_wellScoped {p : Program} {actions : List Action}
    (hp : p.wellScoped actions = true) (room : Option Nat) (fuel : Nat) :
    (Program.run fuel (Machine.new actions room).globals p
      (Machine.new actions room).store).isFaultOfNames = false :=
  Program.run_safe fuel (Machine.consistent_new actions room) (Machine.agrees_new actions room) hp

/-- A function that makes counters, and a loop that prints what one of them counts. -/
def counters : Program :=
  [.functionDef ⟨"counter", ["count"],
    [.functionDef ⟨"next", [],
      [.assign (.name "count") (.binary (.name "count") .add (.integer 1)),
        .returnStmt (some (.name "count"))]⟩,
      .returnStmt (some (.name "next"))]⟩,
    .declare "next" false,
    .assign (.name "next") (.call (.name "counter") [.integer 0] []),
    .forLoop (.declared "i" false) (.call (.name "range") [.integer 3] [])
      [.expression (.call (.name "print") [.name "i", .call (.name "next") [] []] [])]]

theorem run_wellScoped_counters :
    (Program.run 100 (Machine.new Machine.standard none).globals counters
      (Machine.new Machine.standard none).store).isFaultOfNames = false :=
  Program.run_wellScoped (by decide) none 100

end Offside
