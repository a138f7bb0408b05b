import Offside.Proofs.Logic.Rules

/-!
# What the rules say of evaluation

Where the rules of a logic hold, every expression evaluates to a value that may be kept or is void,
and every statement that is allowed ends in a way that is taken by something around it.
-/

namespace Offside

variable {m : Type → Type} [Monad m] [MonadLiftT Run m] {L : Logic m}

namespace Logic

/-- Every expression evaluates to what the logic admits. -/
def EvaluatesWell (L : Logic m) (eval : Scope → Expr → m Value) : Prop :=
  ∀ t w scope e, L.Ensures t w (eval scope e) L.Admits

/-- Every statement that is allowed ends as the logic admits. -/
def ExecutesWell (L : Logic m) (exec : Scope → Stmt → m Flow) : Prop :=
  ∀ t w around scope s, L.Allows w around scope s →
    L.Ensures t w (exec scope s) fun w' flow => L.AdmitsFlow w' around flow

namespace Rules

variable {t : Task} {w w' : L.World} {around : Surroundings} {v : Value} {flow : Flow}

theorem admits_mono (h : L.Rules) (hw : L.Extends w w') (hv : L.Admits w v) : L.Admits w' v :=
  fun hvoid => h.stores_mono hw (hv hvoid)

theorem admits_plain (h : L.Rules) (hv : v.isPlain = true) : L.Admits w v :=
  fun _ => h.stores_plain hv

theorem admits_stored (hv : L.Stores w v) : L.Admits w v := fun _ => hv

theorem admitsFlow_normal : L.AdmitsFlow w around .normal := ⟨nofun, fun _ => rfl⟩

/-- An operation that makes plain values. -/
theorem operation_plain (h : L.Rules) (ht : t.defines = false) {r : Run Value}
    (hr : r.Contained (L.Stores w) fun v => v.isPlain = true) :
    L.Ensures t w (liftM r) L.Admits :=
  h.imp (h.operation ht hr) fun _ _ _ hv => h.admits_plain hv

/-- An operation that gets values out of the store. -/
theorem operation_stored (h : L.Rules) (ht : t.defines = false) {r : Run Value}
    (hr : r.Contained (L.Stores w) (L.Stores w)) :
    L.Ensures t w (liftM r) L.Admits :=
  h.imp (h.operation ht hr) fun _ _ hw hv => admits_stored (h.stores_mono hw hv)

end Rules

end Logic

open Logic Logic.Rules Run

variable {eval : Scope → Expr → m Value} {exec : Scope → Stmt → m Flow} {t : Task} {w : L.World}
  {around : Surroundings} {scope : Scope}

/-! ## Parts of expressions -/

namespace Expr

theorem evalAll_ensures (h : L.Rules) (Q : L.World → Value → Prop) {eval : Expr → m Value}
    (hmono : ∀ w w' v, L.Extends w w' → Q w v → Q w' v)
    (heval : ∀ w e, L.Ensures t w (eval e) Q) (es : List Expr) :
    L.Ensures t w (evalAll eval es) fun w' vs => ∀ v ∈ vs, Q w' v := by
  induction es generalizing w with
  | nil => exact h.pure nofun
  | cons e rest ih =>
    refine h.bind (heval w e) fun w₁ v _ hv => h.bind ih fun w₂ vs hw₂ hvs => ?_
    exact h.pure (List.forall_mem_cons.mpr ⟨hmono _ _ _ hw₂ hv, hvs⟩)

theorem evalKeywords_ensures (h : L.Rules) (heval : L.EvaluatesWell eval)
    (es : List (String × Expr)) :
    L.Ensures t w (evalKeywords (eval scope) es) fun w' vs => ∀ e ∈ vs, L.Admits w' e.2 := by
  induction es generalizing w with
  | nil => exact h.pure nofun
  | cons e rest ih =>
    refine h.bind (heval t w scope e.2) fun w₁ v _ hv => h.bind ih fun w₂ vs hw₂ hvs => ?_
    exact h.pure (List.forall_mem_cons.mpr ⟨h.admits_mono hw₂ hv, hvs⟩)

/-- What is about to be kept in a container may be kept. -/
theorem storable_ensures (h : L.Rules) (ht : t.defines = false) (what : String) {v : Value}
    (hv : L.Admits w v) :
    L.Ensures t w (liftM (ofExcept (storable what v))) L.Stores := by
  refine h.imp (h.operation ht (contained_ofExcept storable_yields)) ?_
  rintro w' _ hw ⟨rfl, hvoid⟩
  exact h.stores_mono hw (hv hvoid)

theorem evalEntries_ensures (h : L.Rules) (ht : t.defines = false) (heval : L.EvaluatesWell eval)
    (es : List (Expr × Expr)) :
    L.Ensures t w (evalEntries (eval scope) es) fun w' vs => ∀ e ∈ vs, L.Stores w' e.2 := by
  induction es generalizing w with
  | nil => exact h.pure nofun
  | cons e rest ih =>
    refine h.bind (heval t w scope e.1) fun w₁ k _ _ => ?_
    refine h.bind (h.operation ht (contained_ofExcept (Value.key_yields k))) fun w₂ k _ _ => ?_
    refine h.bind (heval t w₂ scope e.2) fun w₃ v _ hv => ?_
    refine h.bind (storable_ensures h ht _ hv) fun w₄ v _ hv => ?_
    refine h.bind ih fun w₅ vs hw₅ hvs => ?_
    exact h.pure (List.forall_mem_cons.mpr ⟨h.stores_mono hw₅ hv, hvs⟩)

theorem compares_ensures (h : L.Rules) (ht : t.defines = false) (op : Operator) (v v' : Value) :
    L.Ensures t w (liftM (readExcept (Value.compares · op v v'))) fun _ _ => True :=
  h.operation ht (contained_readExcept fun s _ => Value.compares_yields s op v v')

theorem evalChain_ensures (h : L.Rules) (ht : t.defines = false) (heval : L.EvaluatesWell eval)
    (first : Value) (links : List (Operator × Expr)) :
    L.Ensures t w (evalChain (eval scope) first links) fun _ _ => True := by
  induction links generalizing w first with
  | nil => exact h.pure trivial
  | cons e rest ih =>
    refine h.bind (heval t w scope e.2) fun w₁ v _ _ => ?_
    refine h.bind (compares_ensures h ht e.1 first v) fun w₂ b _ _ => ?_
    split
    · exact ih v
    · exact h.pure trivial

end Expr

/-! ## Blocks and calls -/

/-- Statements stay allowed while those before them are executed. -/
theorem Stmt.execAll_ensures (h : L.Rules) (hexec : L.ExecutesWell exec) {body : Block}
    (hbody : ∀ s ∈ body, L.Allows w around scope s) :
    L.Ensures t w (execAll (exec scope) body) fun w' flow => L.AdmitsFlow w' around flow := by
  induction body generalizing w with
  | nil => exact h.pure admitsFlow_normal
  | cons s rest ih =>
    rw [List.forall_mem_cons] at hbody
    refine h.bind (hexec t w around scope s hbody.1) fun w₁ flow hw₁ hflow => ?_
    cases flow with
    | normal => exact ih fun s hs => h.allows_mono hw₁ (hbody.2 s hs)
    | returning v => exact h.pure hflow
    | breaking => exact h.pure hflow
    | continuing => exact h.pure hflow

/-- A body that only jumps where something takes the jump ends normally or returns. -/
theorem Flow.result_ensures (h : L.Rules) (ht : t.defines = false) {flow : Flow}
    (hflow : L.AdmitsFlow w .functionBody flow) :
    L.Ensures t w (liftM (ofExcept flow.result)) L.Admits := by
  have hjump (hconfined : L.confined) : Surroundings.functionBody.takes flow = true :=
    hflow.2 hconfined
  cases flow with
  | normal =>
    have hvoid : Yields Flow.normal.result fun v => v.isVoid = true := rfl
    refine h.imp (h.operation ht (contained_ofExcept hvoid)) fun w' v _ hv hstored => ?_
    rw [hv] at hstored
    cases hstored
  | returning v =>
    have hresult : Yields (Flow.returning v).result (L.Admits w) := hflow.1 v rfl
    exact h.imp (h.operation ht (contained_ofExcept hresult)) fun w' v' hw hv => h.admits_mono hw hv
  | breaking => exact h.escapes ht (fun hconfined => nomatch hjump hconfined) rfl
  | continuing => exact h.escapes ht (fun hconfined => nomatch hjump hconfined) rfl

theorem Function.apply_ensures (h : L.Rules) (ht : t.defines = false) (hexec : L.ExecutesWell exec)
    {f : Function} {args : List Value} {keywords : List (String × Value)} (hf : L.Stores w (.function f))
    (hargs : ∀ v ∈ args, L.Admits w v) (hkeywords : ∀ e ∈ keywords, L.Admits w e.2) :
    L.Ensures t w (f.apply exec args keywords) L.Admits := by
  refine h.bind (h.bindArguments ht hf hargs hkeywords) fun w₁ inner _ hbody => ?_
  refine h.bind (Stmt.execAll_ensures h hexec hbody) fun w₂ flow _ hflow => ?_
  exact Flow.result_ensures h ht hflow

/-! ## Expressions -/

namespace Expr

theorem evalCall_ensures (h : L.Rules) (ht : t.defines = false) (heval : L.EvaluatesWell eval)
    (hexec : L.ExecutesWell exec) {callee : Value} (hcallee : L.Admits w callee) (args : List Expr)
    (keywords : List (String × Expr)) :
    L.Ensures t w (evalCall (eval scope) exec callee args keywords) L.Admits := by
  have hall := evalAll_ensures (t := t) (w := w) h L.Admits (fun _ _ _ => h.admits_mono)
    (fun w e => heval t w scope e) args
  cases callee with
  | classObject c =>
    refine h.bind (h.operation ht Store.freshIdentity_contained) fun w₁ identity hw₁ _ => ?_
    exact h.pure (admits_stored (h.stores_instance identity (h.stores_mono hw₁ (hcallee rfl))))
  | function f =>
    refine h.bind hall fun w₁ vs hw₁ hvs => ?_
    refine h.bind (evalKeywords_ensures h heval keywords) fun w₂ ks hw₂ hks => ?_
    apply Function.apply_ensures h ht hexec
    · exact h.stores_mono hw₂ (h.stores_mono hw₁ (hcallee rfl))
    · exact fun v hv => h.admits_mono hw₂ (hvs v hv)
    · exact hks
  | builtin b =>
    refine h.bind hall fun w₁ vs hw₁ hvs => ?_
    refine h.bind (evalKeywords_ensures h heval keywords) fun w₂ ks hw₂ _ => ?_
    refine h.imp (h.operation ht (Action.call_contained (fun _ hv => h.stores_plain hv) b.action
      (fun v hv => h.admits_mono hw₂ (hvs v hv)) ks)) fun w₃ v hw₃ hv => ?_
    exact h.admits_mono hw₃ hv
  | _ => exact h.operation_plain ht (contained_fail rfl)

/-- One level of evaluation. -/
theorem evalStep_ensures (h : L.Rules) (ht : t.defines = false) (heval : L.EvaluatesWell eval)
    (hexec : L.ExecutesWell exec) (e : Expr) :
    L.Ensures t w (e.evalStep eval exec scope) L.Admits := by
  cases e with
  | name n => exact h.imp (h.get ht) fun _ _ _ hv => admits_stored hv
  | integer | float | string | boolean | null => exact h.pure (h.admits_plain rfl)
  | list items =>
    refine h.bind (evalAll_ensures h L.Stores (fun _ _ _ => h.stores_mono) (fun w e => ?_) items)
      fun w₁ vs _ hvs => ?_
    · exact h.bind (heval t w scope e) fun w₁ v _ hv => storable_ensures h ht _ hv
    · exact h.operation_plain ht (Store.newList_contained fun v hv => hvs v (List.mem_toArray.mp hv))
  | dictionary entries =>
    refine h.bind (evalEntries_ensures h ht heval entries) fun w₁ es _ hes => ?_
    exact h.operation_plain ht (Store.newDictionary_contained (Dictionary.of_mem_ofList hes))
  | not operand =>
    refine h.bind (heval t w scope operand) fun w₁ v _ _ => ?_
    refine h.bind (h.operation ht (contained_read (Q := fun _ => True) fun _ _ => trivial))
      fun w₂ b _ _ => ?_
    exact h.pure (h.admits_plain rfl)
  | negative operand =>
    refine h.bind (heval t w scope operand) fun w₁ v _ _ => ?_
    exact h.operation_plain ht (contained_ofExcept (Number.negate_yields v))
  | binary left op right =>
    refine h.bind (heval t w scope left) fun w₁ v _ _ => ?_
    refine h.bind (heval t w₁ scope right) fun w₂ v' _ _ => ?_
    split
    · exact h.bind (compares_ensures h ht op v v') fun w₃ b _ _ => h.pure (h.admits_plain rfl)
    · exact h.operation_plain ht (Value.arithmetic_contained op v v')
  | compare first ops operands =>
    refine h.bind (heval t w scope first) fun w₁ v _ _ => ?_
    exact h.bind (evalChain_ensures h ht heval v _) fun w₂ b _ _ => h.pure (h.admits_plain rfl)
  | call callee args keywords =>
    refine h.bind (heval t w scope callee) fun w₁ v _ hv => ?_
    exact evalCall_ensures h ht heval hexec hv args keywords
  | index target key =>
    refine h.bind (heval t w scope target) fun w₁ v _ _ => ?_
    refine h.bind (heval t w₁ scope key) fun w₂ k _ _ => ?_
    refine h.operation_stored ht (contained_readExcept fun s hs => ?_)
    exact Value.index_yields (fun _ hv => h.stores_plain hv) hs v k
  | member target n =>
    refine h.bind (heval t w scope target) fun w₁ v _ _ => ?_
    exact h.operation_plain ht (evalMember_contained v n)

end Expr

/-! ## Parts of statements -/

namespace Stmt

theorem isTrue_ensures (h : L.Rules) (ht : t.defines = false) (heval : L.EvaluatesWell eval)
    (test : Expr) :
    L.Ensures t w (isTrue (eval scope) test) fun _ _ => True := by
  refine h.bind (heval t w scope test) fun w₁ v _ _ => ?_
  exact h.operation ht (contained_read fun _ _ => trivial)

theorem execAssign_ensures (h : L.Rules) (heval : L.EvaluatesWell eval) {target value : Expr}
    (hs : L.Allows w around scope (.assign target value)) :
    L.Ensures (.executing scope (.assign target value)) w
      (execAssign (eval scope) scope target value) fun _ _ => True := by
  unfold execAssign
  split
  · refine h.bind (h.lookup rfl) fun w₁ _ hw₁ _ => ?_
    refine h.bind (heval _ w₁ scope value) fun w₂ v hw₂ hv => ?_
    exact h.assign (h.allows_mono hw₂ (h.allows_mono hw₁ hs)) hv
  · rename_i container key
    refine h.bind (heval _ w scope container) fun w₁ v _ _ => ?_
    refine h.bind (heval _ w₁ scope key) fun w₂ k _ _ => ?_
    refine h.bind (heval _ w₂ scope value) fun w₃ new _ hnew => ?_
    exact h.operation rfl (Value.setIndex_contained v k hnew)
  · rename_i object n
    refine h.bind (heval _ w scope object) fun w₁ v _ _ => ?_
    refine h.bind (heval _ w₁ scope value) fun w₂ _ _ _ => ?_
    exact h.operation rfl (contained_fail rfl)
  · exact h.operation rfl (contained_fail rfl)

/-- A block of a statement, in a scope that the statement opens for it. -/
theorem execBlock_ensures (h : L.Rules) (hexec : L.ExecutesWell exec) {s : Stmt} {body : Block}
    (hs : L.Allows w around scope s) (hbody : body ∈ s.blocks) :
    L.Ensures (.executing scope s) w (execBlock exec scope body)
      fun w' flow => L.AdmitsFlow w' (around.inside s) flow := by
  refine h.bind (h.child hs hbody) fun w₁ inner hw₁ hinner => ?_
  exact execAll_ensures h hexec fun s' hs' => h.enter (h.allows_mono hw₁ hs) hinner hbody hs'

theorem execElse_ensures (h : L.Rules) (heval : L.EvaluatesWell eval) (hexec : L.ExecutesWell exec)
    {s : Stmt} {otherwise : Option Block} {branches : List ElseIf}
    (hs : L.Allows w around scope s) (hinside : around.inside s = around)
    (hblocks : ∀ body ∈ branches.map ElseIf.body ++ otherwise.toList, body ∈ s.blocks) :
    L.Ensures (.executing scope s) w (execElse (eval scope) (execBlock exec scope) otherwise branches)
      fun w' flow => L.AdmitsFlow w' around flow := by
  have hblock {w : L.World} (hs : L.Allows w around scope s) {body : Block}
      (hbody : body ∈ s.blocks) := execBlock_ensures h hexec hs hbody
  rw [hinside] at hblock
  induction branches generalizing w with
  | nil =>
    cases otherwise with
    | none => exact h.pure admitsFlow_normal
    | some body => exact hblock hs (hblocks body (List.mem_singleton_self _))
  | cons branch rest ih =>
    rw [List.map_cons, List.cons_append, List.forall_mem_cons] at hblocks
    have ht : (Task.executing scope s).defines = false := Task.defines_of_mem_blocks hblocks.1
    refine h.bind (isTrue_ensures h ht heval branch.test) fun w₁ b hw₁ _ => ?_
    have hs₁ := h.allows_mono hw₁ hs
    split
    · exact hblock hs₁ hblocks.1
    · exact ih hs₁ hblocks.2

/-- Every round of the loop begins in a world that allows the loop. -/
theorem execWhile_ensures (h : L.Rules) (heval : L.EvaluatesWell eval) (hexec : L.ExecutesWell exec)
    {test : Expr} {body : Block} (hs : L.Allows w around scope (.whileLoop test body)) (fuel : Nat) :
    L.Ensures (.executing scope (.whileLoop test body)) w
      (execWhile (isTrue (eval scope) test) (execBlock exec scope body) fuel)
      fun w' flow => L.AdmitsFlow w' around flow := by
  induction fuel generalizing w with
  | zero => exact h.outOfFuel
  | succ fuel ih =>
    refine h.bind (isTrue_ensures h rfl heval test) fun w₁ b hw₁ _ => ?_
    have hs₁ := h.allows_mono hw₁ hs
    split
    · refine h.bind (execBlock_ensures h hexec hs₁ (List.mem_singleton_self body))
        fun w₂ flow hw₂ hflow => ?_
      have hs₂ := h.allows_mono hw₂ hs₁
      cases flow with
      | normal => exact ih hs₂
      | continuing => exact ih hs₂
      | breaking => exact h.pure admitsFlow_normal
      | returning v => exact h.pure hflow
    · exact h.pure admitsFlow_normal

/-- One round of a `for` loop, in a scope of its own. -/
theorem round_ensures (h : L.Rules) (hexec : L.ExecutesWell exec) {binder : LoopVariable}
    {iterable : Expr} {body : Block} {item : Value}
    (hs : L.Allows w around scope (.forLoop binder iterable body)) (hitem : L.Admits w item) :
    L.Ensures (.executing scope (.forLoop binder iterable body)) w
      (do
        let inner ← scope.child
        bindLoopVariable inner binder item
        execAll (exec inner) body)
      fun w' flow => L.AdmitsFlow w' (around.inside (.forLoop binder iterable body)) flow := by
  refine h.bind (h.child hs (List.mem_singleton_self body)) fun w₁ inner hw₁ hinner => ?_
  have hs₁ := h.allows_mono hw₁ hs
  refine h.bind (h.bindLoopVariable hs₁ hinner (h.admits_mono hw₁ hitem)) fun w₂ _ hw₂ _ => ?_
  refine execAll_ensures h hexec fun s' hs' => ?_
  exact h.enter (h.allows_mono hw₂ hs₁) (h.opens_mono hw₂ hinner) (List.mem_singleton_self body) hs'

theorem execFor_ensures (h : L.Rules) (hexec : L.ExecutesWell exec) {binder : LoopVariable}
    {iterable : Expr} {body : Block} {items : List Value}
    (hs : L.Allows w around scope (.forLoop binder iterable body))
    (hitems : ∀ v ∈ items, L.Admits w v) :
    L.Ensures (.executing scope (.forLoop binder iterable body)) w
      (execFor (fun item => do
        let inner ← scope.child
        bindLoopVariable inner binder item
        execAll (exec inner) body) items)
      fun w' flow => L.AdmitsFlow w' around flow := by
  induction items generalizing w with
  | nil => exact h.pure admitsFlow_normal
  | cons item rest ih =>
    rw [List.forall_mem_cons] at hitems
    refine h.bind (round_ensures h hexec hs hitems.1) fun w₁ flow hw₁ hflow => ?_
    have hs₁ := h.allows_mono hw₁ hs
    have hrest : ∀ v ∈ rest, L.Admits w₁ v := fun v hv => h.admits_mono hw₁ (hitems.2 v hv)
    cases flow with
    | normal => exact ih hs₁ hrest
    | continuing => exact ih hs₁ hrest
    | breaking => exact h.pure admitsFlow_normal
    | returning v => exact h.pure hflow

/-! ## Statements -/

/-- One level of execution. -/
theorem execStep_ensures (h : L.Rules) (heval : L.EvaluatesWell eval) (hexec : L.ExecutesWell exec)
    (fuel : Nat) {s : Stmt} (hs : L.Allows w around scope s) :
    L.Ensures (.executing scope s) w (s.execStep fuel eval exec scope)
      fun w' flow => L.AdmitsFlow w' around flow := by
  cases s with
  | functionDef definition =>
    exact h.bind (h.defineFunction hs) fun _ _ _ _ => h.pure admitsFlow_normal
  | classDef n methods =>
    exact h.bind (h.defineClass hs) fun _ _ _ _ => h.pure admitsFlow_normal
  | declare n isMutable =>
    exact h.bind (h.declare hs) fun _ _ _ _ => h.pure admitsFlow_normal
  | assign target value =>
    exact h.bind (execAssign_ensures h heval hs) fun _ _ _ _ => h.pure admitsFlow_normal
  | ifElse test body elseIfs otherwise =>
    exact execElse_ensures h heval hexec hs rfl fun _ hbody => hbody
  | whileLoop test body => exact execWhile_ensures h heval hexec hs fuel
  | forLoop binder iterable body =>
    refine h.bind (heval _ w scope iterable) fun w₁ v hw₁ _ => ?_
    have hiterate := contained_readExcept (P := L.Stores w₁) (f := (Value.iterate · v))
      fun s hs => Value.iterate_yields (fun _ hv => h.stores_plain hv) hs v
    refine h.bind (h.operation rfl hiterate) fun w₂ items hw₂ hitems => ?_
    refine execFor_ensures h hexec (h.allows_mono hw₂ (h.allows_mono hw₁ hs)) fun v hv => ?_
    exact admits_stored (h.stores_mono hw₂ (hitems v hv))
  | returnStmt value =>
    cases value with
    | none =>
      refine h.pure ⟨fun v hv => ?_, fun hconfined => h.jumps hs hconfined trivial⟩
      cases hv
      exact nofun
    | some e =>
      refine h.bind (heval _ w scope e) fun w₁ v hw₁ hv => h.pure ⟨fun v' hv' => ?_, ?_⟩
      · cases hv'
        exact hv
      · exact fun hconfined => h.jumps (h.allows_mono hw₁ hs) hconfined trivial
  | breakStmt => exact h.pure ⟨nofun, fun hconfined => h.jumps hs hconfined trivial⟩
  | continueStmt => exact h.pure ⟨nofun, fun hconfined => h.jumps hs hconfined trivial⟩
  | assertion test =>
    refine h.bind (isTrue_ensures h rfl heval test) fun w₁ b _ _ => ?_
    split
    · exact h.pure admitsFlow_normal
    · exact h.assertionFailed
  | expression e =>
    exact h.bind (heval _ w scope e) fun _ _ _ _ => h.pure admitsFlow_normal

end Stmt

/-! ## All levels -/

namespace Logic.Rules

/-- In a logic of runs that takes no notice of tasks. -/
theorem run {L : Logic Run} (h : L.Rules)
    (htask : ∀ {α : Type} {t t' : Task} {w : L.World} {r : Run α} {Q : L.World → α → Prop},
      L.Ensures t w r Q → L.Ensures t' w r Q) (fuel : Nat) :
    L.EvaluatesWell (Expr.eval fuel) ∧ L.ExecutesWell (Stmt.exec fuel) := by
  induction fuel with
  | zero => exact ⟨fun _ _ _ _ => h.outOfFuel, fun _ _ _ _ _ _ => h.outOfFuel⟩
  | succ fuel ih =>
    constructor
    · exact fun t w scope e => htask (t := .evaluating scope e) (Expr.evalStep_ensures h rfl ih.1 ih.2 e)
    · exact fun t w around scope s hs => htask (Stmt.execStep_ensures h ih.1 ih.2 fuel hs)

/-- In a logic of traced runs, where what is logged inside a task belongs to it. -/
theorem trace {L : Logic Traced} (h : L.Rules)
    (hwithin : ∀ {α : Type} {t t' : Task} {w : L.World} {x : Traced α} {Q : L.World → α → Prop},
      L.Ensures t w x Q → L.Ensures t' w (.within t x) Q) (fuel : Nat) :
    L.EvaluatesWell (Expr.trace fuel) ∧ L.ExecutesWell (Stmt.trace fuel) := by
  induction fuel with
  | zero => exact ⟨fun _ _ _ _ => h.outOfFuel, fun _ _ _ _ _ _ => h.outOfFuel⟩
  | succ fuel ih =>
    constructor
    · exact fun t w scope e => hwithin (t := .evaluating scope e) (Expr.evalStep_ensures h rfl ih.1 ih.2 e)
    · exact fun t w around scope s hs => hwithin (Stmt.execStep_ensures h ih.1 ih.2 fuel hs)

end Logic.Rules

end Offside
