import Offside.Machine
import Offside.Proofs.Store.Frames

/-!
# Output is only ever written to

Evaluation is put together from parts that have nothing to do with the output and from writes, one
after the other. So whatever is true of both, and stays true in sequences, is true of all programs.
-/

namespace Offside

/-! ## Parts that have nothing to do with the output -/

def Store.withOutput (s : Store) (o : Output) : Store := { s with output := o }

def Outcome.mapStore {α : Type} (f : Store → Store) : Outcome α → Outcome α
  | .done a s => .done a (f s)
  | .failed e s => .failed e (f s)
  | .outOfFuel => .outOfFuel

namespace Run

variable {α β : Type} {r : Run α} {f : α → Run β}

/-- With any other output the part does the same, and leaves that output as it is. -/
def Quiet (r : Run α) : Prop :=
  ∀ s o, r (s.withOutput o) = (r s).mapStore (·.withOutput o)

theorem quiet_pure (a : α) : (pure a : Run α).Quiet := fun _ _ => rfl

theorem quiet_fail (e : Fault) : (fail e : Run α).Quiet := fun _ _ => rfl

theorem quiet_outOfFuel : (outOfFuel : Run α).Quiet := fun _ _ => rfl

theorem quiet_ofExcept (x : Except Fault α) : (ofExcept x).Quiet := by
  intro s o
  cases x <;> rfl

theorem quiet_read {f : Store → α} (h : ∀ s o, f (s.withOutput o) = f s) : (read f).Quiet := by
  intro s o
  unfold read
  rw [h]
  rfl

theorem quiet_readExcept {f : Store → Except Fault α} (h : ∀ s o, f (s.withOutput o) = f s) :
    (readExcept f).Quiet := by
  intro s o
  unfold readExcept
  rw [h]
  cases f s <;> rfl

theorem quiet_modify {f : Store → Store} (h : ∀ s o, f (s.withOutput o) = (f s).withOutput o) :
    (modify f).Quiet := by
  intro s o
  unfold modify
  rw [h]
  rfl

theorem Quiet.bind (hr : r.Quiet) (hf : ∀ a, (f a).Quiet) : (r >>= f).Quiet := by
  intro s o
  rw [bind_apply, bind_apply, hr]
  cases r s with
  | done a s' => exact hf a s' o
  | failed e s' => rfl
  | outOfFuel => rfl

/-- The part is put together from parts that have nothing to do with the output and from writes. -/
inductive Prints : {α : Type} → Run α → Prop where
  | quiet {α : Type} {r : Run α} : r.Quiet → Prints r
  | write (text : String) : Prints (Store.write text)
  | bind {α β : Type} {r : Run α} {f : α → Run β} :
    Prints r → (∀ a, Prints (f a)) → Prints (r >>= f)

theorem prints_pure (a : α) : (pure a : Run α).Prints := .quiet (quiet_pure a)

theorem prints_fail (e : Fault) : (fail e : Run α).Prints := .quiet (quiet_fail e)

theorem prints_ofExcept (x : Except Fault α) : (ofExcept x).Prints := .quiet (quiet_ofExcept x)

end Run

namespace Store

variable {s : Store} {o : Output}

@[simp] theorem frame_withOutput (id : FrameId) : (s.withOutput o).frame id = s.frame id := rfl

@[simp] theorem list_withOutput (id : ListId) : (s.withOutput o).list id = s.list id := rfl

@[simp] theorem dictionary_withOutput (id : DictionaryId) :
    (s.withOutput o).dictionary id = s.dictionary id := rfl

@[simp] theorem containers_withOutput : (s.withOutput o).containers = s.containers := rfl

@[simp] theorem owner?_withOutput (n : String) (chain : List FrameId) :
    (s.withOutput o).owner? n chain = s.owner? n chain := by
  induction chain with
  | nil => rfl
  | cons id outer ih => simp only [owner?, frame_withOutput, ih]

end Store

open Run

variable {s : Store} {o : Output}

/-! ## Values -/

namespace Value

theorem isTruthy_withOutput (v : Value) : v.isTruthy (s.withOutput o) = v.isTruthy s := by
  cases v <;> rfl

theorem equals_withOutput (v w : Value) : equals (s.withOutput o) v w = equals s v w := by
  have hwithin (depth : Nat) (active : List (Container × Container)) (v w : Value) :
      equalsWithin (s.withOutput o) depth active v w = equalsWithin s depth active v w := by
    induction depth generalizing active v w with
    | zero => rfl
    | succ depth ih =>
      unfold equalsWithin
      simp only [ih, Store.list_withOutput, Store.dictionary_withOutput]
  exact hwithin ..

theorem textWithin_withOutput (depth : Nat) (active : List Container) (quote : Bool) (v : Value) :
    v.textWithin (s.withOutput o) depth active quote = v.textWithin s depth active quote := by
  induction depth generalizing active quote v with
  | zero => rfl
  | succ depth ih =>
    have hitem (active : List Container) :
        textWithin (s.withOutput o) depth active true = textWithin s depth active true :=
      funext (ih active true)
    unfold textWithin
    simp only [hitem, Store.list_withOutput, Store.dictionary_withOutput]

theorem display_withOutput (v : Value) : v.display (s.withOutput o) = v.display s :=
  textWithin_withOutput ..

theorem repr_withOutput (v : Value) : v.repr (s.withOutput o) = v.repr s :=
  textWithin_withOutput ..

theorem compares_withOutput (op : Operator) (v w : Value) :
    compares (s.withOutput o) op v w = compares s op v w := by
  unfold compares
  simp only [equals_withOutput]

theorem index_withOutput (v k : Value) : index (s.withOutput o) v k = index s v k := by
  cases v <;> rfl

theorem iterate_withOutput (v : Value) : iterate (s.withOutput o) v = iterate s v := by
  cases v <;> rfl

theorem length?_withOutput (v : Value) : length? (s.withOutput o) v = length? s v := by
  cases v <;> rfl

theorem quiet_newList (items : Array Value) : (Store.newList items).Quiet := fun _ _ => rfl

theorem quiet_repeatList (id : ListId) (n : Int64) : (repeatList id n).Quiet := by
  refine .bind (quiet_ofExcept _) fun count => .bind (quiet_read fun _ _ => rfl) fun items => ?_
  exact .bind (quiet_ofExcept _) fun _ => quiet_newList _

theorem quiet_arithmetic (op : Operator) (v w : Value) : (arithmetic op v w).Quiet := by
  unfold arithmetic
  split
  · exact quiet_ofExcept _
  · exact quiet_ofExcept _
  · exact quiet_ofExcept _
  · exact quiet_ofExcept _
  · split
    · exact quiet_ofExcept _
    · refine .bind (quiet_read fun _ _ => rfl) fun xs => .bind (quiet_read fun _ _ => rfl) fun ys => ?_
      exact .bind (quiet_ofExcept _) fun _ => quiet_newList _
    · exact quiet_ofExcept _
    · exact quiet_ofExcept _
    · exact quiet_repeatList _ _
    · exact quiet_repeatList _ _
    · exact quiet_fail _

theorem quiet_setIndex (v k new : Value) : (setIndex v k new).Quiet := by
  unfold setIndex
  split
  · exact .bind (quiet_read fun _ _ => repr_withOutput k) fun _ => quiet_fail _
  · split
    · exact .bind (quiet_readExcept fun _ _ => rfl) fun _ => quiet_modify fun _ _ => rfl
    · exact .bind (quiet_ofExcept _) fun _ => quiet_modify fun _ _ => rfl
    · exact quiet_fail _

end Value

/-! ## Scopes -/

namespace Scope

variable (scope : Scope) (n : String)

theorem lookup_withOutput : scope.lookup n (s.withOutput o) = scope.lookup n s := by
  simp only [lookup, Store.owner?_withOutput, Store.frame_withOutput]

theorem get_withOutput : scope.get n (s.withOutput o) = scope.get n s := by
  simp only [get, lookup_withOutput]

theorem quiet_declare (role : Role) : (scope.declare n role).Quiet := by
  refine .bind (quiet_read fun _ _ => rfl) fun declared => ?_
  split
  · exact quiet_fail _
  · exact quiet_modify fun _ _ => rfl

theorem quiet_assign (v : Value) : (scope.assign n v).Quiet := by
  intro s o
  unfold assign
  rw [Store.owner?_withOutput]
  cases s.owner? n scope.chain with
  | none => rfl
  | some id =>
    dsimp only [Store.frame_withOutput]
    cases (s.frame id).binding? n with
    | none => rfl
    | some b =>
      dsimp only
      cases checkAssign n b v <;> rfl

theorem quiet_define (role : Role) (v : Value) : (scope.define n role v).Quiet :=
  .bind (quiet_declare scope n role) fun _ => quiet_assign scope n v

theorem quiet_child : scope.child.Quiet := fun _ _ => rfl

theorem quiet_snapshot : scope.snapshot.Quiet := fun _ _ => rfl

end Scope

namespace Function

theorem quiet_bindPositional (scope : Scope) (parameters : List String) (args : List Value) :
    (bindPositional scope parameters args).Quiet := by
  induction parameters generalizing args with
  | nil => exact quiet_pure _
  | cons parameter parameters ih =>
    cases args with
    | nil => exact quiet_pure _
    | cons v args => exact .bind (scope.quiet_define _ _ _) fun _ => ih args

theorem quiet_bindKeywords (f : Function) (scope : Scope) (keywords : List (String × Value)) :
    (f.bindKeywords scope keywords).Quiet := by
  induction keywords with
  | nil => exact quiet_pure _
  | cons e rest ih =>
    unfold bindKeywords
    split
    · exact quiet_fail _
    · refine .bind (quiet_read fun _ _ => rfl) fun declared => ?_
      split
      · exact quiet_fail _
      · exact .bind (scope.quiet_define _ _ _) fun _ => ih

theorem quiet_bindArguments (f : Function) (args : List Value)
    (keywords : List (String × Value)) : (f.bindArguments args keywords).Quiet := by
  unfold bindArguments
  dsimp only
  split
  · exact quiet_fail _
  · refine .bind (Scope.quiet_child _) fun scope => ?_
    refine .bind (quiet_bindPositional _ _ _) fun _ => .bind (quiet_bindKeywords _ _ _) fun _ => ?_
    refine .bind (quiet_read fun _ _ => rfl) fun complete => ?_
    split
    · exact quiet_pure _
    · exact quiet_fail _

end Function

/-! ## Built-in functions -/

namespace Action

/-- The line and its end are the only writes that there are. -/
theorem prints_printValues (args : List Value) (keywords : List (String × Value)) :
    (printValues args keywords).Prints := by
  refine .bind (prints_ofExcept _) fun sep => .bind (prints_ofExcept _) fun ending => ?_
  refine .bind (prints_ofExcept _) fun _ => .bind (.quiet (quiet_read fun s o => ?_)) fun texts => ?_
  · exact List.map_congr_left fun v _ => v.display_withOutput
  · exact .bind (.write _) fun _ => .bind (.write _) fun _ => prints_pure _

theorem quiet_lengthOf (args : List Value) (keywords : List (String × Value)) :
    (lengthOf args keywords).Quiet := by
  refine .bind (quiet_ofExcept _) fun _ => .bind (quiet_ofExcept _) fun v => ?_
  refine quiet_readExcept fun _ _ => ?_
  unfold lengthIn
  rw [v.length?_withOutput]

theorem quiet_rangeOf (args : List Value) (keywords : List (String × Value)) :
    (rangeOf args keywords).Quiet := by
  have hrest (start stop : Int) : (do
      ofExcept (Value.checkLength (stop - start).toNat)
      Store.newList (integersBetween start stop).toArray : Run Value).Quiet :=
    .bind (quiet_ofExcept _) fun _ => Value.quiet_newList _
  refine .bind (quiet_ofExcept _) fun _ => .bind (quiet_ofExcept _) fun bounds => ?_
  split
  · exact .bind (quiet_pure _) fun bounds => hrest bounds.1 bounds.2
  · exact .bind (quiet_pure _) fun bounds => hrest bounds.1 bounds.2
  · exact .bind (quiet_fail _) fun bounds => hrest bounds.1 bounds.2

theorem quiet_pushTo (list : ListId) (args : List Value) : (pushTo list args).Quiet := by
  refine .bind (quiet_ofExcept _) fun v => ?_
  split
  · exact quiet_fail _
  · exact .bind (quiet_modify fun _ _ => rfl) fun _ => quiet_pure _

theorem quiet_popFrom (list : ListId) (args : List Value) : (popFrom list args).Quiet := by
  unfold popFrom
  split
  · refine .bind (quiet_read fun _ _ => rfl) fun last => ?_
    cases last with
    | none => exact quiet_fail _
    | some v => exact .bind (quiet_modify fun _ _ => rfl) fun _ => quiet_pure _
  · exact quiet_fail _

theorem prints_call (action : Action) (args : List Value) (keywords : List (String × Value)) :
    (action.call args keywords).Prints := by
  cases action with
  | print => exact prints_printValues args keywords
  | len => exact .quiet (quiet_lengthOf args keywords)
  | range => exact .quiet (quiet_rangeOf args keywords)
  | push list => exact .quiet (quiet_pushTo list args)
  | pop list => exact .quiet (quiet_popFrom list args)

end Action

/-! ## Expressions -/

variable {eval : Expr → Run Value} {exec : Scope → Stmt → Run Flow}

namespace Expr

theorem prints_evalAll (heval : ∀ e, (eval e).Prints) (es : List Expr) :
    (evalAll eval es).Prints := by
  induction es with
  | nil => exact prints_pure _
  | cons e rest ih => exact .bind (heval e) fun _ => .bind ih fun _ => prints_pure _

theorem prints_evalEntries (heval : ∀ e, (eval e).Prints) (es : List (Expr × Expr)) :
    (evalEntries eval es).Prints := by
  induction es with
  | nil => exact prints_pure _
  | cons e rest ih =>
    refine .bind (heval e.1) fun _ => .bind (prints_ofExcept _) fun _ => ?_
    refine .bind (heval e.2) fun _ => .bind (prints_ofExcept _) fun _ => ?_
    exact .bind ih fun _ => prints_pure _

theorem prints_evalKeywords (heval : ∀ e, (eval e).Prints) (es : List (String × Expr)) :
    (evalKeywords eval es).Prints := by
  induction es with
  | nil => exact prints_pure _
  | cons e rest ih => exact .bind (heval e.2) fun _ => .bind ih fun _ => prints_pure _

theorem prints_compares (op : Operator) (v w : Value) :
    (readExcept (Value.compares · op v w)).Prints :=
  .quiet (quiet_readExcept fun _ _ => Value.compares_withOutput op v w)

theorem prints_evalChain (heval : ∀ e, (eval e).Prints) (first : Value)
    (links : List (Operator × Expr)) : (evalChain eval first links).Prints := by
  induction links generalizing first with
  | nil => exact prints_pure _
  | cons link rest ih =>
    refine .bind (heval link.2) fun v => .bind (prints_compares link.1 first v) fun holds => ?_
    split
    · exact ih v
    · exact prints_pure _

end Expr

theorem Stmt.prints_execAll {exec : Stmt → Run Flow} (hexec : ∀ s, (exec s).Prints)
    (body : List Stmt) : (execAll exec body).Prints := by
  induction body with
  | nil => exact prints_pure _
  | cons s rest ih =>
    refine .bind (hexec s) fun flow => ?_
    cases flow with
    | normal => exact ih
    | returning | breaking | continuing => exact prints_pure _

theorem Function.prints_apply (hexec : ∀ scope s, (exec scope s).Prints) (f : Function)
    (args : List Value) (keywords : List (String × Value)) :
    (f.apply exec args keywords).Prints := by
  refine .bind (.quiet (f.quiet_bindArguments args keywords)) fun scope => ?_
  exact .bind (Stmt.prints_execAll (hexec scope) _) fun _ => prints_ofExcept _

namespace Expr

theorem quiet_freshIdentity : Store.freshIdentity.Quiet := fun _ _ => rfl

theorem prints_evalCall (heval : ∀ e, (eval e).Prints) (hexec : ∀ scope s, (exec scope s).Prints)
    (callee : Value) (args : List Expr) (keywords : List (String × Expr)) :
    (evalCall eval exec callee args keywords).Prints := by
  unfold evalCall
  split
  · exact .bind (.quiet quiet_freshIdentity) fun _ => prints_pure _
  · refine .bind (prints_evalAll heval args) fun _ => ?_
    exact .bind (prints_evalKeywords heval keywords) fun _ => Function.prints_apply hexec _ _ _
  · refine .bind (prints_evalAll heval args) fun _ => ?_
    exact .bind (prints_evalKeywords heval keywords) fun _ => Action.prints_call _ _ _
  · exact prints_fail _

theorem quiet_evalMember (v : Value) (member : String) : (evalMember v member).Quiet := by
  unfold evalMember
  split
  · split
    · exact .bind quiet_freshIdentity fun _ => quiet_pure _
    · exact quiet_fail _
  · exact quiet_fail _

theorem prints_evalStep {eval : Scope → Expr → Run Value} (heval : ∀ scope e, (eval scope e).Prints)
    (hexec : ∀ scope s, (exec scope s).Prints) (scope : Scope) (e : Expr) :
    (e.evalStep eval exec scope).Prints := by
  unfold evalStep
  cases e with
  | name n => exact .quiet (quiet_readExcept fun _ _ => scope.get_withOutput n)
  | integer | float | string | boolean | null => exact prints_pure _
  | list items =>
    refine .bind (prints_evalAll (fun e => ?_) items) fun vs => .quiet fun _ _ => rfl
    exact .bind (heval scope e) fun _ => prints_ofExcept _
  | dictionary entries =>
    exact .bind (prints_evalEntries (heval scope) entries) fun vs => .quiet fun _ _ => rfl
  | not operand =>
    refine .bind (heval scope operand) fun v => .bind (.quiet ?_) fun _ => prints_pure _
    exact quiet_read fun _ _ => v.isTruthy_withOutput
  | negative operand => exact .bind (heval scope operand) fun _ => prints_ofExcept _
  | binary left op right =>
    refine .bind (heval scope left) fun v => .bind (heval scope right) fun w => ?_
    split
    · exact .bind (prints_compares op v w) fun _ => prints_pure _
    · exact .quiet (Value.quiet_arithmetic op v w)
  | compare first ops operands =>
    refine .bind (heval scope first) fun v => ?_
    exact .bind (prints_evalChain (heval scope) v _) fun _ => prints_pure _
  | call callee args keywords =>
    exact .bind (heval scope callee) fun v => prints_evalCall (heval scope) hexec v args keywords
  | index target key =>
    refine .bind (heval scope target) fun v => .bind (heval scope key) fun k => .quiet ?_
    exact quiet_readExcept fun _ _ => Value.index_withOutput v k
  | member target n => exact .bind (heval scope target) fun v => .quiet (quiet_evalMember v n)

end Expr

/-! ## Statements -/

namespace Stmt

theorem quiet_define_both (scope closure : Scope) (n : String) (role : Role) (v : Value) :
    (do scope.define n role v; closure.define n role v : Run Unit).Quiet :=
  .bind (scope.quiet_define n role v) fun _ => closure.quiet_define n role v

theorem quiet_defineFunction (scope : Scope) (definition : FunctionDef) :
    (defineFunction scope definition).Quiet := by
  refine .bind scope.quiet_snapshot fun closure => ?_
  exact .bind Expr.quiet_freshIdentity fun _ => quiet_define_both scope closure _ _ _

theorem quiet_makeMethods (closure : Scope) (methods : List FunctionDef) :
    (methods.mapM fun definition => do
      return (⟨← Store.freshIdentity, definition, closure⟩ : Function) : Run _).Quiet := by
  induction methods with
  | nil => exact quiet_pure _
  | cons definition rest ih =>
    rw [List.mapM_cons]
    refine .bind (.bind Expr.quiet_freshIdentity fun _ => quiet_pure _) fun f => ?_
    exact .bind ih fun _ => quiet_pure _

theorem quiet_defineClass (scope : Scope) (n : String) (methods : List FunctionDef) :
    (defineClass scope n methods).Quiet := by
  refine .bind scope.quiet_snapshot fun closure => ?_
  refine .bind (quiet_makeMethods closure _) fun methods => ?_
  exact .bind Expr.quiet_freshIdentity fun _ => quiet_define_both scope closure _ _ _

theorem prints_execAssign (heval : ∀ e, (eval e).Prints) (scope : Scope) (target value : Expr) :
    (execAssign eval scope target value).Prints := by
  unfold execAssign
  split
  · rename_i n
    refine .bind (.quiet (quiet_readExcept fun _ _ => scope.lookup_withOutput n)) fun _ => ?_
    exact .bind (heval value) fun v => .quiet (scope.quiet_assign n v)
  · rename_i target key
    refine .bind (heval target) fun v => .bind (heval key) fun k => ?_
    exact .bind (heval value) fun new => .quiet (v.quiet_setIndex k new)
  · rename_i target n
    exact .bind (heval target) fun v => .bind (heval value) fun _ => prints_fail _
  · exact prints_fail _

theorem prints_isTrue (heval : ∀ e, (eval e).Prints) (test : Expr) : (isTrue eval test).Prints :=
  .bind (heval test) fun v => .quiet (quiet_read fun _ _ => v.isTruthy_withOutput)

theorem prints_execElse (heval : ∀ e, (eval e).Prints) {block : Block → Run Flow}
    (hblock : ∀ body, (block body).Prints) (otherwise : Option Block) (branches : List ElseIf) :
    (execElse eval block otherwise branches).Prints := by
  induction branches with
  | nil =>
    cases otherwise with
    | none => exact prints_pure _
    | some body => exact hblock body
  | cons branch rest ih =>
    refine .bind (prints_isTrue heval branch.test) fun holds => ?_
    split
    · exact hblock branch.body
    · exact ih

theorem prints_execWhile {test : Run Bool} {body : Run Flow} (htest : test.Prints)
    (hbody : body.Prints) (fuel : Nat) : (execWhile test body fuel).Prints := by
  induction fuel with
  | zero => exact .quiet quiet_outOfFuel
  | succ fuel ih =>
    refine .bind htest fun holds => ?_
    split
    · refine .bind hbody fun flow => ?_
      cases flow with
      | normal | continuing => exact ih
      | breaking | returning => exact prints_pure _
    · exact prints_pure _

theorem prints_execFor {body : Value → Run Flow} (hbody : ∀ item, (body item).Prints)
    (items : List Value) : (execFor body items).Prints := by
  induction items with
  | nil => exact prints_pure _
  | cons item rest ih =>
    refine .bind (hbody item) fun flow => ?_
    cases flow with
    | normal | continuing => exact ih
    | breaking | returning => exact prints_pure _

theorem quiet_bindLoopVariable (scope : Scope) (binder : LoopVariable) (item : Value) :
    (bindLoopVariable scope binder item).Quiet := by
  cases binder with
  | name n => exact scope.quiet_assign n item
  | declared n isMutable => exact scope.quiet_define n _ item

theorem prints_execBlock (hexec : ∀ scope s, (exec scope s).Prints) (scope : Scope)
    (body : Block) : (execBlock exec scope body).Prints :=
  .bind (.quiet scope.quiet_child) fun inner => prints_execAll (hexec inner) body

theorem prints_execStep (fuel : Nat) {eval : Scope → Expr → Run Value}
    (heval : ∀ scope e, (eval scope e).Prints) (hexec : ∀ scope s, (exec scope s).Prints)
    (scope : Scope) (s : Stmt) : (s.execStep fuel eval exec scope).Prints := by
  unfold execStep
  cases s with
  | functionDef definition =>
    exact .bind (.quiet (quiet_defineFunction scope definition)) fun _ => prints_pure _
  | classDef n methods =>
    exact .bind (.quiet (quiet_defineClass scope n methods)) fun _ => prints_pure _
  | declare n isMutable => exact .bind (.quiet (scope.quiet_declare n _)) fun _ => prints_pure _
  | assign target value =>
    exact .bind (prints_execAssign (heval scope) scope target value) fun _ => prints_pure _
  | ifElse test body elseIfs otherwise =>
    exact prints_execElse (heval scope) (prints_execBlock hexec scope) otherwise _
  | whileLoop test body =>
    exact prints_execWhile (prints_isTrue (heval scope) test) (prints_execBlock hexec scope body) fuel
  | forLoop binder iterable body =>
    refine .bind (heval scope iterable) fun v => ?_
    refine .bind (.quiet (quiet_readExcept fun _ _ => v.iterate_withOutput)) fun items => ?_
    refine prints_execFor (fun item => .bind (.quiet scope.quiet_child) fun inner => ?_) items
    refine .bind (.quiet (quiet_bindLoopVariable inner binder item)) fun _ => ?_
    exact prints_execAll (hexec inner) body
  | returnStmt value =>
    cases value with
    | none => exact prints_pure _
    | some e => exact .bind (heval scope e) fun _ => prints_pure _
  | breakStmt | continueStmt => exact prints_pure _
  | assertion test =>
    refine .bind (prints_isTrue (heval scope) test) fun holds => ?_
    split
    · exact prints_pure _
    · exact prints_fail _
  | expression e => exact .bind (heval scope e) fun _ => prints_pure _

end Stmt

/-! ## All levels -/

theorem eval_exec_prints (fuel : Nat) :
    (∀ scope e, (Expr.eval fuel scope e).Prints) ∧ ∀ scope s, (Stmt.exec fuel scope s).Prints := by
  induction fuel with
  | zero =>
    exact ⟨fun _ _ => .quiet quiet_outOfFuel, fun _ _ => .quiet quiet_outOfFuel⟩
  | succ fuel ih =>
    exact ⟨Expr.prints_evalStep ih.1 ih.2, Stmt.prints_execStep fuel ih.1 ih.2⟩

theorem Stmt.prints_execTopLevel (fuel : Nat) (globals : Scope) (s : Stmt) :
    (s.execTopLevel fuel globals).Prints :=
  .bind ((eval_exec_prints fuel).2 globals s) fun _ => prints_ofExcept _

end Offside
