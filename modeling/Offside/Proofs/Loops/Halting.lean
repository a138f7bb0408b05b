import Offside.Proofs.Store.Edits
import Offside.Proofs.Store.Finite
import Offside.Proofs.Store.Machines
import Offside.Proofs.Syntax.Parts

/-!
# Programs that always end

A program without `while` loops and without definitions of functions and methods always ends. It
never makes a function, so that a call is one of a built-in function or of a class, and each loop
goes around as often as its items were counted at its beginning. So evaluation goes no deeper than
the tree, whatever the store holds.
-/

namespace Offside

open Run

/-! ## Bounded statements -/

/-- The statement is no `while` loop and defines no functions. -/
def Stmt.isBounded : Stmt → Bool
  | .functionDef _ | .whileLoop _ _ => false
  | .classDef _ methods => methods.isEmpty
  | _ => true

/-- No statement in this one is a `while` loop or defines functions. -/
inductive Stmt.Bounded : Stmt → Prop where
  | intro {s : Stmt} : s.isBounded = true → (∀ body ∈ s.blocks, ∀ inner ∈ body, Bounded inner) →
    Bounded s

def Program.Bounded (p : Program) : Prop := ∀ s ∈ p, s.Bounded

/-! ## Parts of runs that end -/

/-- The value is no function. -/
def Value.Inert (v : Value) : Prop := ∀ f, v ≠ .function f

theorem Value.inert_of_isPlain {v : Value} (h : v.isPlain = true) : v.Inert := by
  rintro f rfl
  cases h

/-- In a store that holds no functions the part ends, and none gets into the store. -/
def Run.Ends {α : Type} (r : Run α) (Q : α → Prop) : Prop :=
  ∀ s : Store, s.Holds Value.Inert → r s ≠ .outOfFuel ∧
    r.Meets s (fun a s' => s'.Holds Value.Inert ∧ Q a) fun _ _ => True

namespace Run

variable {α β : Type} {r : Run α} {Q : α → Prop} {R : β → Prop}

theorem ends_pure {a : α} (h : Q a) : Ends (pure a) Q := fun _ hs => ⟨nofun, hs, h⟩

theorem ends_bind {f : α → Run β} (hr : r.Ends Q) (hf : ∀ a, Q a → (f a).Ends R) :
    (r >>= f).Ends R := by
  intro s hs
  obtain ⟨hfuel, hmeets⟩ := hr s hs
  unfold Meets
  rw [bind_apply]
  cases hrun : r s with
  | done a s' =>
    obtain ⟨hs', ha⟩ := hmeets.of_done hrun
    exact hf a ha s' hs'
  | failed e s' => exact ⟨nofun, trivial⟩
  | outOfFuel => exact absurd hrun hfuel

theorem Ends.mono {Q' : α → Prop} (h : r.Ends Q) (hQ : ∀ a, Q a → Q' a) : r.Ends Q' :=
  fun s hs => ⟨(h s hs).1, (h s hs).2.imp fun a _ h => ⟨h.1, hQ a h.2⟩⟩

theorem Finite.ends (h : r.Finite) (hr : r.Contained Value.Inert Q) : r.Ends Q :=
  fun s hs => ⟨h s, (hr s hs).mono (fun _ _ h => h.2) fun _ _ _ => trivial⟩

/-- An operation on scopes that puts no function into the store. -/
theorem Finite.ends_of_edits (h : r.Finite) (ids : List FrameId) {T : Store → α → Store → Prop}
    (hr : ∀ s : Store, s.Holds Value.Inert → r.Edits Value.Inert ids s (T s))
    (hQ : ∀ s a s', T s a s' → Q a) : r.Ends Q := by
  intro s hs
  refine ⟨h s, Meets.mono (hr s hs) ?_ fun _ _ _ => trivial⟩
  rintro a s' ⟨hedits, ha⟩
  exact ⟨hedits.holds hs, hQ s a s' ha⟩

theorem ends_fail {e : Fault} : (fail e : Run α).Ends Q := fun _ _ => ⟨nofun, trivial⟩

end Run

/-! ## Expressions -/

namespace Expr

variable {eval : Expr → Run Value} {exec : Scope → Stmt → Run Flow}

theorem evalAll_ends {Q : Value → Prop} {es : List Expr} (h : ∀ e ∈ es, (eval e).Ends Q) :
    (evalAll eval es).Ends fun vs => ∀ v ∈ vs, Q v := by
  induction es with
  | nil => exact ends_pure nofun
  | cons e rest ih =>
    rw [List.forall_mem_cons] at h
    refine ends_bind h.1 fun v hv => ends_bind (ih h.2) fun vs hvs => ?_
    exact ends_pure (List.forall_mem_cons.mpr ⟨hv, hvs⟩)

theorem evalKeywords_ends {es : List (String × Expr)}
    (h : ∀ e ∈ es.map Prod.snd, (eval e).Ends Value.Inert) :
    (evalKeywords eval es).Ends fun vs => ∀ e ∈ vs, e.2.Inert := by
  induction es with
  | nil => exact ends_pure nofun
  | cons e rest ih =>
    rw [List.map_cons, List.forall_mem_cons] at h
    refine ends_bind h.1 fun v hv => ends_bind (ih h.2) fun vs hvs => ?_
    exact ends_pure (List.forall_mem_cons.mpr ⟨hv, hvs⟩)

theorem storable_ends (what : String) {v : Value} (hv : v.Inert) :
    (ofExcept (storable what v)).Ends Value.Inert := by
  refine (finite_ofExcept _).ends ((contained_ofExcept storable_yields).mono ?_)
  rintro w ⟨rfl, -⟩
  exact hv

theorem evalEntries_ends {es : List (Expr × Expr)}
    (h : ∀ e ∈ es.flatMap fun e => [e.1, e.2], (eval e).Ends Value.Inert) :
    (evalEntries eval es).Ends fun vs => ∀ e ∈ vs, e.2.Inert := by
  induction es with
  | nil => exact ends_pure nofun
  | cons e rest ih =>
    rw [List.flatMap_cons, List.forall_mem_append, List.forall_mem_cons,
      List.forall_mem_singleton] at h
    obtain ⟨⟨hkey, hvalue⟩, hrest⟩ := h
    refine ends_bind hkey fun k _ => ?_
    have hhashed := (finite_ofExcept _).ends (contained_ofExcept (Value.key_yields k))
    refine ends_bind hhashed fun k _ => ?_
    refine ends_bind hvalue fun v hv => ends_bind (storable_ends _ hv) fun v hv => ?_
    refine ends_bind (ih hrest) fun vs hvs => ?_
    exact ends_pure (List.forall_mem_cons.mpr ⟨hv, hvs⟩)

theorem compares_ends (op : Operator) (v w : Value) :
    (readExcept (Value.compares · op v w)).Ends fun _ => True :=
  (finite_readExcept _).ends (contained_readExcept fun s _ => Value.compares_yields s op v w)

theorem evalChain_ends (first : Value) {links : List (Operator × Expr)}
    (h : ∀ e ∈ links, (eval e.2).Ends Value.Inert) :
    (evalChain eval first links).Ends fun _ => True := by
  induction links generalizing first with
  | nil => exact ends_pure trivial
  | cons link rest ih =>
    rw [List.forall_mem_cons] at h
    refine ends_bind h.1 fun v _ => ends_bind (compares_ends link.1 first v) fun holds _ => ?_
    split
    · exact ih v h.2
    · exact ends_pure trivial

/-- What is called is no function of the program. -/
theorem evalCall_ends {callee : Value} (hcallee : callee.Inert) {args : List Expr}
    {keywords : List (String × Expr)} (hargs : ∀ e ∈ args, (eval e).Ends Value.Inert)
    (hkeywords : ∀ e ∈ keywords.map Prod.snd, (eval e).Ends Value.Inert) :
    (evalCall eval exec callee args keywords).Ends Value.Inert := by
  cases callee with
  | function f => exact absurd rfl (hcallee f)
  | classObject c =>
    refine ends_bind (Store.freshIdentity_finite.ends Store.freshIdentity_contained) ?_
    exact fun identity _ => ends_pure nofun
  | builtin b =>
    refine ends_bind (evalAll_ends hargs) fun vs hvs => ?_
    refine ends_bind (evalKeywords_ends hkeywords) fun ks _ => ?_
    refine ((Action.call_finite b.action vs ks).ends (Action.call_contained
      (fun _ => Value.inert_of_isPlain) b.action (fun v hv _ => hvs v hv) ks)).mono ?_
    intro v hv
    cases hvoid : v.isVoid with
    | false => exact hv hvoid
    | true =>
      rintro f rfl
      cases hvoid
  | _ => exact ends_fail

/-- One level of evaluation ends if all that is directly inside does. -/
theorem evalStep_ends {eval : Scope → Expr → Run Value} {scope : Scope} {e : Expr}
    (h : ∀ child ∈ e.children, (eval scope child).Ends Value.Inert) :
    (e.evalStep eval exec scope).Ends Value.Inert := by
  have hplain {r : Run Value} (hfinite : r.Finite)
      (hr : r.Contained Value.Inert fun v => v.isPlain = true) : r.Ends Value.Inert :=
    (hfinite.ends hr).mono fun _ => Value.inert_of_isPlain
  cases e with
  | name n =>
    exact (finite_readExcept _).ends_of_edits [] (fun _ => Scope.get_edits) fun _ _ _ hv => hv
  | integer | float | string | boolean | null => exact ends_pure nofun
  | list items =>
    refine ends_bind (evalAll_ends (Q := Value.Inert) fun e he => ?_) fun vs hvs => ?_
    · exact ends_bind (h e he) fun v hv => storable_ends _ hv
    · exact hplain (Store.newList_finite _)
        (Store.newList_contained fun v hv => hvs v (List.mem_toArray.mp hv))
  | dictionary entries =>
    refine ends_bind (evalEntries_ends h) fun es hes => ?_
    exact hplain (Store.newDictionary_finite _)
      (Store.newDictionary_contained (Dictionary.of_mem_ofList hes))
  | not operand =>
    refine ends_bind (h operand List.mem_cons_self) fun v _ => ?_
    refine ends_bind (Q := fun _ => True) ?_ fun holds _ => ends_pure nofun
    exact (finite_read _).ends (contained_read fun _ _ => trivial)
  | negative operand =>
    refine ends_bind (h operand List.mem_cons_self) fun v _ => ?_
    exact hplain (finite_ofExcept _) (contained_ofExcept (Number.negate_yields v))
  | binary left op right =>
    refine ends_bind (h left List.mem_cons_self) fun v _ => ?_
    refine ends_bind (h right (List.mem_cons_of_mem _ List.mem_cons_self)) fun w _ => ?_
    split
    · exact ends_bind (compares_ends op v w) fun holds _ => ends_pure nofun
    · exact hplain (Value.arithmetic_finite op v w) (Value.arithmetic_contained op v w)
  | compare first ops operands =>
    have hoperands : ∀ link ∈ ops.zip operands, (eval scope link.2).Ends Value.Inert :=
      fun link hlink => h link.2 (List.mem_cons_of_mem _ (List.of_mem_zip hlink).2)
    refine ends_bind (h first List.mem_cons_self) fun v _ => ?_
    exact ends_bind (evalChain_ends v hoperands) fun holds _ => ends_pure nofun
  | call callee args keywords =>
    rw [children, List.cons_append, List.forall_mem_cons, List.forall_mem_append] at h
    exact ends_bind h.1 fun v hv => evalCall_ends hv h.2.1 h.2.2
  | index target key =>
    refine ends_bind (h target List.mem_cons_self) fun v _ => ?_
    refine ends_bind (h key (List.mem_cons_of_mem _ List.mem_cons_self)) fun k _ => ?_
    exact (finite_readExcept _).ends (contained_readExcept fun s hs =>
      Value.index_yields (fun _ => Value.inert_of_isPlain) hs v k)
  | member target n =>
    refine ends_bind (h target List.mem_cons_self) fun v _ => ?_
    exact hplain (evalMember_finite v n) (evalMember_contained v n)

end Expr

/-! ## Statements -/

namespace Stmt

variable {eval : Expr → Run Value} {exec : Scope → Stmt → Run Flow} {scope : Scope}

theorem isTrue_ends {test : Expr} (h : (eval test).Ends Value.Inert) :
    (isTrue eval test).Ends fun _ => True :=
  ends_bind h fun _ _ => (finite_read _).ends (contained_read fun _ _ => trivial)

theorem execAll_ends {exec : Stmt → Run Flow} {body : Block}
    (h : ∀ s ∈ body, (exec s).Ends fun _ => True) : (execAll exec body).Ends fun _ => True := by
  induction body with
  | nil => exact ends_pure trivial
  | cons s rest ih =>
    rw [List.forall_mem_cons] at h
    refine ends_bind h.1 fun flow _ => ?_
    cases flow with
    | normal => exact ih h.2
    | _ => exact ends_pure trivial

theorem child_ends (scope : Scope) : scope.child.Ends fun _ => True :=
  (Scope.child_finite scope).ends_of_edits [] (fun _ _ => Scope.child_edits) fun _ _ _ _ => trivial

theorem execBlock_ends {body : Block} (h : ∀ s ∈ body, ∀ scope, (exec scope s).Ends fun _ => True) :
    (execBlock exec scope body).Ends fun _ => True :=
  ends_bind (child_ends scope) fun inner _ => execAll_ends fun s hs => h s hs inner

theorem assign_ends {n : String} {v : Value} (hv : v.Inert) :
    (scope.assign n v).Ends fun _ => True :=
  (Scope.assign_finite scope n v).ends_of_edits scope.chain
    (fun _ _ => Scope.assign_edits (fun _ => hv) (List.Subset.refl _)) fun _ _ _ _ => trivial

theorem execAssign_ends {target value : Expr}
    (h : ∀ e ∈ (Stmt.assign target value).expressions, (eval e).Ends Value.Inert) :
    (execAssign eval scope target value).Ends fun _ => True := by
  rw [expressions, List.forall_mem_append, List.forall_mem_singleton] at h
  obtain ⟨hinside, hvalue⟩ := h
  unfold execAssign
  split
  · refine ends_bind (Q := fun _ => True) ?_ fun _ _ => ends_bind hvalue fun v hv => assign_ends hv
    exact (finite_readExcept _).ends_of_edits [] (fun _ _ => Scope.lookup_edits)
      fun _ _ _ _ => trivial
  · rename_i container key
    refine ends_bind (hinside container List.mem_cons_self) fun v _ => ?_
    refine ends_bind (hinside key (List.mem_cons_of_mem _ List.mem_cons_self)) fun k _ => ?_
    refine ends_bind hvalue fun new hnew => ?_
    exact (Value.setIndex_finite v k new).ends (Value.setIndex_contained v k fun _ => hnew)
  · rename_i object n
    refine ends_bind (hinside object List.mem_cons_self) fun v _ => ?_
    exact ends_bind hvalue fun _ _ => ends_fail
  · exact ends_fail

theorem execElse_ends {block : Block → Run Flow} {otherwise : Option Block} {branches : List ElseIf}
    (htests : ∀ e ∈ branches.map ElseIf.test, (eval e).Ends Value.Inert)
    (hblocks : ∀ body ∈ branches.map ElseIf.body ++ otherwise.toList,
      (block body).Ends fun _ => True) :
    (execElse eval block otherwise branches).Ends fun _ => True := by
  induction branches with
  | nil =>
    cases otherwise with
    | none => exact ends_pure trivial
    | some body => exact hblocks body (List.mem_singleton_self _)
  | cons branch rest ih =>
    rw [List.map_cons, List.forall_mem_cons] at htests
    rw [List.map_cons, List.cons_append, List.forall_mem_cons] at hblocks
    refine ends_bind (isTrue_ends htests.1) fun holds _ => ?_
    split
    · exact hblocks.1
    · exact ih htests.2 hblocks.2

theorem bindLoopVariable_ends {inner : Scope} {binder : LoopVariable} {item : Value}
    (hitem : item.Inert) : (bindLoopVariable inner binder item).Ends fun _ => True :=
  (bindLoopVariable_finite inner binder item).ends_of_edits inner.chain
    (fun _ _ => bindLoopVariable_edits (List.Subset.refl _) fun _ => hitem) fun _ _ _ _ => trivial

/-- The items are all there before the first round, so that they are what the induction is on. -/
theorem execFor_ends {round : Value → Run Flow} {items : List Value}
    (h : ∀ item ∈ items, (round item).Ends fun _ => True) :
    (execFor round items).Ends fun _ => True := by
  induction items with
  | nil => exact ends_pure trivial
  | cons item rest ih =>
    rw [List.forall_mem_cons] at h
    refine ends_bind h.1 fun flow _ => ?_
    cases flow with
    | normal => exact ih h.2
    | continuing => exact ih h.2
    | breaking => exact ends_pure trivial
    | returning v => exact ends_pure trivial

/-- One level of execution ends if all that is directly inside does. -/
theorem execStep_ends {eval : Scope → Expr → Run Value} {s : Stmt} (fuel : Nat)
    (hs : s.isBounded = true)
    (heval : ∀ e ∈ s.expressions, (eval scope e).Ends Value.Inert)
    (hexec : ∀ body ∈ s.blocks, ∀ inner ∈ body, ∀ scope, (exec scope inner).Ends fun _ => True) :
    (s.execStep fuel eval exec scope).Ends fun _ => True := by
  cases s with
  | functionDef definition => cases hs
  | whileLoop test body => cases hs
  | classDef n methods =>
    obtain rfl := List.isEmpty_iff.mp hs
    refine ends_bind (Q := fun _ => True) ?_ fun _ _ => ends_pure trivial
    exact (defineClass_finite scope n []).ends_of_edits scope.chain
      (fun _ hstore => defineClass_edits hstore
        ⟨List.mem_cons_self, .inr (List.Subset.refl _)⟩ fun _ _ _ => nofun) fun _ _ _ _ => trivial
  | declare n isMutable =>
    refine ends_bind (Q := fun _ => True) ?_ fun _ _ => ends_pure trivial
    exact (Scope.declare_finite scope n _).ends_of_edits scope.chain
      (fun _ _ => Scope.declare_edits List.mem_cons_self) fun _ _ _ _ => trivial
  | assign target value => exact ends_bind (execAssign_ends heval) fun _ _ => ends_pure trivial
  | ifElse test body elseIfs otherwise =>
    exact execElse_ends heval fun body hbody => execBlock_ends fun s hs => hexec body hbody s hs
  | forLoop binder iterable body =>
    refine ends_bind (heval iterable List.mem_cons_self) fun v _ => ?_
    refine ends_bind ((finite_readExcept _).ends (contained_readExcept fun s hs =>
      Value.iterate_yields (fun _ => Value.inert_of_isPlain) hs v)) fun items hitems => ?_
    refine execFor_ends fun item hitem => ?_
    refine ends_bind (child_ends scope) fun inner _ => ?_
    refine ends_bind (bindLoopVariable_ends (hitems item hitem)) fun _ _ => ?_
    exact execAll_ends fun s hs => hexec body List.mem_cons_self s hs inner
  | returnStmt value =>
    cases value with
    | none => exact ends_pure trivial
    | some e => exact ends_bind (heval e List.mem_cons_self) fun _ _ => ends_pure trivial
  | breakStmt => exact ends_pure trivial
  | continueStmt => exact ends_pure trivial
  | assertion test =>
    refine ends_bind (isTrue_ends (heval test List.mem_cons_self)) fun holds _ => ?_
    split
    · exact ends_pure trivial
    · exact ends_fail
  | expression e =>
    exact ends_bind (heval e List.mem_cons_self) fun _ _ => ends_pure trivial

end Stmt

/-! ## All levels -/

theorem Expr.eval_ends {fuel : Nat} {e : Expr} (h : sizeOf e < fuel) (scope : Scope) :
    (e.eval fuel scope).Ends Value.Inert := by
  induction fuel generalizing e scope with
  | zero => exact absurd h (Nat.not_lt_zero _)
  | succ fuel ih =>
    refine evalStep_ends fun child hchild => ih ?_ scope
    have := sizeOf_of_mem_children hchild
    omega

theorem Stmt.exec_ends {fuel : Nat} {s : Stmt} (hs : s.Bounded) (h : sizeOf s < fuel)
    (scope : Scope) : (s.exec fuel scope).Ends fun _ => True := by
  induction fuel generalizing s scope with
  | zero => exact absurd h (Nat.not_lt_zero _)
  | succ fuel ih =>
    obtain ⟨hhead, hblocks⟩ := hs
    refine execStep_ends fuel hhead (fun e he => Expr.eval_ends ?_ scope) ?_
    · have := sizeOf_of_mem_expressions he
      omega
    · intro body hbody inner hinner scope
      have := sizeOf_of_mem_blocks hbody hinner
      exact ih (hblocks body hbody inner hinner) (by omega) scope

/-- The program has come to its end or has failed. -/
def Ending.Halted (ending : Ending) : Prop :=
  (∃ s, ending = .finished s) ∨ ∃ why s, ending = .stopped why s

theorem Program.run_halted {p : Program} {fuel : Nat} (hp : p.Bounded) (h : sizeOf p ≤ fuel)
    (globals : Scope) {s : Store} (hs : s.Holds Value.Inert) : (p.run fuel globals s).Halted := by
  induction p generalizing s with
  | nil => exact .inl ⟨s, rfl⟩
  | cons st rest ih =>
    have hp' := List.forall_mem_cons.mp hp
    rw [List.cons.sizeOf_spec] at h
    have htop : (st.execTopLevel fuel globals).Ends fun _ => True := by
      refine ends_bind (Stmt.exec_ends hp'.1 (by omega) globals) fun flow _ => ?_
      cases flow with
      | normal => exact ends_pure trivial
      | _ => exact ends_fail
    obtain ⟨hfuel, hmeets⟩ := htop s hs
    unfold Program.run
    cases hrun : st.execTopLevel fuel globals s with
    | done u s' => exact ih hp'.2 (by omega) (hmeets.of_done hrun).1
    | failed e s' => exact .inr ⟨_, _, rfl⟩
    | outOfFuel => exact absurd hrun hfuel

end Offside
