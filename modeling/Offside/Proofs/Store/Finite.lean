import Offside.Evaluation
import Offside.Proofs.Store.Meets

/-!
# Operations never run out of fuel

Fuel is used by evaluation and by `while` loops alone. Operations on values, on names and on scopes
always end.
-/

namespace Offside

/-- The part does not run out of fuel, whatever the store. -/
def Run.Finite {α : Type} (r : Run α) : Prop := ∀ s, r s ≠ .outOfFuel

namespace Run

variable {α β : Type} {r : Run α} {f : α → Run β}

theorem finite_pure (a : α) : Finite (pure a) := fun _ => nofun

theorem finite_fail (e : Fault) : Finite (fail e : Run α) := fun _ => nofun

theorem finite_read (f : Store → α) : Finite (read f) := fun _ => nofun

theorem finite_modify (f : Store → Store) : Finite (modify f) := fun _ => nofun

theorem finite_ofExcept (x : Except Fault α) : Finite (ofExcept x) := by
  intro s
  cases x <;> nofun

theorem finite_readExcept (f : Store → Except Fault α) : Finite (readExcept f) := by
  intro s
  unfold readExcept
  cases f s <;> nofun

theorem finite_bind (hr : r.Finite) (hf : ∀ a, (f a).Finite) : (r >>= f).Finite := by
  intro s
  rw [bind_apply]
  cases hs : r s with
  | done a s' => exact hf a s'
  | failed e s' => nofun
  | outOfFuel => exact absurd hs (hr s)

end Run

open Run

/-! ## Operations on values -/

namespace Store

theorem freshIdentity_finite : freshIdentity.Finite := fun _ => nofun

theorem newList_finite (items : Array Value) : (newList items).Finite := fun _ => nofun

theorem newDictionary_finite (d : Dictionary) : (newDictionary d).Finite := fun _ => nofun

theorem write_finite (text : String) : (write text).Finite := by
  intro s
  unfold write
  split <;> nofun

end Store

namespace Value

open Store

theorem repeatList_finite (id : ListId) (n : Int64) : (repeatList id n).Finite := by
  refine finite_bind (finite_ofExcept _) fun count => ?_
  refine finite_bind (finite_read _) fun items => ?_
  exact finite_bind (finite_ofExcept _) fun _ => newList_finite _

theorem arithmetic_finite (op : Operator) (v w : Value) : (arithmetic op v w).Finite := by
  unfold arithmetic
  split
  · exact finite_ofExcept _
  · exact finite_ofExcept _
  · exact finite_ofExcept _
  · exact finite_ofExcept _
  · split
    · exact finite_ofExcept _
    · refine finite_bind (finite_read _) fun xs => ?_
      refine finite_bind (finite_read _) fun ys => ?_
      exact finite_bind (finite_ofExcept _) fun _ => newList_finite _
    · exact finite_ofExcept _
    · exact finite_ofExcept _
    · exact repeatList_finite _ _
    · exact repeatList_finite _ _
    · exact finite_fail _

theorem setIndex_finite (v k new : Value) : (setIndex v k new).Finite := by
  unfold setIndex
  split
  · exact finite_bind (finite_read _) fun _ => finite_fail _
  · split
    · exact finite_bind (finite_readExcept _) fun _ => finite_modify _
    · exact finite_bind (finite_ofExcept _) fun _ => finite_modify _
    · exact finite_fail _

end Value

theorem Expr.evalMember_finite (v : Value) (member : String) : (evalMember v member).Finite := by
  unfold evalMember
  split
  · split
    · exact finite_bind Store.freshIdentity_finite fun _ => finite_pure _
    · exact finite_fail _
  · exact finite_fail _

/-! ## Built-in functions -/

namespace Action

open Store

theorem printValues_finite (args : List Value) (keywords : List (String × Value)) :
    (printValues args keywords).Finite := by
  refine finite_bind (finite_ofExcept _) fun sep => ?_
  refine finite_bind (finite_ofExcept _) fun ending => ?_
  refine finite_bind (finite_ofExcept _) fun _ => ?_
  refine finite_bind (finite_read _) fun texts => ?_
  refine finite_bind (write_finite _) fun _ => ?_
  exact finite_bind (write_finite _) fun _ => finite_pure _

theorem lengthOf_finite (args : List Value) (keywords : List (String × Value)) :
    (lengthOf args keywords).Finite := by
  refine finite_bind (finite_ofExcept _) fun _ => ?_
  exact finite_bind (finite_ofExcept _) fun _ => finite_readExcept _

theorem rangeOf_finite (args : List Value) (keywords : List (String × Value)) :
    (rangeOf args keywords).Finite := by
  have hrest : ∀ start stop : Int, Finite (do
      Run.ofExcept (Value.checkLength (stop - start).toNat)
      newList (integersBetween start stop).toArray) :=
    fun start stop => finite_bind (finite_ofExcept _) fun _ => newList_finite _
  refine finite_bind (finite_ofExcept _) fun _ => ?_
  refine finite_bind (finite_ofExcept _) fun bounds => ?_
  dsimp only
  split
  · exact hrest _ _
  · exact hrest _ _
  · exact finite_bind (finite_fail _) fun _ => hrest _ _

theorem pushTo_finite (list : ListId) (args : List Value) : (pushTo list args).Finite := by
  refine finite_bind (finite_ofExcept _) fun v => ?_
  split
  · exact finite_fail _
  · exact finite_bind (finite_modify _) fun _ => finite_pure _

theorem popFrom_finite (list : ListId) (args : List Value) : (popFrom list args).Finite := by
  unfold popFrom
  split
  · refine finite_bind (finite_read _) fun last => ?_
    split
    · exact finite_fail _
    · exact finite_bind (finite_modify _) fun _ => finite_pure _
  · exact finite_fail _

theorem call_finite (action : Action) (args : List Value) (keywords : List (String × Value)) :
    (action.call args keywords).Finite := by
  cases action with
  | print => exact printValues_finite args keywords
  | len => exact lengthOf_finite args keywords
  | range => exact rangeOf_finite args keywords
  | push list => exact pushTo_finite list args
  | pop list => exact popFrom_finite list args

end Action

/-! ## Names and scopes -/

namespace Scope

theorem assign_finite (scope : Scope) (n : String) (v : Value) : (scope.assign n v).Finite := by
  intro s
  unfold assign
  split
  · nofun
  · split
    · nofun
    · split <;> nofun

theorem declare_finite (scope : Scope) (n : String) (role : Role) :
    (scope.declare n role).Finite := by
  refine finite_bind (finite_read _) fun declared => ?_
  split
  · exact finite_fail _
  · exact finite_modify _

theorem define_finite (scope : Scope) (n : String) (role : Role) (v : Value) :
    (scope.define n role v).Finite :=
  finite_bind (declare_finite scope n role) fun _ => assign_finite scope n v

theorem child_finite (scope : Scope) : scope.child.Finite := fun _ => nofun

theorem snapshot_finite (scope : Scope) : scope.snapshot.Finite := fun _ => nofun

end Scope

namespace Stmt

theorem makeMethods_finite (definitions : List FunctionDef) (closure : Scope) :
    Finite (definitions.mapM fun definition => do
      return (⟨← Store.freshIdentity, definition, closure⟩ : Function)) := by
  induction definitions with
  | nil => exact finite_pure _
  | cons definition rest ih =>
    rw [List.mapM_cons]
    refine finite_bind ?_ fun f => finite_bind ih fun methods => finite_pure _
    exact finite_bind Store.freshIdentity_finite fun identity => finite_pure _

theorem defineClass_finite (scope : Scope) (n : String) (methods : List FunctionDef) :
    (defineClass scope n methods).Finite := by
  refine finite_bind (Scope.snapshot_finite scope) fun closure => ?_
  refine finite_bind (makeMethods_finite _ _) fun methods => ?_
  refine finite_bind Store.freshIdentity_finite fun identity => ?_
  exact finite_bind (Scope.define_finite _ _ _ _) fun _ => Scope.define_finite _ _ _ _

theorem bindLoopVariable_finite (scope : Scope) (binder : LoopVariable) (item : Value) :
    (bindLoopVariable scope binder item).Finite := by
  cases binder with
  | name n => exact Scope.assign_finite scope n item
  | declared n isMutable => exact Scope.define_finite scope n _ item

end Stmt

end Offside
