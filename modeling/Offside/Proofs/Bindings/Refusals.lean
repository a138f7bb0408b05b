import Offside.Proofs.Store.Frames

/-!
# Refused requests

A scope refuses to declare a name twice, and to assign where no name is declared, void, or to an
immutable variable that has a value. What is refused leaves every scope as it was, however many
frames the request walked through before. The exception is void as the value of a new name: the
definition is refused, but only after its first half, and the name stays declared without a value.
-/

namespace Offside.Scope

open Store Run

variable {s s' : Store} {scope : Scope} {n : String} {v : Value} {role : Role} {e : Fault}

/-! ## Each kind of request -/

theorem declare_eq_failed (h : scope.declare n role s = .failed e s') : s' = s :=
  (declare_meets.of_failed h).2.2

theorem declare_eq_done (h : scope.declare n role s = .done () s') :
    n ∉ s.names scope.innermost ∧
      s' = s.modifyFrame scope.innermost fun frame => (n, ⟨role, none⟩) :: frame :=
  declare_meets.of_done h

theorem assign_eq_failed (h : scope.assign n v s = .failed e s') : s' = s :=
  (assign_meets.of_failed h).1

theorem declare_new (hn : n ∉ s.names scope.innermost) :
    scope.declare n role s =
      .done () (s.modifyFrame scope.innermost fun frame => (n, ⟨role, none⟩) :: frame) := by
  have hlocal : ¬ scope.declaresLocally n s = true := fun h => hn (declaresLocally_iff.mp h)
  unfold declare
  show (if scope.declaresLocally n s then Run.fail (.redeclaration n) else _) s = _
  rw [if_neg hlocal]
  rfl

/-- A name that has just been declared takes any value but void. -/
theorem assign_cons (hframe : s.HasFrame scope.innermost) :
    scope.assign n v (s.modifyFrame scope.innermost fun frame => (n, ⟨role, none⟩) :: frame) =
      if v.isVoid then
        .failed (.voidAssignment n)
          (s.modifyFrame scope.innermost fun frame => (n, ⟨role, none⟩) :: frame)
      else
        .done () ((s.modifyFrame scope.innermost fun frame =>
          (n, ⟨role, none⟩) :: frame).modifyFrame scope.innermost fun frame =>
            frame.set n ⟨role, some v⟩) := by
  unfold assign
  rw [owner?_cons hframe]
  dsimp only
  rw [binding?_cons hframe]
  unfold checkAssign
  cases v.isVoid <;> simp

/-- The first value of a name takes the place of the declaration. -/
theorem assign_cons_done (hframe : s.HasFrame scope.innermost) (hn : n ∉ s.names scope.innermost)
    (hv : v.isVoid = false) :
    scope.assign n v (s.modifyFrame scope.innermost fun frame => (n, ⟨role, none⟩) :: frame) =
      .done () (s.modifyFrame scope.innermost fun frame => (n, ⟨role, some v⟩) :: frame) := by
  rw [assign_cons hframe, hv, if_neg Bool.false_ne_true, modifyFrame_modifyFrame]
  congr 1
  exact modifyFrame_congr (Frame.set_cons_self hn)

theorem lookup_cons (hframe : s.HasFrame scope.innermost) (b : Binding) :
    scope.lookup n (s.modifyFrame scope.innermost fun frame => (n, b) :: frame) = .ok b := by
  unfold lookup
  rw [owner?_cons hframe, Option.bind_some, binding?_cons hframe]

theorem get_cons (hframe : s.HasFrame scope.innermost) :
    scope.get n (s.modifyFrame scope.innermost fun frame => (n, ⟨role, some v⟩) :: frame) =
      .ok v := by
  unfold get
  rw [lookup_cons hframe]
  rfl

/-- A definition that is refused changes nothing, or what its declaration changes. -/
theorem define_eq_failed (h : scope.define n role v s = .failed e s') :
    s' = s ∨ v.isVoid = true ∧ e = .voidAssignment n ∧ scope.declare n role s = .done () s' := by
  unfold define at h
  rw [bind_apply] at h
  cases hdeclare : scope.declare n role s with
  | outOfFuel =>
    rw [hdeclare] at h
    cases h
  | failed e' t =>
    rw [hdeclare] at h
    cases h
    exact .inl (declare_eq_failed hdeclare)
  | done u t =>
    rw [hdeclare] at h
    replace h : scope.assign n v t = .failed e s' := h
    obtain rfl := assign_eq_failed h
    obtain ⟨-, rfl⟩ := declare_eq_done hdeclare
    by_cases hframe : s.HasFrame scope.innermost
    · rw [assign_cons hframe] at h
      split at h
      · cases h
        exact .inr ⟨‹_›, rfl, rfl⟩
      · cases h
    · exact .inl (modifyFrame_of_not_hasFrame hframe _)

/-! ## Whatever is refused -/

/-- A request that is refused leaves the whole store as it was. Only a definition of a new name with
void does not: it is always refused, and always leaves the name declared. -/
theorem refused_unchanged (scope : Scope) (n : String) (role : Role) (v : Value) (s : Store) :
    (∀ e s', scope.declare n role s = .failed e s' → s' = s) ∧
    (∀ e s', scope.assign n v s = .failed e s' → s' = s) ∧
    (∀ e s', scope.define n role v s = .failed e s' →
      s' = s ∨ v.isVoid = true ∧ scope.declaresLocally n s = false ∧ e = .voidAssignment n ∧
        scope.declare n role s = .done () s') ∧
    (s.HasFrame scope.innermost → scope.declaresLocally n s = false →
      ∃ s', s' ≠ s ∧ scope.declare n role s = .done () s' ∧
        scope.define n role .void s = .failed (.voidAssignment n) s') := by
  refine ⟨fun _ _ => declare_eq_failed, fun _ _ => assign_eq_failed, fun e s' h => ?_,
    fun hframe hlocal => ?_⟩
  · refine (define_eq_failed h).imp_right fun ⟨hvoid, he, hdeclare⟩ => ⟨hvoid, ?_, he, hdeclare⟩
    rw [Bool.eq_false_iff]
    exact fun hlocal => (declare_eq_done hdeclare).1 (declaresLocally_iff.mp hlocal)
  · have hn : n ∉ s.names scope.innermost := by
      rw [← declaresLocally_iff, hlocal]
      exact Bool.false_ne_true
    refine ⟨_, fun heq => ?_, declare_new hn, ?_⟩
    · have hb : (s.frame scope.innermost).binding? n = some ⟨role, none⟩ := by
        rw [← heq]
        exact binding?_cons hframe _
      exact hn (Frame.isSome_binding?.mp (Option.isSome_of_eq_some hb))
    · unfold define
      rw [bind_apply, declare_new hn]
      exact (assign_cons hframe).trans (if_pos rfl)

/-- A name in a global scope, and a scope inside it that declares nothing. -/
def enclosingStore : Store where
  frames := #[[("x", ⟨.variable, some (.integer 1)⟩)], []]
  lists := #[]
  dictionaries := #[]
  identities := 0
  output := ⟨"", none⟩

/-- After the refusal the inner scope does not see the value of the outer one any more. -/
theorem define_void_declares :
    ∃ s', Scope.define ⟨⟨1⟩, [⟨0⟩]⟩ "x" .variable .void enclosingStore =
        .failed (.voidAssignment "x") s' ∧
      Scope.get ⟨⟨1⟩, [⟨0⟩]⟩ "x" enclosingStore = .ok (.integer 1) ∧
      Scope.get ⟨⟨1⟩, [⟨0⟩]⟩ "x" s' = .error (.uninitializedVariable "x") ∧
      s' ≠ enclosingStore := by
  refine ⟨_, rfl, rfl, rfl, fun heq => ?_⟩
  have hframe := congrArg (fun s => (s.frame ⟨1⟩).length) heq
  cases hframe

end Offside.Scope
