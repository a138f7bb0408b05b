import Offside.Proofs.Scoping.Names
import Offside.Proofs.Store.Edits

/-!
# Definitions close over what they see

A function or a class is known under its name in two frames, that of its scope and that of its
closure. The store is consistent again only when both have the name.
-/

namespace Offside

open Store Run

variable {s : Store} {scope closure : Scope} {view : View} {n : String} {role : Role} {v : Value}

/-! ## Closures -/

namespace Scope

/-- What a closure is when it has been made as a snapshot of a scope. -/
structure Mirrors (closure scope : Scope) (s s' : Store) : Prop where
  hasScope : s'.HasScope closure
  isNew : ¬ s.HasFrame closure.innermost
  names : s'.names closure.innermost = s.names scope.innermost
  declares : ∀ n, s.Declares scope.chain n → s'.Declares closure.chain n

theorem snapshot_safe (scope : Scope) :
    scope.snapshot.Safe [] s fun closure s' => Mirrors closure scope s s' := by
  intro hs
  unfold Meets
  rw [snapshot_eq]
  have hgrows : Grows [] s (s.withFrames (scope.chain.map s.frame)) :=
    .of_keeps (.withFrames ..)
  have hnames : ∀ i, (hi : i < scope.chain.length) →
      (s.withFrames (scope.chain.map s.frame)).names ⟨s.frames.size + i⟩ =
        s.names scope.chain[i] := by
    intro i hi
    unfold Store.names
    rw [frame_snapshot hi]
  refine ⟨?_, hgrows, ⟨?_, Nat.lt_irrefl _, ?_, ?_⟩⟩
  · apply (hs.mono fun w hw => hgrows.admits hw).withFrames
    intro frame hframe e he w hw
    obtain ⟨id, -, rfl⟩ := List.mem_map.mp hframe
    exact hgrows.admits (hs.frames id e he w hw)
  · exact fun id hid => hasFrame_copyAt hid
  · exact hnames 0 (Nat.zero_lt_succ _)
  · rintro n ⟨id, hid, hn⟩
    obtain ⟨i, hi, rfl⟩ := List.mem_iff_getElem.mp hid
    refine ⟨⟨s.frames.size + i⟩, mem_copyAt.mpr ⟨i, hi, rfl⟩, ?_⟩
    rw [hnames i hi]
    exact hn

/-- Defines a name in a scope and in a closure, when the value may be kept once both have it. -/
theorem define_both_safe (hscope : s.HasScope scope) (hclosure : s.HasScope closure)
    (hne : closure.innermost ≠ scope.innermost) (hn : n ∉ s.names scope.innermost)
    (hn' : n ∉ s.names closure.innermost)
    (hv : ∀ s', Grows [scope.innermost, closure.innermost] s s' →
      n ∈ s'.names closure.innermost → s'.Admits v) :
    (do scope.define n role v; closure.define n role v : Run Unit).Safe
      [scope.innermost, closure.innermost] s
      fun _ s' => s'.names scope.innermost = n :: s.names scope.innermost := by
  intro hs
  have hframe := hscope scope.innermost List.mem_cons_self
  apply meets_bind
  refine (define_meets hframe).mono ?_ ?_
  · rintro _ s₁ ⟨-, -, hs₁⟩
    have hgrows₁ : Grows [scope.innermost] s s₁ := hs₁ ▸ cons_grows _
    have hframe' := hgrows₁.hasScope hclosure closure.innermost List.mem_cons_self
    have hnames' : s₁.names closure.innermost = s.names closure.innermost :=
      hgrows₁.names_eq (hclosure _ List.mem_cons_self) (by simpa using hne)
    refine (define_meets hframe').mono ?_ ?_
    · rintro _ s₂ ⟨-, -, hs₂⟩
      have hgrows₂ : Grows [closure.innermost] s₁ s₂ := hs₂ ▸ cons_grows _
      have hgrows : Grows [scope.innermost, closure.innermost] s s₂ :=
        (hgrows₁.mono (by simp)).trans (hgrows₂.mono (by simp))
      have hadmits : ∀ w ∈ (⟨role, some v⟩ : Binding).value, s₂.Admits w := by
        intro w hw
        cases hw
        apply hv s₂ hgrows
        rw [hs₂, names_cons hframe']
        exact List.mem_cons_self
      have hholds : s₁.Holds s₂.Admits :=
        hs₁ ▸ Holds.cons (hs.mono fun w hw => hgrows.admits hw) hadmits
      refine ⟨hs₂ ▸ Holds.cons (hs₂ ▸ hholds) (hs₂ ▸ hadmits), hgrows, ?_⟩
      show s₂.names scope.innermost = _
      rw [hgrows₂.names_eq (hgrows₁.toKeeps.hasFrame hframe) (by simpa using Ne.symm hne), hs₁,
        names_cons hframe]
    · rintro e _ (⟨hn'', -⟩ | ⟨-, he, -⟩)
      · rw [hnames'] at hn''
        exact absurd hn'' hn'
      · exact ofNames_of_isAssignmentFault he
  · rintro e _ (⟨hn'', -⟩ | ⟨-, he, -⟩)
    · exact absurd hn'' hn
    · exact ofNames_of_isAssignmentFault he

end Scope

/-! ## Functions and classes -/

/-- The function may be kept once its closure knows it by its name too. -/
theorem binds_of_mirrors {s' s'' : Store} {f : Function} {ids : List FrameId}
    (hscope : s.Agrees scope view) (hmirrors : f.closure.Mirrors scope s s')
    (hf : f.definition.wellScoped (n :: view.names) = true) (hgrows : Grows ids s' s'')
    (hn : n ∈ s''.names f.closure.innermost) : s''.Binds f := by
  refine ⟨hgrows.hasScope hmirrors.hasScope, n :: view.names, hf, ?_⟩
  intro n' hn'
  rcases List.mem_cons.mp hn' with rfl | hn'
  · exact ⟨_, List.mem_cons_self, hn⟩
  · exact hgrows.declares hmirrors.hasScope (hmirrors.declares n' (hscope.declares n' hn'))

/-- The value is made between the snapshot and the definition in both scopes. -/
theorem defineOver_safe (role : Role) (make : Scope → Run Value)
    (hscope : s.Agrees scope view) (hn : n ∉ view.block)
    (hmake : ∀ closure P, Contained P (make closure) fun v => ∀ f ∈ v.functions,
      f.closure = closure ∧ f.definition.wellScoped (n :: view.names) = true) :
    (Stmt.defineOver scope n role make).Safe [scope.innermost] s
        fun _ s' => s'.names scope.innermost = n :: s.names scope.innermost := by
  have hframe := hscope.hasScope scope.innermost List.mem_cons_self
  have hfree : n ∉ s.names scope.innermost := fun h => hn (hscope.block n h)
  have hsnapshot := (Scope.snapshot_safe (s := s) scope).imp
    (T := fun closure s' => closure.Mirrors scope s s' ∧ Grows [] s s')
    fun closure s' _ hgrows h => ⟨h, hgrows⟩
  refine safe_bind_new (fun closure => [scope.innermost, closure.innermost]) hsnapshot.weaken
    ?_ ?_
  · rintro closure s₁ ⟨hmirrors, -⟩ id hid hid'
    rcases List.mem_cons.mp hid with rfl | hid
    · exact List.mem_singleton_self _
    · rw [List.mem_singleton.mp hid] at hid'
      exact absurd hid' hmirrors.isNew
  rintro closure s₁ - ⟨hmirrors, hgrows₁⟩
  have hmade := (hmake closure s₁.Admits).safe.imp
    (T := fun v s' => (∀ f ∈ v.functions,
      f.closure = closure ∧ f.definition.wellScoped (n :: view.names) = true) ∧ Grows [] s₁ s')
    fun v s' _ hgrows h => ⟨h, hgrows⟩
  refine safe_bind hmade.weaken ?_
  rintro v s₂ - ⟨hv, hgrows₂⟩
  have hnames : s₂.names scope.innermost = s.names scope.innermost :=
    (hgrows₁.trans hgrows₂).names_eq hframe List.not_mem_nil
  have hnames' : s₂.names closure.innermost = s.names scope.innermost := by
    rw [hgrows₂.names_eq (hmirrors.hasScope _ List.mem_cons_self) List.not_mem_nil,
      hmirrors.names]
  rw [← hnames]
  apply Scope.define_both_safe
  · exact (hgrows₁.trans hgrows₂).hasScope hscope.hasScope
  · exact hgrows₂.hasScope hmirrors.hasScope
  · intro heq
    exact hmirrors.isNew (heq ▸ hframe)
  · rwa [hnames]
  · rwa [hnames']
  · intro s₃ hgrows₃ hn' f hmem
    obtain ⟨rfl, hf⟩ := hv f hmem
    exact binds_of_mirrors hscope hmirrors hf (hgrows₂.weaken.trans hgrows₃) hn'

namespace Stmt

theorem defineFunction_safe {definition : FunctionDef} (hscope : s.Agrees scope view)
    (hn : definition.name ∉ view.block)
    (hf : definition.wellScoped (definition.name :: view.names) = true) :
    (defineFunction scope definition).Safe [scope.innermost] s
      fun _ s' => s'.names scope.innermost = definition.name :: s.names scope.innermost := by
  rw [defineFunction_eq]
  refine defineOver_safe .function _ hscope hn fun closure P => ?_
  refine makeFunction_contained fun identity f hmem => ?_
  rw [List.mem_singleton.mp hmem]
  exact ⟨rfl, hf⟩

theorem defineClass_safe {methods : List FunctionDef} (hscope : s.Agrees scope view)
    (hn : n ∉ view.block) (hmethods : FunctionDef.wellScopedAll (n :: view.names) methods = true) :
    (defineClass scope n methods).Safe [scope.innermost] s
      fun _ s' => s'.names scope.innermost = n :: s.names scope.innermost := by
  have hall : ∀ f ∈ methods, f.wellScoped (n :: view.names) = true := by
    clear hn
    induction methods with
    | nil => exact fun f hf => nomatch hf
    | cons first rest ih =>
      unfold FunctionDef.wellScopedAll at hmethods
      rw [Bool.and_eq_true] at hmethods
      exact List.forall_mem_cons.mpr ⟨hmethods.1, ih hmethods.2⟩
  rw [defineClass_eq]
  refine defineOver_safe .classDefinition _ hscope hn fun closure P => ?_
  exact makeClass_contained fun c hc f hf => ⟨(hc f hf).1, hall _ (hc f hf).2⟩

/-! ## Loop variables -/

theorem bindLoopVariable_safe {inner : Scope} {binder : LoopVariable} {item : Value}
    (hinner : s.Agrees inner (view.enter [])) (hbinder : ∀ n ∈ binder.assigns, n ∈ view.names)
    (hitem : s.Admits item) :
    (bindLoopVariable inner binder item).Safe [inner.innermost] s
      fun _ s' => s'.Agrees inner (view.enter binder.declares) := by
  cases binder with
  | name n =>
    have hn : n ∈ (view.enter []).names := hbinder n List.mem_cons_self
    have hassign := Scope.assign_safe (hinner.declares n hn) hitem
    refine (hassign.imp (T := fun _ s' => Grows [] s s') fun _ _ _ h _ => h).weaken.imp ?_
    intro _ s' _ _ hgrows
    exact hgrows.agrees hinner
  | declared n isMutable =>
    refine (Scope.define_safe hinner.hasScope (fun hn => nomatch hinner.block n hn) hitem).imp ?_
    intro _ s' _ hgrows hnames
    have hblock : s'.names inner.innermost = [n] ++ s.names inner.innermost := hnames
    exact hinner.declare hgrows hblock

end Stmt

end Offside
