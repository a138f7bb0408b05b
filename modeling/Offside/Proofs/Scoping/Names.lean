import Offside.Proofs.Scoping.Agreement

/-!
# Scopes and definitions do not fail on names

Reading, assigning, declaring, opening scopes and closing over them, where the names are as the
view says.
-/

namespace Offside

open Store Run

variable {s : Store} {scope : Scope} {view : View} {n : String} {role : Role} {v : Value}

/-! ## Reading and assigning -/

namespace Scope

theorem lookup_safe (hn : s.Declares scope.chain n) :
    (readExcept (scope.lookup n)).Safe [] s fun _ _ => True := by
  intro hs
  obtain ⟨id, b, howner, hb⟩ := exists_owner hn
  have hlookup : scope.lookup n s = .ok b := by
    unfold lookup
    rw [howner, Option.bind_some, hb]
  apply meets_readExcept
  · intro b' _
    exact ⟨hs, .refl, trivial⟩
  · intro e he
    rw [hlookup] at he
    cases he

theorem get_safe (hn : s.Declares scope.chain n) :
    (readExcept (scope.get n)).Safe [] s fun v s' => s'.Admits v := by
  intro hs
  obtain ⟨id, b, howner, hb⟩ := exists_owner hn
  have hvalue := hs.frames id (n, b) (Frame.mem_of_binding? hb)
  obtain ⟨role, value⟩ := b
  unfold Meets readExcept get lookup
  rw [howner, Option.bind_some, hb]
  cases value with
  | none => exact rfl
  | some v => exact ⟨hs, .refl, hvalue v rfl⟩

theorem ofNames_of_isAssignmentFault {e : Fault} (h : IsAssignmentFault n e) :
    e.ofNames = false := by
  rcases h with rfl | rfl <;> rfl

theorem assign_safe (hn : s.Declares scope.chain n) (hv : s.Admits v) :
    (scope.assign n v).Safe [] s fun _ _ => True := by
  intro hs
  refine assign_meets.mono ?_ ?_
  · rintro _ _ ⟨id, b, -, hb, -, rfl⟩
    have hgrows : Grows [] s (s.modifyFrame id fun frame =>
        frame.set n { b with value := some v }) := .of_keeps (.modifyFrame_same Frame.names_set)
    refine ⟨?_, hgrows, trivial⟩
    apply (hs.mono fun w hw => hgrows.admits hw).modifyFrame
    intro e he w hw
    rcases Frame.mem_set he with rfl | he
    · cases hw
      exact hgrows.admits hv
    · exact hgrows.admits (hs.frames id e he w hw)
  · rintro e _ ⟨-, ⟨hdeclares, -⟩ | he⟩
    · exact absurd hn hdeclares
    · exact ofNames_of_isAssignmentFault he

/-! ## Declaring -/

/-- The store in which a frame has got a name in front of the others. -/
theorem cons_grows {id : FrameId} (b : Binding) :
    Grows [id] s (s.modifyFrame id fun frame => (n, b) :: frame) :=
  .modifyFrame (List.subset_cons_self ..)

theorem names_cons {id : FrameId} (h : s.HasFrame id) (b : Binding) :
    (s.modifyFrame id fun frame => (n, b) :: frame).names id = n :: s.names id := by
  unfold names
  rw [frame_modifyFrame_self h]
  rfl

theorem consistent_cons {id : FrameId} {b : Binding} (hs : s.Consistent)
    (hb : ∀ v ∈ b.value, (s.modifyFrame id fun frame => (n, b) :: frame).Admits v) :
    (s.modifyFrame id fun frame => (n, b) :: frame).Consistent := by
  have hgrows : Grows [id] s (s.modifyFrame id fun frame => (n, b) :: frame) := cons_grows b
  exact Holds.cons (hs.mono fun w hw => hgrows.admits hw) hb

theorem declare_safe (hscope : s.HasScope scope) (hn : n ∉ s.names scope.innermost) :
    (scope.declare n role).Safe [scope.innermost] s
      fun _ s' => s'.names scope.innermost = n :: s.names scope.innermost := by
  intro hs
  refine declare_meets.mono ?_ fun e s' h => absurd h.1 hn
  rintro _ _ ⟨-, rfl⟩
  refine ⟨consistent_cons hs (fun _ hv => nomatch hv), cons_grows _, ?_⟩
  exact names_cons (hscope _ List.mem_cons_self) _

theorem define_safe (hscope : s.HasScope scope) (hn : n ∉ s.names scope.innermost)
    (hv : s.Admits v) :
    (scope.define n role v).Safe [scope.innermost] s
      fun _ s' => s'.names scope.innermost = n :: s.names scope.innermost := by
  intro hs
  have hframe := hscope scope.innermost List.mem_cons_self
  refine (define_meets hframe).mono ?_ ?_
  · rintro _ _ ⟨-, -, rfl⟩
    have hgrows : Grows [scope.innermost] s (s.modifyFrame scope.innermost fun frame =>
        (n, ⟨role, some v⟩) :: frame) := cons_grows _
    refine ⟨consistent_cons hs ?_, hgrows, names_cons hframe _⟩
    intro w hw
    cases hw
    exact hgrows.admits hv
  · rintro e s' (⟨hn', -⟩ | ⟨-, he, -⟩)
    · exact absurd hn' hn
    · exact ofNames_of_isAssignmentFault he

/-! ## New scopes -/

/-- A scope inside one that declares these names. -/
theorem child_safe {outer : List String} (hscope : s.HasScope scope)
    (hnames : ∀ n ∈ outer, s.Declares scope.chain n) :
    scope.child.Safe [] s fun inner s' =>
      s'.Agrees inner ⟨outer, []⟩ ∧ ¬ s.HasFrame inner.innermost := by
  intro hs
  unfold Meets
  rw [child_eq]
  have hgrows : Grows [] s (s.withFrames [[]]) := .of_keeps (.withFrames ..)
  have hnew : (s.withFrames [[]]).frame ⟨s.frames.size⟩ = [] := frame_withFrames_new s [[]] 0
  refine ⟨?_, hgrows, ⟨?_, ?_, ?_⟩, Nat.lt_irrefl _⟩
  · apply (hs.mono fun w hw => hgrows.admits hw).withFrames
    simp
  · intro id hid
    rcases List.mem_cons.mp hid with rfl | hid
    · exact s.hasFrame_opened
    · exact hgrows.toKeeps.hasFrame (hscope id hid)
  · intro n hn
    obtain ⟨id, hid, hn⟩ := hgrows.declares hscope (hnames n hn)
    exact ⟨id, List.mem_cons_of_mem _ hid, hn⟩
  · unfold names
    rw [hnew]
    exact fun _ h => nomatch h

end Scope

/-! ## Arguments -/

namespace Function

theorem bindPositional_safe {parameters : List String} {args : List Value}
    (hnodup : parameters.Nodup) (hscope : s.HasScope scope)
    (hfree : ∀ n ∈ parameters, n ∉ s.names scope.innermost) (hargs : ∀ v ∈ args, s.Admits v) :
    (bindPositional scope parameters args).Safe [scope.innermost] s fun _ s' =>
      ∀ n ∈ s'.names scope.innermost, n ∈ parameters ∨ n ∈ s.names scope.innermost := by
  induction parameters generalizing args s with
  | nil => exact safe_pure fun n hn => .inr hn
  | cons parameter parameters ih =>
    cases args with
    | nil => exact safe_pure fun n hn => .inr hn
    | cons v args =>
      rw [List.nodup_cons] at hnodup
      rw [List.forall_mem_cons] at hfree hargs
      refine safe_bind (Scope.define_safe hscope hfree.1 hargs.1) ?_
      intro _ s' hgrows hnames
      refine (ih hnodup.2 (hgrows.hasScope hscope) ?_ ?_).imp ?_
      · intro n hn
        rw [hnames, List.mem_cons]
        rintro (rfl | hn')
        · exact hnodup.1 hn
        · exact hfree.2 n hn hn'
      · exact fun w hw => hgrows.admits (hargs.2 w hw)
      · intro _ s'' _ _ h n hn
        rw [hnames] at h
        rcases h n hn with hn | hn
        · exact .inl (List.mem_cons_of_mem _ hn)
        · rcases List.mem_cons.mp hn with rfl | hn
          · exact .inl List.mem_cons_self
          · exact .inr hn

theorem bindKeywords_safe {f : Function} {keywords : List (String × Value)}
    (hscope : s.HasScope scope) (hkeywords : ∀ e ∈ keywords, s.Admits e.2) :
    (f.bindKeywords scope keywords).Safe [scope.innermost] s fun _ s' =>
      ∀ n ∈ s'.names scope.innermost,
        n ∈ f.definition.parameters ∨ n ∈ s.names scope.innermost := by
  induction keywords generalizing s with
  | nil => exact safe_pure fun n hn => .inr hn
  | cons e rest ih =>
    rw [List.forall_mem_cons] at hkeywords
    unfold bindKeywords
    split
    · exact safe_fail rfl
    · rename_i hknown
      have hmem : e.1 ∈ f.definition.parameters := by simpa using hknown
      refine safe_bind (Q := fun b s' => s' = s ∧ b = scope.declaresLocally e.1 s)
        (fun hs => ⟨hs, .refl, rfl, rfl⟩) ?_
      rintro b _ - ⟨rfl, rfl⟩
      split
      · exact safe_fail rfl
      · rename_i hfree
        refine safe_bind (Scope.define_safe hscope ?_ hkeywords.1) ?_
        · exact fun hn => hfree (Scope.declaresLocally_iff.mpr hn)
        intro _ s' hgrows hnames
        refine (ih (hgrows.hasScope hscope) fun e he => hgrows.admits (hkeywords.2 e he)).imp ?_
        intro _ s'' _ _ h n hn
        rw [hnames] at h
        rcases h n hn with hn | hn
        · exact .inl hn
        · rcases List.mem_cons.mp hn with rfl | hn
          · exact .inl hmem
          · exact .inr hn

/-- The body of a function sees what the scope of a call declares. -/
theorem bindArguments_safe {f : Function} {args : List Value} {keywords : List (String × Value)}
    (hf : s.Binds f) (hargs : ∀ v ∈ args, s.Admits v) (hkeywords : ∀ e ∈ keywords, s.Admits e.2) :
    (f.bindArguments args keywords).Safe [] s fun inner s' =>
      ∃ outer, Stmt.wellScopedAll ⟨outer, f.definition.parameters⟩ f.definition.body = true ∧
        s'.Agrees inner ⟨outer, f.definition.parameters⟩ ∧ ¬ s.HasFrame inner.innermost := by
  obtain ⟨outer, houter, hdeclares⟩ := hf.declares
  obtain ⟨hnodup, hbody⟩ : f.definition.parameters.Nodup ∧
      Stmt.wellScopedAll ⟨outer, f.definition.parameters⟩ f.definition.body = true := by
    cases hd : f.definition
    rw [hd] at houter
    simpa [FunctionDef.wellScoped] using houter
  unfold bindArguments
  dsimp only
  split
  · exact safe_fail rfl
  refine safe_bind_scope (Scope.child_safe hf.hasClosure hdeclares) (fun _ _ h => h.2) ?_
  rintro inner s₁ hgrows₁ ⟨hagrees, hnew⟩
  refine safe_bind (bindPositional_safe hnodup hagrees.hasScope
    (fun n _ hn => nomatch hagrees.block n hn) fun v hv => hgrows₁.admits (hargs v hv)) ?_
  intro _ s₂ hgrows₂ hnames₂
  refine safe_bind (bindKeywords_safe (hgrows₂.hasScope hagrees.hasScope) fun e he =>
    hgrows₂.admits (hgrows₁.admits (hkeywords e he))) ?_
  intro _ s₃ hgrows₃ hnames₃
  refine safe_bind (Q := fun b s' => s' = s₃ ∧
    b = f.definition.parameters.all (inner.declaresLocally · s₃))
    (fun hs => ⟨hs, .refl, rfl, rfl⟩) ?_
  rintro b _ - ⟨rfl, rfl⟩
  split
  · rename_i hall
    rw [List.all_eq_true] at hall
    refine safe_pure ⟨outer, hbody, ⟨?_, ?_, ?_⟩, hnew⟩
    · exact hgrows₃.hasScope (hgrows₂.hasScope hagrees.hasScope)
    · intro n hn
      rcases List.mem_append.mp hn with hn | hn
      · exact ⟨_, List.mem_cons_self, Scope.declaresLocally_iff.mp (hall n hn)⟩
      · apply hgrows₃.declares (hgrows₂.hasScope hagrees.hasScope)
        exact hgrows₂.declares hagrees.hasScope (hagrees.declares n hn)
    · intro n hn
      rcases hnames₃ n hn with hn | hn
      · exact hn
      · rcases hnames₂ n hn with hn | hn
        · exact hn
        · exact nomatch hagrees.block n hn
  · exact safe_fail rfl

end Function

end Offside
