import Offside.Proofs.Store.Keeping
import Offside.Proofs.Store.Operations

/-!
# All that a run does to the frames

Frames are added, names are declared in them, and declared names are assigned to as their roles
allow. Every operation on scopes edits the frames in these ways only, also when it fails, and
writes only to frames that are told from the scope.
-/

namespace Offside

/-- The faults of statements that end in a way that nothing around them takes. -/
def Fault.ofJumps : Fault → Bool
  | .returnOutsideFunction | .breakOutsideLoop | .continueOutsideLoop => true
  | _ => false

theorem Fault.ofJumps_of_ofOperation {e : Fault} (h : e.ofOperation = true) :
    e.ofJumps = false := by
  cases e <;> first | rfl | cases h

namespace Store

/-- The second store comes from the first one by edits. Of the frames that were there only these
are written to, and what is put into frames or containers is as stated. -/
inductive Edits (P : Value → Prop) (ids : List FrameId) (s : Store) : Store → Prop where
  | refl : Edits P ids s s
  | contents {t t' : Store} :
    Edits P ids s t → t'.frames = t.frames → (t.Holds P → t'.Holds P) → Edits P ids s t'
  | open {t : Store} {frames : List Frame} :
    Edits P ids s t → (∀ frame ∈ frames, frame = [] ∨ ∃ id, frame = t.frame id) →
    Edits P ids s (t.withFrames frames)
  | declare {t : Store} {id : FrameId} {n : String} {b : Binding} :
    Edits P ids s t → (s.HasFrame id → id ∈ ids) → n ∉ t.names id → (∀ v ∈ b.value, P v) →
    Edits P ids s (t.modifyFrame id fun frame => (n, b) :: frame)
  | assign {t : Store} {id : FrameId} {n : String} {b : Binding} {v : Value} :
    Edits P ids s t → (s.HasFrame id → id ∈ ids) → (t.frame id).binding? n = some b →
    Scope.checkAssign n b v = .ok () → P v →
    Edits P ids s (t.modifyFrame id fun frame => frame.set n { b with value := some v })

namespace Edits

variable {P P' : Value → Prop} {ids ids' : List FrameId} {s t u : Store}

/-- The frames that were there are still there, and the same unless they are listed. -/
theorem keeps (h : Edits P ids s t) : Keeps id ids s t := by
  induction h with
  | refl => exact .refl
  | contents _ hframes _ ih => exact ih.trans (.of_frames_eq hframes)
  | «open» _ _ ih => exact ih.trans (.withFrames ..)
  | declare _ hid _ _ ih | assign _ hid _ _ _ ih =>
    refine ih.trans_new (.modifyFrame ..) fun id' hmem hold => ?_
    rw [List.mem_singleton.mp hmem] at hold ⊢
    exact hid hold

theorem holds (h : Edits P ids s t) (hs : s.Holds P) : t.Holds P := by
  induction h with
  | refl => exact hs
  | contents _ _ hcontents ih => exact hcontents ih
  | «open» _ hframes ih =>
    refine ih.withFrames fun frame hmem e he => ?_
    rcases hframes frame hmem with rfl | ⟨id, rfl⟩
    · cases he
    · exact ih.frames id e he
  | declare _ _ _ hb ih => exact ih.cons hb
  | @assign t id n b v _ _ _ _ hv ih =>
    refine ih.modifyFrame fun e he w hw => ?_
    rcases Frame.mem_set he with rfl | he
    · cases hw
      exact hv
    · exact ih.frames id e he w hw

/-- Frames that are new after the first edits need not be listed. -/
theorem trans_new (h : Edits P ids s t) (h' : Edits P ids' t u)
    (hids : ∀ id ∈ ids', s.HasFrame id → id ∈ ids) : Edits P ids s u := by
  have hwrite {id : FrameId} (hid : t.HasFrame id → id ∈ ids') (hold : s.HasFrame id) : id ∈ ids :=
    hids id (hid (h.keeps.hasFrame hold)) hold
  induction h' with
  | refl => exact h
  | contents _ hframes hcontents ih => exact ih.contents hframes hcontents
  | «open» _ hframes ih => exact ih.open hframes
  | declare _ hid hn hb ih => exact ih.declare (hwrite hid) hn hb
  | assign _ hid hb hcheck hv ih => exact ih.assign (hwrite hid) hb hcheck hv

theorem mono (h : Edits P ids s t) (hids : ids ⊆ ids') : Edits P ids' s t :=
  trans_new .refl h fun _ hid _ => hids hid

end Edits

end Store

/-! ## Parts of runs -/

/-- The part edits the frames, whether or not it fails, and is no failed jump. -/
def Run.Edits {α : Type} (P : Value → Prop) (ids : List FrameId) (r : Run α) (s : Store)
    (Q : α → Store → Prop) : Prop :=
  r.Meets s (fun a s' => s.Edits P ids s' ∧ Q a s')
    fun e s' => s.Edits P ids s' ∧ e.ofJumps = false

namespace Run

open Store

variable {α β : Type} {P : Value → Prop} {ids ids' : List FrameId} {r : Run α} {s : Store}
  {Q T : α → Store → Prop} {R : β → Store → Prop}

theorem Edits.imp (h : r.Edits P ids s Q) (hQ : ∀ a s', s.Edits P ids s' → Q a s' → T a s') :
    r.Edits P ids s T :=
  Meets.imp h fun a s' h => ⟨h.1, hQ a s' h.1 h.2⟩

theorem Edits.mono (h : r.Edits P ids s Q) (hids : ids ⊆ ids') : r.Edits P ids' s Q :=
  Meets.mono h (fun _ _ h => ⟨h.1.mono hids, h.2⟩) fun _ _ h => ⟨h.1.mono hids, h.2⟩

theorem edits_pure {a : α} (h : Q a s) : Edits P ids (pure a) s Q := meets_pure ⟨.refl, h⟩

theorem edits_fail {e : Fault} (h : e.ofJumps = false) : Edits P ids (fail e : Run α) s Q :=
  ⟨.refl, h⟩

/-- The second part may also write to frames that are new after the first. -/
theorem edits_bind_new {f : α → Run β} (ids' : α → List FrameId) (hr : r.Edits P ids s Q)
    (hids : ∀ a s', Q a s' → ∀ id ∈ ids' a, s.HasFrame id → id ∈ ids)
    (hf : ∀ a s', s.Edits P ids s' → Q a s' → (f a).Edits P (ids' a) s' R) :
    Edits P ids (r >>= f) s R := by
  refine meets_bind (Meets.imp hr ?_)
  rintro a s' ⟨hedits, ha⟩
  refine Meets.mono (hf a s' hedits ha) ?_ ?_
  · rintro b s'' ⟨hedits', hb⟩
    exact ⟨hedits.trans_new hedits' (hids a s' ha), hb⟩
  · rintro e s'' ⟨hedits', he⟩
    exact ⟨hedits.trans_new hedits' (hids a s' ha), he⟩

theorem edits_bind {f : α → Run β} (hr : r.Edits P ids s Q)
    (hf : ∀ a s', s.Edits P ids s' → Q a s' → (f a).Edits P ids s' R) :
    Edits P ids (r >>= f) s R :=
  edits_bind_new (fun _ => ids) hr (fun _ _ _ _ hid _ => hid) hf

theorem edits_read {f : Store → α} (h : Q (f s) s) : Edits P ids (read f) s Q := ⟨.refl, h⟩

theorem Contained.edits {Q : α → Prop} (h : Contained P r Q) (hs : s.Holds P) :
    r.Edits P ids s fun a _ => Q a := by
  refine (h s hs).mono ?_ ?_
  · rintro a s' ⟨hframes, hs', ha⟩
    exact ⟨.contents .refl hframes fun _ => hs', ha⟩
  · rintro e s' ⟨hframes, hs', he⟩
    exact ⟨.contents .refl hframes fun _ => hs', e.ofJumps_of_ofOperation he⟩

end Run

open Store Run

variable {P : Value → Prop} {ids : List FrameId} {s : Store} {scope : Scope} {n : String}
  {role : Role} {v : Value}

/-! ## Reading, declaring and assigning -/

namespace Scope

theorem lookup_edits : (readExcept (scope.lookup n)).Edits P ids s fun _ _ => True := by
  refine meets_readExcept (fun _ _ => ⟨.refl, trivial⟩) fun e he => ⟨.refl, ?_⟩
  unfold lookup at he
  split at he <;> cases he
  rfl

theorem get_edits (hs : s.Holds P) :
    (readExcept (scope.get n)).Edits P ids s fun v _ => P v := by
  unfold Run.Edits Meets readExcept get lookup
  cases howner : s.owner? n scope.chain with
  | none => exact ⟨.refl, rfl⟩
  | some id =>
    rw [Option.bind_some]
    cases hb : (s.frame id).binding? n with
    | none => exact ⟨.refl, rfl⟩
    | some b =>
      have hvalue := hs.frames id (n, b) (Frame.mem_of_binding? hb)
      obtain ⟨role, value⟩ := b
      cases value with
      | none => exact ⟨.refl, rfl⟩
      | some v => exact ⟨.refl, hvalue v rfl⟩

theorem IsAssignmentFault.ofJumps {e : Fault} (h : IsAssignmentFault n e) : e.ofJumps = false := by
  rcases h with rfl | rfl <;> rfl

/-- What is assigned is kept in one of the frames of the scope. -/
theorem assign_edits (hv : v.isVoid = false → P v) (hids : scope.chain ⊆ ids) :
    (scope.assign n v).Edits P ids s fun _ _ => True := by
  refine assign_meets.mono ?_ ?_
  · rintro _ _ ⟨id, b, howner, hb, hcheck, rfl⟩
    have hid : id ∈ ids := hids (owner?_eq_some howner).1
    exact ⟨.assign .refl (fun _ => hid) hb hcheck (hv (checkAssign_eq_ok hcheck).1), trivial⟩
  · rintro e _ ⟨rfl, ⟨-, rfl⟩ | he⟩
    · exact ⟨.refl, rfl⟩
    · exact ⟨.refl, he.ofJumps⟩

theorem declare_edits (hid : scope.innermost ∈ ids) :
    (scope.declare n role).Edits P ids s fun _ _ => True := by
  refine declare_meets.mono ?_ ?_
  · rintro _ _ ⟨hn, rfl⟩
    exact ⟨.declare .refl (fun _ => hid) hn (fun _ hv => nomatch hv), trivial⟩
  · rintro e _ ⟨-, rfl, rfl⟩
    exact ⟨.refl, rfl⟩

/-- Definitions in the scope write to these frames at most. Where the innermost frame is in the
store, a name that is declared there is also assigned there. -/
def DefinesIn (scope : Scope) (ids : List FrameId) (s : Store) : Prop :=
  scope.innermost ∈ ids ∧ (s.HasFrame scope.innermost ∨ scope.chain ⊆ ids)

theorem DefinesIn.later {s' : Store} (h : scope.DefinesIn ids s) (hedits : s.Edits P ids s') :
    scope.DefinesIn ids s' :=
  ⟨h.1, h.2.imp_left hedits.keeps.hasFrame⟩

theorem define_edits (hscope : scope.DefinesIn ids s) (hv : v.isVoid = false → P v) :
    (scope.define n role v).Edits P ids s fun _ _ => True := by
  rcases hscope.2 with hframe | hchain
  · refine (define_meets hframe).mono ?_ ?_
    · rintro _ _ ⟨hn, hvoid, rfl⟩
      refine ⟨.declare .refl (fun _ => hscope.1) hn fun w hw => ?_, trivial⟩
      cases hw
      exact hv hvoid
    · rintro e _ (⟨-, rfl, rfl⟩ | ⟨hn, he, rfl⟩)
      · exact ⟨.refl, rfl⟩
      · exact ⟨.declare .refl (fun _ => hscope.1) hn (fun _ hw => nomatch hw), he.ofJumps⟩
  · exact edits_bind (declare_edits hscope.1) fun _ _ _ _ => assign_edits hv hchain

/-! ## New scopes -/

theorem new_edits : Scope.new.Edits P ids s fun _ _ => True := by
  unfold Run.Edits Meets
  rw [new_eq]
  exact ⟨.open .refl (by simp), trivial⟩

theorem child_edits :
    scope.child.Edits P ids s fun inner s' =>
      inner = ⟨⟨s.frames.size⟩, scope.chain⟩ ∧ s'.HasFrame inner.innermost := by
  unfold Run.Edits Meets
  rw [child_eq]
  exact ⟨.open .refl (by simp), rfl, s.hasFrame_opened⟩

theorem snapshot_edits :
    scope.snapshot.Edits P ids s fun closure s' =>
      closure = scope.copyAt s.frames.size ∧ s'.HasScope closure := by
  unfold Run.Edits Meets
  rw [snapshot_eq]
  refine ⟨.open .refl fun frame hframe => ?_, rfl, fun id hid => hasFrame_copyAt hid⟩
  obtain ⟨id, -, rfl⟩ := List.mem_map.mp hframe
  exact .inr ⟨id, rfl⟩

end Scope

/-! ## Calls -/

namespace Function

variable {f : Function} {args : List Value} {keywords : List (String × Value)}

theorem bindPositional_edits {parameters : List String} (hscope : scope.DefinesIn ids s)
    (hargs : ∀ v ∈ args, v.isVoid = false → P v) :
    (bindPositional scope parameters args).Edits P ids s fun _ _ => True := by
  induction parameters generalizing args s with
  | nil => exact edits_pure trivial
  | cons parameter parameters ih =>
    cases args with
    | nil => exact edits_pure trivial
    | cons v args =>
      rw [List.forall_mem_cons] at hargs
      refine edits_bind (Scope.define_edits hscope hargs.1) fun _ s' hedits _ => ?_
      exact ih (hscope.later hedits) hargs.2

theorem bindKeywords_edits (hscope : scope.DefinesIn ids s)
    (hkeywords : ∀ e ∈ keywords, e.2.isVoid = false → P e.2) :
    (f.bindKeywords scope keywords).Edits P ids s fun _ _ => True := by
  induction keywords generalizing s with
  | nil => exact edits_pure trivial
  | cons e rest ih =>
    rw [List.forall_mem_cons] at hkeywords
    unfold bindKeywords
    split
    · exact edits_fail rfl
    · refine edits_bind (Q := fun _ _ => True) (edits_read trivial) fun declared s₁ hedits₁ _ => ?_
      have hscope₁ := hscope.later hedits₁
      split
      · exact edits_fail rfl
      · refine edits_bind (Scope.define_edits hscope₁ hkeywords.1) fun _ s₂ hedits₂ _ => ?_
        exact ih (hscope₁.later hedits₂) hkeywords.2

/-- A call writes to its own new frame alone before the body is executed. -/
theorem bindArguments_edits (hargs : ∀ v ∈ args, v.isVoid = false → P v)
    (hkeywords : ∀ e ∈ keywords, e.2.isVoid = false → P e.2) :
    (f.bindArguments args keywords).Edits P [] s fun inner s' =>
      inner = ⟨⟨s.frames.size⟩, f.closure.chain⟩ ∧ s'.HasFrame inner.innermost := by
  unfold bindArguments
  dsimp only
  split
  · exact edits_fail rfl
  refine edits_bind_new (fun inner => [inner.innermost]) Scope.child_edits ?_ ?_
  · rintro inner s₁ ⟨rfl, -⟩ id hid hold
    rw [List.mem_singleton.mp hid] at hold
    exact absurd hold (Nat.lt_irrefl _)
  rintro inner s₁ - ⟨rfl, hnew⟩
  have hdefines {s' : Store} (h : s'.HasFrame ⟨s.frames.size⟩) :
      Scope.DefinesIn ⟨⟨s.frames.size⟩, f.closure.chain⟩ [⟨s.frames.size⟩] s' :=
    ⟨List.mem_singleton_self _, .inl h⟩
  refine edits_bind (bindPositional_edits (hdefines hnew) hargs) fun _ s₂ hedits₂ _ => ?_
  have hnew₂ := hedits₂.keeps.hasFrame hnew
  refine edits_bind (bindKeywords_edits (hdefines hnew₂) hkeywords) fun _ s₃ hedits₃ _ => ?_
  have hnew₃ := hedits₃.keeps.hasFrame hnew₂
  refine edits_bind (Q := fun _ s' => s' = s₃) (edits_read rfl) ?_
  rintro complete _ - rfl
  split
  · exact edits_pure ⟨rfl, hnew₃⟩
  · exact edits_fail rfl

end Function

/-! ## Definitions and loop variables -/

namespace Stmt

def makeFunction (definition : FunctionDef) (closure : Scope) : Run Value := do
  return .function ⟨← freshIdentity, definition, closure⟩

def makeClass (n : String) (definitions : List FunctionDef) (closure : Scope) : Run Value := do
  let methods ← (lastOfEachName definitions).mapM fun definition => do
    return (⟨← freshIdentity, definition, closure⟩ : Function)
  return .classObject ⟨← freshIdentity, n, methods⟩

/-- Makes a value over a snapshot of the scope, and defines it in both. -/
def defineOver (scope : Scope) (n : String) (role : Role) (make : Scope → Run Value) :
    Run Unit := do
  let closure ← scope.snapshot
  let v ← make closure
  scope.define n role v
  closure.define n role v

theorem defineFunction_eq (scope : Scope) (definition : FunctionDef) :
    defineFunction scope definition =
      defineOver scope definition.name .function (makeFunction definition) := by
  simp only [defineFunction, defineOver, makeFunction, bind_assoc, pure_bind]

theorem defineClass_eq (scope : Scope) (n : String) (definitions : List FunctionDef) :
    defineClass scope n definitions =
      defineOver scope n .classDefinition (makeClass n definitions) := by
  simp only [defineClass, defineOver, makeClass, bind_assoc, pure_bind]

theorem makeFunction_contained {definition : FunctionDef} {closure : Scope} {Q : Value → Prop}
    (hf : ∀ identity, Q (.function ⟨identity, definition, closure⟩)) :
    Contained P (makeFunction definition closure) Q :=
  contained_bind freshIdentity_contained fun identity _ => contained_pure (hf identity)

/-- Methods are made one by one and all close over the same scope. -/
theorem makeMethods_contained (closure : Scope) (definitions : List FunctionDef) :
    Contained P (definitions.mapM fun definition => do
        return (⟨← freshIdentity, definition, closure⟩ : Function))
      fun methods => ∀ f ∈ methods, f.closure = closure ∧ f.definition ∈ definitions := by
  induction definitions with
  | nil => exact contained_pure fun f hf => nomatch hf
  | cons definition rest ih =>
    rw [List.mapM_cons]
    refine contained_bind (Q := fun f => f.closure = closure ∧ f.definition = definition)
      (contained_bind freshIdentity_contained fun identity _ => contained_pure ⟨rfl, rfl⟩) ?_
    intro f hf
    refine contained_bind ih fun methods hmethods => contained_pure ?_
    intro g hg
    rcases List.mem_cons.mp hg with rfl | hg
    · exact ⟨hf.1, List.mem_cons.mpr (.inl hf.2)⟩
    · exact ⟨(hmethods g hg).1, List.mem_cons_of_mem _ (hmethods g hg).2⟩

theorem mem_of_mem_lastOfEachName {f : FunctionDef} {methods : List FunctionDef}
    (h : f ∈ lastOfEachName methods) : f ∈ methods := by
  induction methods with
  | nil => exact h
  | cons first rest ih =>
    unfold lastOfEachName at h
    split at h
    · exact List.mem_cons_of_mem _ (ih h)
    · rcases List.mem_cons.mp h with rfl | h
      · exact List.mem_cons_self
      · exact List.mem_cons_of_mem _ (ih h)

theorem makeClass_contained {definitions : List FunctionDef} {closure : Scope} {Q : Value → Prop}
    (hc : ∀ c : Class, (∀ f ∈ c.methods, f.closure = closure ∧ f.definition ∈ definitions) →
      Q (.classObject c)) :
    Contained P (makeClass n definitions closure) Q := by
  refine contained_bind (makeMethods_contained _ _) fun methods hmethods => ?_
  refine contained_bind freshIdentity_contained fun identity _ => contained_pure (hc _ ?_)
  exact fun f hf => ⟨(hmethods f hf).1, mem_of_mem_lastOfEachName (hmethods f hf).2⟩

/-- What is made closes over the snapshot, and is known by its name in both scopes. -/
theorem defineOver_edits (role : Role) (make : Scope → Run Value) (hs : s.Holds P)
    (hscope : scope.DefinesIn ids s)
    (hmake : Contained P (make (scope.copyAt s.frames.size)) P) :
    (defineOver scope n role make).Edits P ids s fun _ s' =>
        s'.HasScope (scope.copyAt s.frames.size) := by
  refine edits_bind_new (fun closure => closure.innermost :: ids) Scope.snapshot_edits ?_ ?_
  · rintro closure s₁ ⟨rfl, -⟩ id hid hold
    rcases List.mem_cons.mp hid with rfl | hid
    · exact absurd hold (Nat.lt_irrefl _)
    · exact hid
  rintro closure s₁ hedits₁ ⟨rfl, hclosure⟩
  refine edits_bind (hmake.edits (hedits₁.holds hs)) fun v s₂ hedits₂ hv => ?_
  have hscope₂ : scope.DefinesIn ids s₂ :=
    ⟨hscope.1, hscope.2.imp_left fun h => hedits₂.keeps.hasFrame (hedits₁.keeps.hasFrame h)⟩
  refine edits_bind ((Scope.define_edits hscope₂ fun _ => hv).mono (List.subset_cons_self ..))
    fun _ s₃ hedits₃ _ => ?_
  have hclosure₃ := hedits₃.keeps.hasScope (hedits₂.keeps.hasScope hclosure)
  refine (Scope.define_edits ⟨List.mem_cons_self, .inl (hclosure₃ _ List.mem_cons_self)⟩
    fun _ => hv).imp fun _ s₄ hedits₄ _ => ?_
  exact hedits₄.keeps.hasScope hclosure₃

theorem defineFunction_edits {definition : FunctionDef} (hs : s.Holds P)
    (hscope : scope.DefinesIn ids s)
    (hf : ∀ identity, P (.function ⟨identity, definition, scope.copyAt s.frames.size⟩)) :
    (defineFunction scope definition).Edits P ids s fun _ s' =>
      s'.HasScope (scope.copyAt s.frames.size) := by
  rw [defineFunction_eq]
  exact defineOver_edits _ _ hs hscope (makeFunction_contained hf)

theorem defineClass_edits {definitions : List FunctionDef} (hs : s.Holds P)
    (hscope : scope.DefinesIn ids s)
    (hc : ∀ c : Class, (∀ f ∈ c.methods, f.closure = scope.copyAt s.frames.size ∧
      f.definition ∈ definitions) → P (.classObject c)) :
    (defineClass scope n definitions).Edits P ids s fun _ s' =>
      s'.HasScope (scope.copyAt s.frames.size) := by
  rw [defineClass_eq]
  exact defineOver_edits _ _ hs hscope (makeClass_contained hc)

theorem bindLoopVariable_edits {inner : Scope} {binder : LoopVariable} {item : Value}
    (hids : inner.chain ⊆ ids) (hitem : item.isVoid = false → P item) :
    (bindLoopVariable inner binder item).Edits P ids s fun _ _ => True := by
  cases binder with
  | name n => exact Scope.assign_edits hitem hids
  | declared n isMutable => exact Scope.define_edits ⟨hids List.mem_cons_self, .inr hids⟩ hitem

end Stmt

end Offside
