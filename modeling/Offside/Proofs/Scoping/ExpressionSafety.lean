import Offside.Proofs.Scoping.Definitions

/-!
# Evaluation does not fail on names

An expression that reads names of the view is evaluated without a fault of names, when the levels
below are. A call executes the body of a function that the store binds.
-/

namespace Offside

open Store Run

/-- Expressions that read what they see do not fail on names, and give values to be kept. -/
def EvaluatesWell (eval : Scope → Expr → Run Value) : Prop :=
  ∀ s scope view e, s.Agrees scope view → (∀ n ∈ e.names, n ∈ view.names) →
    (eval scope e).Safe [] s fun v s' => s'.Admits v

def Store.AdmitsFlow (s : Store) : Flow → Prop
  | .returning v => s.Admits v
  | _ => True

/-- Well-scoped statements do not fail on names, and declare what they say. -/
def ExecutesWell (exec : Scope → Stmt → Run Flow) : Prop :=
  ∀ s scope view st, s.Agrees scope view → st.wellScoped view = true →
    (exec scope st).Safe [scope.innermost] s fun flow s' =>
      s'.AdmitsFlow flow ∧ (flow = .normal → s'.Agrees scope (view.declare st.declared))

variable {s : Store} {scope : Scope} {view : View} {eval : Scope → Expr → Run Value}
  {exec : Scope → Stmt → Run Flow}

/-! ## Names of parts -/

namespace Expr

theorem names_subset_namesOfAll {e : Expr} {es : List Expr} (h : e ∈ es) :
    e.names ⊆ namesOfAll es := by
  induction es with
  | nil => cases h
  | cons first rest ih =>
    unfold namesOfAll
    rcases List.mem_cons.mp h with rfl | h
    · exact List.subset_append_left ..
    · exact List.subset_append_of_subset_right _ (ih h)

/-! ## Parts of expressions -/

theorem evalAll_safe {eval : Expr → Run Value} {es : List Expr} (hscope : s.Agrees scope view)
    (heval : ∀ e ∈ es, ∀ s', s'.Agrees scope view →
      (eval e).Safe [] s' fun v s'' => s''.Admits v) :
    (evalAll eval es).Safe [] s fun vs s' => ∀ v ∈ vs, s'.Admits v := by
  induction es generalizing s with
  | nil => exact safe_pure fun v hv => nomatch hv
  | cons e rest ih =>
    rw [List.forall_mem_cons] at heval
    refine safe_bind (heval.1 s hscope) fun v s₁ hgrows₁ hv => ?_
    refine safe_bind (ih (hgrows₁.agrees hscope) heval.2) fun vs s₂ hgrows₂ hvs => ?_
    exact safe_pure (List.forall_mem_cons.mpr ⟨hgrows₂.admits hv, hvs⟩)

theorem evalKeywords_safe (heval : EvaluatesWell eval) {es : List (String × Expr)}
    (hscope : s.Agrees scope view) (hnames : ∀ n ∈ namesOfKeywords es, n ∈ view.names) :
    (evalKeywords (eval scope) es).Safe [] s fun vs s' => ∀ e ∈ vs, s'.Admits e.2 := by
  induction es generalizing s with
  | nil => exact safe_pure fun v hv => nomatch hv
  | cons e rest ih =>
    unfold namesOfKeywords at hnames
    rw [List.forall_mem_append] at hnames
    refine safe_bind (heval s scope view e.2 hscope hnames.1) fun v s₁ hgrows₁ hv => ?_
    refine safe_bind (ih (hgrows₁.agrees hscope) hnames.2) fun vs s₂ hgrows₂ hvs => ?_
    exact safe_pure (List.forall_mem_cons.mpr ⟨hgrows₂.admits hv, hvs⟩)

theorem evalEntries_safe (heval : EvaluatesWell eval) {es : List (Expr × Expr)}
    (hscope : s.Agrees scope view) (hnames : ∀ n ∈ namesOfEntries es, n ∈ view.names) :
    (evalEntries (eval scope) es).Safe [] s fun vs s' => ∀ e ∈ vs, s'.Admits e.2 := by
  induction es generalizing s with
  | nil => exact safe_pure fun v hv => nomatch hv
  | cons e rest ih =>
    unfold namesOfEntries at hnames
    rw [List.forall_mem_append, List.forall_mem_append] at hnames
    obtain ⟨⟨hkey, hvalue⟩, hrest⟩ := hnames
    refine safe_bind (heval s scope view e.1 hscope hkey) fun k s₁ hgrows₁ hk => ?_
    refine safe_bind (contained_ofExcept (Value.key_yields k)).safe fun k s₂ hgrows₂ _ => ?_
    have hscope₂ := hgrows₂.agrees (hgrows₁.agrees hscope)
    refine safe_bind (heval s₂ scope view e.2 hscope₂ hvalue) fun v s₃ hgrows₃ hv => ?_
    refine safe_bind (contained_ofExcept storable_yields).safe fun w s₄ hgrows₄ hw => ?_
    obtain ⟨rfl, -⟩ := hw
    have hscope₄ := hgrows₄.agrees (hgrows₃.agrees hscope₂)
    refine safe_bind (ih hscope₄ hrest) fun vs s₅ hgrows₅ hvs => ?_
    exact safe_pure (List.forall_mem_cons.mpr ⟨hgrows₅.admits (hgrows₄.admits hv), hvs⟩)

theorem evalChain_safe (heval : EvaluatesWell eval) {first : Value}
    {links : List (Operator × Expr)} (hscope : s.Agrees scope view)
    (hnames : ∀ e ∈ links, ∀ n ∈ e.2.names, n ∈ view.names) :
    (evalChain (eval scope) first links).Safe [] s fun _ _ => True := by
  induction links generalizing s first with
  | nil => exact safe_pure trivial
  | cons e rest ih =>
    rw [List.forall_mem_cons] at hnames
    refine safe_bind (heval s scope view e.2 hscope hnames.1) fun v s₁ hgrows₁ _ => ?_
    refine safe_bind (contained_readExcept fun t _ => Value.compares_yields ..).safe
      fun b s₂ hgrows₂ _ => ?_
    split
    · exact ih (hgrows₂.agrees (hgrows₁.agrees hscope)) hnames.2
    · exact safe_pure trivial

end Expr

/-! ## Calls -/

/-- The statements of a block see more and more of what it declares. -/
theorem Stmt.execAll_safe (hexec : ExecutesWell exec) {body : Block}
    (hscope : s.Agrees scope view) (hbody : Stmt.wellScopedAll view body = true) :
    (execAll (exec scope) body).Safe [scope.innermost] s fun flow s' => s'.AdmitsFlow flow := by
  induction body generalizing s view with
  | nil => exact safe_pure trivial
  | cons st rest ih =>
    unfold Stmt.wellScopedAll at hbody
    rw [Bool.and_eq_true] at hbody
    refine safe_bind (hexec s scope view st hscope hbody.1) ?_
    rintro flow s₁ - ⟨hflow, hnormal⟩
    cases flow with
    | normal => exact ih (hnormal rfl) hbody.2
    | returning v => exact safe_pure hflow
    | breaking => exact safe_pure trivial
    | continuing => exact safe_pure trivial

theorem Flow.result_safe {flow : Flow} (hflow : s.AdmitsFlow flow) :
    (ofExcept flow.result).Safe [] s fun v s' => s'.Admits v := by
  intro hs
  cases flow with
  | normal => exact ⟨hs, .refl, admits_of_isVoid rfl⟩
  | returning v => exact ⟨hs, .refl, hflow⟩
  | breaking => exact rfl
  | continuing => exact rfl

theorem Function.apply_safe (hexec : ExecutesWell exec) {f : Function} {args : List Value}
    {keywords : List (String × Value)} (hf : s.Binds f) (hargs : ∀ v ∈ args, s.Admits v)
    (hkeywords : ∀ e ∈ keywords, s.Admits e.2) :
    (f.apply exec args keywords).Safe [] s fun v s' => s'.Admits v := by
  unfold apply
  refine safe_bind_scope (bindArguments_safe hf hargs hkeywords)
    (fun _ _ ⟨_, _, _, hnew⟩ => hnew) ?_
  rintro inner s₁ - ⟨outer, hbody, hinner, -⟩
  refine safe_bind (Stmt.execAll_safe hexec hinner hbody) fun flow s₂ _ hflow => ?_
  exact (Flow.result_safe hflow).weaken

/-! ## Expressions -/

namespace Expr

/-- A function binds what its body needs wherever it is called. -/
theorem evalCall_safe (heval : EvaluatesWell eval) (hexec : ExecutesWell exec) {callee : Value}
    {args : List Expr} {keywords : List (String × Expr)} (hscope : s.Agrees scope view)
    (hcallee : s.Admits callee) (hargs : ∀ n ∈ namesOfAll args, n ∈ view.names)
    (hkeywords : ∀ n ∈ namesOfKeywords keywords, n ∈ view.names) :
    (evalCall (eval scope) exec callee args keywords).Safe [] s fun v s' => s'.Admits v := by
  have hall : (evalAll (eval scope) args).Safe [] s fun vs s' => ∀ v ∈ vs, s'.Admits v :=
    evalAll_safe hscope fun e he s' hscope' =>
      heval s' scope view e hscope' fun n hn => hargs n (names_subset_namesOfAll he hn)
  cases callee with
  | classObject c =>
    refine safe_bind freshIdentity_contained.safe fun identity s₁ hgrows₁ _ => ?_
    exact safe_pure fun f hf => hgrows₁.binds (hcallee f hf)
  | function f =>
    refine safe_bind hall fun vs s₁ hgrows₁ hvs => ?_
    have hscope₁ := hgrows₁.agrees hscope
    refine safe_bind (evalKeywords_safe heval hscope₁ hkeywords) fun ks s₂ hgrows₂ hks => ?_
    apply Function.apply_safe hexec
    · exact hgrows₂.binds (hgrows₁.binds (hcallee f (List.mem_singleton_self f)))
    · exact fun v hv => hgrows₂.admits (hvs v hv)
    · exact hks
  | builtin b =>
    refine safe_bind hall fun vs s₁ hgrows₁ hvs => ?_
    have hscope₁ := hgrows₁.agrees hscope
    refine safe_bind (evalKeywords_safe heval hscope₁ hkeywords) fun ks s₂ hgrows₂ _ => ?_
    have hcall := Action.call_contained (P := s₂.Admits) (fun v hv => admits_of_isPlain hv)
      b.action (fun v hv _ => hgrows₂.admits (hvs v hv)) ks
    refine hcall.safe.imp fun v s₃ _ hgrows₃ hv => ?_
    exact hgrows₃.admits (admits_of_not_isVoid hv)
  | _ => exact safe_fail rfl

/-- One level of evaluation. -/
theorem evalStep_safe (heval : EvaluatesWell eval) (hexec : ExecutesWell exec) :
    EvaluatesWell fun scope e => e.evalStep eval exec scope := by
  intro s scope view e hscope hnames
  cases e with
  | name n => exact Scope.get_safe (hscope.declares n (hnames n List.mem_cons_self))
  | integer | float | string | boolean | null => exact safe_pure (admits_of_isPlain rfl)
  | list items =>
    refine safe_bind (Q := fun vs s' => ∀ v ∈ vs, s'.Admits v) ?_ fun vs s₁ _ hvs => ?_
    · refine evalAll_safe hscope fun e he s' hscope' => ?_
      refine safe_bind (heval s' scope view e hscope' fun n hn =>
        hnames n (names_subset_namesOfAll he hn)) fun v s₁ _ hv => ?_
      refine (contained_ofExcept storable_yields).safe.imp fun w s₂ _ hgrows₂ hw => ?_
      rw [hw.1]
      exact hgrows₂.admits hv
    · refine (newList_contained (P := s₁.Admits) ?_).safe.imp fun v s₂ _ _ hv =>
        admits_of_isPlain hv
      exact fun v hv => hvs v (List.mem_toArray.mp hv)
  | dictionary entries =>
    refine safe_bind (evalEntries_safe heval hscope hnames) fun es s₁ _ hes => ?_
    refine (newDictionary_contained (P := s₁.Admits) ?_).safe.imp fun v s₂ _ _ hv =>
      admits_of_isPlain hv
    exact Dictionary.of_mem_ofList hes
  | not operand =>
    refine safe_bind (heval s scope view operand hscope hnames) fun v s₁ _ _ => ?_
    refine safe_bind (contained_read (Q := fun _ => True) fun _ _ => trivial).safe fun b s₂ _ _ => ?_
    exact safe_pure (admits_of_isPlain rfl)
  | negative operand =>
    refine safe_bind (heval s scope view operand hscope hnames) fun v s₁ _ _ => ?_
    exact (contained_ofExcept (Number.negate_yields v)).safe.imp fun w s₂ _ _ hw =>
      admits_of_isPlain hw
  | binary left op right =>
    unfold names at hnames
    rw [List.forall_mem_append] at hnames
    refine safe_bind (heval s scope view left hscope hnames.1) fun v s₁ hgrows₁ _ => ?_
    have hscope₁ := hgrows₁.agrees hscope
    refine safe_bind (heval s₁ scope view right hscope₁ hnames.2) fun w s₂ _ _ => ?_
    split
    · refine safe_bind (contained_readExcept fun t _ => Value.compares_yields ..).safe
        fun b s₃ _ _ => ?_
      exact safe_pure (admits_of_isPlain rfl)
    · exact (Value.arithmetic_contained op v w).safe.imp fun u s₃ _ _ hu => admits_of_isPlain hu
  | compare first ops operands =>
    unfold names at hnames
    rw [List.forall_mem_append] at hnames
    refine safe_bind (heval s scope view first hscope hnames.1) fun v s₁ hgrows₁ _ => ?_
    refine safe_bind (evalChain_safe heval (hgrows₁.agrees hscope) ?_) fun b s₂ _ _ => ?_
    · intro e he n hn
      exact hnames.2 n (names_subset_namesOfAll (List.of_mem_zip he).2 hn)
    · exact safe_pure (admits_of_isPlain rfl)
  | call callee args keywords =>
    unfold names at hnames
    rw [List.forall_mem_append, List.forall_mem_append] at hnames
    obtain ⟨⟨hcallee, hargs⟩, hkeywords⟩ := hnames
    refine safe_bind (heval s scope view callee hscope hcallee) fun v s₁ hgrows₁ hv => ?_
    exact evalCall_safe heval hexec (hgrows₁.agrees hscope) hv hargs hkeywords
  | index target key =>
    unfold names at hnames
    rw [List.forall_mem_append] at hnames
    refine safe_bind (heval s scope view target hscope hnames.1) fun v s₁ hgrows₁ _ => ?_
    have hscope₁ := hgrows₁.agrees hscope
    refine safe_bind (heval s₁ scope view key hscope₁ hnames.2) fun k s₂ _ _ => ?_
    refine (contained_readExcept fun t ht => ?_).safe.imp fun w s₃ _ hgrows₃ hw =>
      hgrows₃.admits hw
    exact Value.index_yields (fun u hu => admits_of_isPlain hu) ht v k
  | member target n =>
    refine safe_bind (heval s scope view target hscope hnames) fun v s₁ _ _ => ?_
    exact (evalMember_contained v n).safe.imp fun w s₂ _ _ hw => admits_of_isPlain hw

end Expr

end Offside
