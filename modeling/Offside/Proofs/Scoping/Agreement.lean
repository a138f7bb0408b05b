import Offside.Proofs.Scoping.WellScoped
import Offside.Proofs.Store.Keeping
import Offside.Proofs.Store.Operations

/-!
# Stores that agree with what a program sees

A scope agrees with a view if its chain declares every name of the view, and its innermost frame
no name that the block has not declared. A store is consistent if every function in it closes over
a scope that declares what its body sees.
-/

namespace Offside

namespace Store

/-- The closure of the function declares what its body sees. -/
structure Binds (s : Store) (f : Function) : Prop where
  hasClosure : s.HasScope f.closure
  declares : ∃ outer, f.definition.wellScoped outer = true ∧
    ∀ n ∈ outer, s.Declares f.closure.chain n

def Admits (s : Store) (v : Value) : Prop := ∀ f ∈ v.functions, s.Binds f

def Consistent (s : Store) : Prop := s.Holds s.Admits

structure Agrees (s : Store) (scope : Scope) (view : View) : Prop where
  hasScope : s.HasScope scope
  declares : ∀ n ∈ view.names, s.Declares scope.chain n
  block : ∀ n ∈ s.names scope.innermost, n ∈ view.block

/-- Every frame keeps its names, and only these frames may get more. -/
structure Grows (ids : List FrameId) (s s' : Store) : Prop extends Keeps Frame.names ids s s' where
  subset : ∀ id, s.HasFrame id → s.names id ⊆ s'.names id

variable {s s' s'' : Store} {ids ids' : List FrameId} {scope : Scope} {view : View} {v : Value}

/-! ## Growing -/

namespace Grows

theorem refl : Grows ids s s := ⟨.refl, fun _ _ => List.Subset.refl _⟩

theorem hasScope (h : Grows ids s s') (hscope : s.HasScope scope) : s'.HasScope scope :=
  h.toKeeps.hasScope hscope

theorem names_eq {id : FrameId} (h : Grows ids s s') (hid : s.HasFrame id) (hout : id ∉ ids) :
    s'.names id = s.names id :=
  h.same id hid hout

/-- Frames that are new after the first part need not be listed. -/
theorem trans_new (h : Grows ids s s') (h' : Grows ids' s' s'')
    (hids : ∀ id ∈ ids', s.HasFrame id → id ∈ ids) : Grows ids s s'' := by
  refine ⟨h.toKeeps.trans_new h'.toKeeps hids, ?_⟩
  intro id hid
  exact List.Subset.trans (h.subset id hid) (h'.subset id (h.toKeeps.hasFrame hid))

theorem trans (h : Grows ids s s') (h' : Grows ids s' s'') : Grows ids s s'' :=
  h.trans_new h' fun _ hid _ => hid

theorem mono (h : Grows ids s s') (hids : ids ⊆ ids') : Grows ids' s s' :=
  ⟨h.toKeeps.mono hids, h.subset⟩

theorem weaken (h : Grows [] s s') : Grows ids s s' := h.mono (List.nil_subset _)

/-- Where all names are the same, none is lost. -/
theorem of_keeps (h : Keeps Frame.names [] s s') : Grows ids s s' := by
  refine ⟨h.weaken, ?_⟩
  intro id hid
  unfold names
  rw [h.same id hid List.not_mem_nil]
  exact List.Subset.refl _

/-- A frame may lose no name. -/
theorem modifyFrame {id : FrameId} {f : Frame → Frame}
    (h : (s.frame id).names ⊆ (f (s.frame id)).names) : Grows [id] s (s.modifyFrame id f) := by
  refine ⟨.modifyFrame .., ?_⟩
  intro id' _
  unfold names
  rcases frame_modifyFrame_eq_or s id id' f with heq | ⟨rfl, heq⟩
  · rw [heq]
    exact List.Subset.refl _
  · rw [heq]
    exact h

theorem declares {n : String} (h : Grows ids s s') (hscope : s.HasScope scope)
    (hn : s.Declares scope.chain n) : s'.Declares scope.chain n := by
  obtain ⟨id, hid, hn⟩ := hn
  exact ⟨id, hid, h.subset id (hscope id hid) hn⟩

theorem binds {f : Function} (h : Grows ids s s') (hf : s.Binds f) : s'.Binds f := by
  obtain ⟨outer, houter, hdeclares⟩ := hf.declares
  refine ⟨h.hasScope hf.hasClosure, outer, houter, ?_⟩
  intro n hn
  exact h.declares hf.hasClosure (hdeclares n hn)

theorem admits (h : Grows ids s s') (hv : s.Admits v) : s'.Admits v :=
  fun f hf => h.binds (hv f hf)

theorem agrees (h : Grows [] s s') (hscope : s.Agrees scope view) : s'.Agrees scope view := by
  refine ⟨h.hasScope hscope.hasScope, ?_, ?_⟩
  · intro n hn
    exact h.declares hscope.hasScope (hscope.declares n hn)
  · rw [h.names_eq (hscope.hasScope _ List.mem_cons_self) List.not_mem_nil]
    exact hscope.block

end Grows

/-- The innermost frame has got the names that a statement declares. -/
theorem Agrees.declare {names : List String} (h : s.Agrees scope view)
    (hgrows : Grows [scope.innermost] s s')
    (hnames : s'.names scope.innermost = names ++ s.names scope.innermost) :
    s'.Agrees scope (view.declare names) := by
  refine ⟨hgrows.hasScope h.hasScope, ?_, ?_⟩
  · intro n hn
    unfold View.names View.declare at hn
    rw [List.append_assoc, List.mem_append] at hn
    rcases hn with hn | hn
    · refine ⟨scope.innermost, List.mem_cons_self, ?_⟩
      rw [hnames]
      exact List.mem_append_left _ hn
    · exact hgrows.declares h.hasScope (h.declares n hn)
  · intro n hn
    rw [hnames, List.mem_append] at hn
    apply List.mem_append.mpr
    exact hn.imp_right (h.block n)

/-! ## Values -/

theorem admits_of_isPlain (h : v.isPlain = true) : s.Admits v := by
  intro f hf
  rw [Value.functions_of_isPlain h] at hf
  cases hf

theorem admits_of_isVoid (h : v.isVoid = true) : s.Admits v := by
  intro f hf
  rw [Value.functions_of_isVoid h] at hf
  cases hf

theorem admits_of_not_isVoid (h : v.isVoid = false → s.Admits v) : s.Admits v := by
  cases hvoid : v.isVoid with
  | false => exact h hvoid
  | true => exact admits_of_isVoid hvoid

end Store

/-! ## Parts of runs -/

/-- The part keeps a consistent store consistent and the names of all frames but these, and does
not fail on names. -/
def Run.Safe {α : Type} (ids : List FrameId) (r : Run α) (s : Store) (Q : α → Store → Prop) :
    Prop :=
  s.Consistent → r.Meets s (fun a s' => s'.Consistent ∧ Store.Grows ids s s' ∧ Q a s')
    fun e _ => e.ofNames = false

namespace Run

open Store

variable {α β : Type} {s : Store} {ids : List FrameId} {r : Run α} {Q T : α → Store → Prop}
  {R : β → Store → Prop}

theorem Safe.imp (h : r.Safe ids s Q)
    (hQ : ∀ a s', s'.Consistent → Grows ids s s' → Q a s' → T a s') : r.Safe ids s T := by
  intro hs
  refine (h hs).imp fun a s' h => ?_
  exact ⟨h.1, h.2.1, hQ a s' h.1 h.2.1 h.2.2⟩

theorem Safe.weaken (h : r.Safe [] s Q) : r.Safe ids s Q := by
  intro hs
  refine (h hs).imp fun a s' h => ?_
  exact ⟨h.1, h.2.1.weaken, h.2.2⟩

theorem safe_pure {a : α} (h : Q a s) : Safe ids (pure a) s Q := fun hs => ⟨hs, .refl, h⟩

/-- The second part may also name things in frames that are new after the first. -/
theorem safe_bind_new {f : α → Run β} (ids' : α → List FrameId) (hr : r.Safe ids s Q)
    (hids : ∀ a s', Q a s' → ∀ id ∈ ids' a, s.HasFrame id → id ∈ ids)
    (hf : ∀ a s', Grows ids s s' → Q a s' → (f a).Safe (ids' a) s' R) :
    Safe ids (r >>= f) s R := by
  intro hs
  apply meets_bind
  refine (hr hs).imp ?_
  rintro a s' ⟨hs', hgrows, ha⟩
  refine (hf a s' hgrows ha hs').imp ?_
  rintro b s'' ⟨hs'', hgrows', hb⟩
  exact ⟨hs'', hgrows.trans_new hgrows' (hids a s' ha), hb⟩

theorem safe_bind {f : α → Run β} (hr : r.Safe ids s Q)
    (hf : ∀ a s', Grows ids s s' → Q a s' → (f a).Safe ids s' R) : Safe ids (r >>= f) s R :=
  safe_bind_new (fun _ => ids) hr (fun _ _ _ _ hid _ => hid) hf

/-- The second part may name things in the scope that the first one opens. -/
theorem safe_bind_scope {opening : Run Scope} {f : Scope → Run β} {T : Scope → Store → Prop}
    (h : opening.Safe ids s T) (hnew : ∀ inner s', T inner s' → ¬ s.HasFrame inner.innermost)
    (hf : ∀ inner s', Grows ids s s' → T inner s' → (f inner).Safe [inner.innermost] s' R) :
    Safe ids (opening >>= f) s R := by
  refine safe_bind_new (fun inner => [inner.innermost]) h ?_ hf
  intro inner s' hinner id hid hframe
  rw [List.mem_singleton.mp hid] at hframe
  exact absurd hframe (hnew inner s' hinner)

theorem safe_fail {e : Fault} (h : e.ofNames = false) : Safe ids (fail e : Run α) s Q :=
  fun _ => h

theorem safe_outOfFuel : Safe ids (outOfFuel : Run α) s Q := fun _ => trivial

theorem ofNames_eq_false_of_ofOperation {e : Fault} (h : e.ofOperation = true) :
    e.ofNames = false := by
  cases e <;> first | rfl | cases h

/-- Operations on values do nothing to names. -/
theorem Contained.safe {Q : α → Prop} (h : Contained s.Admits r Q) :
    r.Safe ids s fun a _ => Q a := by
  intro hs
  refine (h s hs).mono ?_ fun e _ h => ofNames_eq_false_of_ofOperation h.2.2
  rintro a s' ⟨hframes, hs', ha⟩
  have hgrows : ∀ ids, Grows ids s s' := fun ids => .of_keeps (.of_frames_eq hframes)
  exact ⟨hs'.mono fun v hv => (hgrows ids).admits hv, hgrows ids, ha⟩

end Run

end Offside
