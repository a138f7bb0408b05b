import Mathlib.Data.List.Chain
import Offside.Proofs.Trace.Edits

/-!
# Bindings are stable

A name that is declared in a frame stays declared there in its role, and once it has a value it
keeps one. The first value of an immutable variable is its only one. This is so from each step of a
run to the next, and so between any two moments of whatever a host does with its scopes and
programs, failing or not.
-/

namespace Offside

/-! ## Bindings of one store in another -/

/-- What a later binding of the same name in the same frame has of the earlier one. -/
structure Binding.Stays (b b' : Binding) : Prop where
  role : b'.role = b.role
  isSome : b.value.isSome = true → b'.value.isSome = true
  immutable : b.role = .immutableVariable → b.value.isSome = true → b'.value = b.value

/-- Every binding of the first store stays in the second one. -/
def Store.Preserves (s s' : Store) : Prop :=
  ∀ id n b, (s.frame id).binding? n = some b → ∃ b', (s'.frame id).binding? n = some b' ∧ b.Stays b'

namespace Binding.Stays

theorem refl (b : Binding) : b.Stays b := ⟨rfl, id, fun _ _ => rfl⟩

theorem trans {b b' b'' : Binding} (h : b.Stays b') (h' : b'.Stays b'') : b.Stays b'' where
  role := h'.role.trans h.role
  isSome := h'.isSome ∘ h.isSome
  immutable hrole hsome :=
    (h'.immutable (h.role.trans hrole) (h.isSome hsome)).trans (h.immutable hrole hsome)

/-- An assignment that the role allows. -/
theorem assign {n : String} {b : Binding} {v : Value} (h : Scope.checkAssign n b v = .ok ()) :
    b.Stays { b with value := some v } where
  role := rfl
  isSome _ := rfl
  immutable hrole hsome := absurd ⟨hrole, hsome⟩ (Scope.checkAssign_eq_ok h).2

end Binding.Stays

namespace Store

namespace Preserves

variable {s s' s'' : Store}

theorem refl (s : Store) : s.Preserves s := fun _ _ b hb => ⟨b, hb, .refl b⟩

theorem trans (h : s.Preserves s') (h' : s'.Preserves s'') : s.Preserves s'' := by
  intro id n b hb
  obtain ⟨b', hb', hstays⟩ := h id n b hb
  obtain ⟨b'', hb'', hstays'⟩ := h' id n b' hb'
  exact ⟨b'', hb'', hstays.trans hstays'⟩

instance : Trans Preserves Preserves Preserves := ⟨trans⟩

theorem of_frames_eq (h : s'.frames = s.frames) : s.Preserves s' := by
  intro id n b hb
  refine ⟨b, ?_, .refl b⟩
  unfold frame at hb ⊢
  rwa [h]

theorem withFrames (s : Store) (frames : List Frame) : s.Preserves (s.withFrames frames) := by
  intro id n b hb
  have hid : s.HasFrame id := by
    refine Nat.lt_of_not_le fun hid => ?_
    have hnone : s.frame id = [] := by
      unfold frame
      rw [Array.getD_eq_getD_getElem?, Array.getElem?_eq_none hid]
      rfl
    rw [hnone] at hb
    cases hb
  exact ⟨b, by rwa [frame_withFrames_of_hasFrame hid], .refl b⟩

/-- A change of one frame in which every binding of it stays. -/
theorem modifyFrame {id : FrameId} {f : Frame → Frame}
    (h : ∀ n b, (s.frame id).binding? n = some b →
      ∃ b', (f (s.frame id)).binding? n = some b' ∧ b.Stays b') :
    s.Preserves (s.modifyFrame id f) := by
  intro id' n b hb
  rcases frame_modifyFrame_eq_or s id id' f with heq | ⟨rfl, heq⟩
  · rw [heq]
    exact ⟨b, hb, .refl b⟩
  · rw [heq]
    exact h n b hb

end Preserves

/-- All edits of frames let bindings stay. -/
theorem Edits.preserves {P : Value → Prop} {ids : List FrameId} {s t : Store}
    (h : Edits P ids s t) : s.Preserves t := by
  induction h with
  | refl => exact .refl s
  | contents _ hframes _ ih => exact ih.trans (.of_frames_eq hframes)
  | «open» _ _ ih => exact ih.trans (.withFrames _ _)
  | declare _ _ hn _ ih =>
    refine ih.trans (.modifyFrame fun m b hb => ⟨b, ?_, .refl b⟩)
    rw [Frame.binding?_cons_of_ne, hb]
    rintro rfl
    exact hn (Frame.isSome_binding?.mp (Option.isSome_of_eq_some hb))
  | @assign t id n b v _ _ hb hcheck _ ih =>
    refine ih.trans (.modifyFrame fun m c hc => ?_)
    by_cases hm : m = n
    · subst hm
      obtain rfl : b = c := Option.some.inj (hb.symm.trans hc)
      exact ⟨_, Frame.binding?_set_self hb, .assign hcheck⟩
    · exact ⟨c, by rwa [Frame.binding?_set_of_ne hm], .refl c⟩

end Store

/-! ## Steps of runs -/

def Step.Preserves (step : Step) : Prop := step.before.Preserves step.after

theorem Program.steps_preserve (fuel : Nat) (globals : Scope) (p : Program) (s : Store) :
    ∀ step ∈ p.steps fuel globals s, step.Preserves := by
  intro step hstep
  obtain ⟨ids, hedits⟩ := p.steps_edit Value.makes_true fuel globals s.holds_true step hstep
  exact hedits.preserves

/-! ## Hosts -/

/-- The store at the end, whether or not the run failed. -/
def Outcome.store? {α : Type} : Outcome α → Option Store
  | .done _ s | .failed _ s => some s
  | .outOfFuel => none

def Ending.store? : Ending → Option Store
  | .finished s | .stopped _ s => some s
  | .outOfFuel => none

theorem Run.Edits.store? {α : Type} {P : Value → Prop} {r : Run α} {ids : List FrameId} {s : Store}
    {Q : α → Store → Prop} (h : r.Edits P ids s Q) : ∀ t ∈ (r s).store?, s.Edits P ids t := by
  cases hr : r s with
  | done a s' =>
    rintro _ ⟨⟩
    exact (h.of_done hr).1
  | failed e s' =>
    rintro _ ⟨⟩
    exact (h.of_failed hr).1
  | outOfFuel => exact nofun

/-- The steps of a program lead to the store at its end. -/
theorem Program.exists_leads (fuel : Nat) (globals : Scope) (p : Program) (s : Store) :
    ∃ s', Leads s (p.steps fuel globals s) s' ∧
      ∀ t ∈ (Program.run fuel globals p s).store?, t = s' := by
  have hreached := p.isReached_steps fuel globals s
  cases hrun : Program.run fuel globals p s with
  | finished s' =>
    rw [hrun] at hreached
    exact ⟨s', hreached, fun _ ht => (Option.some.inj ht).symm⟩
  | stopped why s' =>
    rw [hrun] at hreached
    exact ⟨s', hreached, fun _ ht => (Option.some.inj ht).symm⟩
  | outOfFuel =>
    rw [hrun] at hreached
    obtain ⟨s', hreached⟩ := hreached
    exact ⟨s', hreached, nofun⟩

/-- What a host does with a store: it runs programs, and calls the operations on scopes. -/
inductive HostOp where
  | run (fuel : Nat) (globals : Scope) (p : Program)
  | declare (scope : Scope) (n : String) (role : Role)
  | define (scope : Scope) (n : String) (role : Role) (v : Value)
  | assign (scope : Scope) (n : String) (v : Value)
  | new
  | child (scope : Scope)
  | snapshot (scope : Scope)

namespace HostOp

/-- The store after the operation, which there is unless a program goes on for too long. -/
def after : HostOp → Store → Option Store
  | run fuel globals p, s => (Program.run fuel globals p s).store?
  | declare scope n role, s => (scope.declare n role s).store?
  | define scope n role v, s => (scope.define n role v s).store?
  | assign scope n v, s => (scope.assign n v s).store?
  | new, s => (Scope.new s).store?
  | child scope, s => (scope.child s).store?
  | snapshot scope, s => (scope.snapshot s).store?

/-- The stores that the operation leads through: those after the steps of a program, or the one
after the operation itself. -/
def moments : HostOp → Store → List Store
  | run fuel globals p, s => (p.steps fuel globals s).map Step.after
  | op, s => (op.after s).toList

def afterAll : List HostOp → Store → Option Store
  | [], s => some s
  | op :: rest, s => (op.after s).bind (afterAll rest)

def momentsOfAll : List HostOp → Store → List Store
  | [], _ => []
  | op :: rest, s => op.moments s ++ (op.after s).elim [] (momentsOfAll rest)

end HostOp

/-- Each of the stores preserves what there was in the one before, and the last one is the second. -/
def Store.Steadily (s : Store) : List Store → Store → Prop
  | [], s' => s = s'
  | t :: rest, s' => s.Preserves t ∧ t.Steadily rest s'

namespace Store.Steadily

variable {s s' s'' : Store} {stores stores' : List Store}

theorem append (h : s.Steadily stores s') (h' : s'.Steadily stores' s'') :
    s.Steadily (stores ++ stores') s'' := by
  induction stores generalizing s with
  | nil =>
    obtain rfl := h
    exact h'
  | cons t rest ih => exact ⟨h.1, ih h.2⟩

theorem isChain (h : s.Steadily stores s') : (s :: stores).IsChain Store.Preserves := by
  induction stores generalizing s with
  | nil => exact .singleton s
  | cons t rest ih => exact .cons_cons h.1 (ih h.2)

theorem getLast?_eq (h : s.Steadily stores s') : (s :: stores).getLast? = some s' := by
  induction stores generalizing s with
  | nil => exact congrArg some h
  | cons t rest ih =>
    rw [List.getLast?_cons_cons]
    exact ih h.2

theorem of_leads {log : List Step} (h : Leads s log s') (hlog : ∀ step ∈ log, step.Preserves) :
    s.Steadily (log.map Step.after) s' := by
  induction log generalizing s with
  | nil => exact h
  | cons step rest ih =>
    rw [List.forall_mem_cons] at hlog
    obtain ⟨rfl, h⟩ := h
    exact ⟨hlog.1, ih h hlog.2⟩

end Store.Steadily

namespace HostOp

/-- What is done to scopes edits their frames. -/
theorem steadily_of_edits {α : Type} (r : Run α) {s : Store} (ids : List FrameId)
    {Q : α → Store → Prop} (h : r.Edits (fun _ => True) ids s Q) :
    ∃ s', s.Steadily (r s).store?.toList s' ∧ ∀ t ∈ (r s).store?, t = s' := by
  cases hs : (r s).store? with
  | none => exact ⟨s, rfl, nofun⟩
  | some s' => exact ⟨s', ⟨(h.store? s' hs).preserves, rfl⟩, fun _ ht => (Option.some.inj ht).symm⟩

/-- An operation leads steadily to the store in which it ends. -/
theorem steadily (op : HostOp) (s : Store) :
    ∃ s', s.Steadily (op.moments s) s' ∧ ∀ t ∈ op.after s, t = s' := by
  cases op with
  | run fuel globals p =>
    obtain ⟨s', hleads, hend⟩ := p.exists_leads fuel globals s
    exact ⟨s', .of_leads hleads (p.steps_preserve fuel globals s), hend⟩
  | declare scope n role =>
    exact steadily_of_edits _ scope.chain (Scope.declare_edits List.mem_cons_self)
  | define scope n role v =>
    exact steadily_of_edits _ scope.chain
      (Scope.define_edits ⟨List.mem_cons_self, .inr (List.Subset.refl _)⟩ fun _ => trivial)
  | assign scope n v =>
    exact steadily_of_edits _ scope.chain (Scope.assign_edits (fun _ => trivial) (List.Subset.refl _))
  | new => exact steadily_of_edits Scope.new [] Scope.new_edits
  | child scope => exact steadily_of_edits scope.child [] Scope.child_edits
  | snapshot scope => exact steadily_of_edits scope.snapshot [] Scope.snapshot_edits

theorem steadily_all (ops : List HostOp) (s : Store) :
    ∃ s', s.Steadily (momentsOfAll ops s) s' ∧ ∀ t ∈ afterAll ops s, t = s' := by
  induction ops generalizing s with
  | nil => exact ⟨s, rfl, fun _ ht => (Option.some.inj ht).symm⟩
  | cons op rest ih =>
    obtain ⟨s', hop, hafter⟩ := op.steadily s
    unfold momentsOfAll afterAll
    cases hs : op.after s with
    | none =>
      refine ⟨s', ?_, nofun⟩
      rwa [Option.elim_none, List.append_nil]
    | some t =>
      obtain rfl := hafter t hs
      obtain ⟨s'', hrest, hend⟩ := ih t
      exact ⟨s'', hop.append hrest, hend⟩

/-- Whatever a host does, every binding stays from each moment to all later ones, and the last
moment is the one where the host ends. -/
theorem bindings_stay (ops : List HostOp) (s : Store) :
    (s :: momentsOfAll ops s).Pairwise Store.Preserves ∧
      ∀ s' ∈ afterAll ops s, (s :: momentsOfAll ops s).getLast? = some s' := by
  obtain ⟨s', hops, hend⟩ := steadily_all ops s
  constructor
  · exact List.isChain_iff_pairwise.mp hops.isChain
  · intro t ht
    rw [hend t ht]
    exact hops.getLast?_eq

end HostOp

end Offside
