import Offside.Proofs.Bindings.Stability
import Offside.Proofs.Store.Machines

/-!
# Void is never stored

A call without a result gives void, which an expression may go on with. But no name, no list and no
dictionary ever has it: not after any step of a run, and not after anything else that a host does to
scopes, whether or not it fails.
-/

namespace Offside

/-- A value that may be stored. -/
def Value.IsResult (v : Value) : Prop := v.isVoid = false

/-- Neither names nor lists nor dictionaries have void in them. -/
abbrev Store.IsVoidFree (s : Store) : Prop := s.Holds Value.IsResult

theorem Value.makes_isResult : Makes IsResult where
  plain {v} h := by cases v <;> first | rfl | cases h
  function _ := rfl
  classObject _ := rfl
  classInstance _ := rfl

namespace HostOp

variable {s : Store}

theorem isVoidFree_of_edits {α : Type} (r : Run α) (ids : List FrameId) {Q : α → Store → Prop}
    (hs : s.IsVoidFree) (h : r.Edits Value.IsResult ids s Q) :
    ∀ t ∈ (r s).store?.toList, t.IsVoidFree :=
  fun t ht => (h.store? t (Option.mem_toList.mp ht)).holds hs

theorem moments_isVoidFree (op : HostOp) (hs : s.IsVoidFree) :
    ∀ t ∈ op.moments s, t.IsVoidFree := by
  cases op with
  | run fuel globals p =>
    obtain ⟨s', hleads, -⟩ := p.exists_leads fuel globals s
    exact List.forall_mem_map.mpr
      (hleads.holds_after hs (p.steps_edit Value.makes_isResult fuel globals hs))
  | declare scope n role =>
    exact isVoidFree_of_edits _ scope.chain hs (Scope.declare_edits List.mem_cons_self)
  | define scope n role v =>
    exact isVoidFree_of_edits _ scope.chain hs
      (Scope.define_edits ⟨List.mem_cons_self, .inr (List.Subset.refl _)⟩ id)
  | assign scope n v =>
    exact isVoidFree_of_edits _ scope.chain hs (Scope.assign_edits id (List.Subset.refl _))
  | new => exact isVoidFree_of_edits Scope.new [] hs Scope.new_edits
  | child scope => exact isVoidFree_of_edits scope.child [] hs Scope.child_edits
  | snapshot scope => exact isVoidFree_of_edits scope.snapshot [] hs Scope.snapshot_edits

theorem after_isVoidFree (op : HostOp) (hs : s.IsVoidFree) : ∀ t ∈ op.after s, t.IsVoidFree := by
  intro t ht
  obtain ⟨s', hsteadily, hend⟩ := op.steadily s
  obtain rfl := hend t ht
  obtain rfl | hmem := List.mem_cons.mp (List.mem_of_getLast? hsteadily.getLast?_eq)
  · exact hs
  · exact op.moments_isVoidFree hs t hmem

theorem momentsOfAll_isVoidFree (ops : List HostOp) (hs : s.IsVoidFree) :
    ∀ t ∈ momentsOfAll ops s, t.IsVoidFree := by
  induction ops generalizing s with
  | nil => exact List.forall_mem_nil _
  | cons op rest ih =>
    unfold momentsOfAll
    refine List.forall_mem_append.mpr ⟨op.moments_isVoidFree hs, ?_⟩
    cases hafter : op.after s with
    | none => exact List.forall_mem_nil _
    | some t => exact ih (op.after_isVoidFree hs t hafter)

end HostOp

/-- From a new machine on, nothing that a host does ever puts void into the store. -/
theorem Machine.void_never_stored (actions : List Action) (room : Option Nat) (ops : List HostOp) :
    ∀ s ∈ (new actions room).store :: HostOp.momentsOfAll ops (new actions room).store,
      s.IsVoidFree := by
  have hnew : (new actions room).store.IsVoidFree := holds_new actions room fun _ => rfl
  exact List.forall_mem_cons.mpr ⟨hnew, HostOp.momentsOfAll_isVoidFree ops hnew⟩

/-- A program that tries to keep what `print` gives. -/
def keepingVoid : Program :=
  [.declare "x" true, .assign (.name "x") (.call (.name "print") [] [])]

theorem void_not_kept :
    ∃ s ∈ HostOp.momentsOfAll [.run 9 (Machine.new Machine.standard none).globals keepingVoid]
      (Machine.new Machine.standard none).store, s.IsVoidFree := by
  obtain ⟨s, hs⟩ : ∃ s, s ∈ HostOp.momentsOfAll
      [.run 9 (Machine.new Machine.standard none).globals keepingVoid]
      (Machine.new Machine.standard none).store := ⟨_, List.mem_cons_self⟩
  exact ⟨s, hs, Machine.void_never_stored _ _ _ s (List.mem_cons_of_mem _ hs)⟩

end Offside
