import Mathlib.Data.List.Forall2
import Offside.Proofs.Store.Keeping
import Offside.Proofs.Store.Meets

/-!
# Frames that stand for one another

Two stores may hold the same bindings in frames with different handles. Operations on scopes that
correspond then end alike in both, whatever the other frames of the stores are.
-/

namespace Offside

/-- Both end well or with the same fault. -/
inductive Outcome.Alike {α β : Type} (V : α → β → Prop) (S : Store → Store → Prop) :
    Outcome α → Outcome β → Prop where
  | done {a : α} {b : β} {s t : Store} : V a b → S s t → Alike V S (.done a s) (.done b t)
  | failed {e : Fault} {s t : Store} : S s t → Alike V S (.failed e s) (.failed e t)

namespace Run

variable {α α' β β' : Type} {V : α → α' → Prop} {W : β → β' → Prop} {S : Store → Store → Prop}
  {r : Run α} {r' : Run α'} {f : α → Run β} {f' : α' → Run β'} {s t : Store}

theorem alike_bind (h : (r s).Alike V S (r' t))
    (hf : ∀ a a' s t, V a a' → S s t → (f a s).Alike W S (f' a' t)) :
    ((r >>= f) s).Alike W S ((r' >>= f') t) := by
  rw [bind_apply, bind_apply]
  generalize r s = o, r' t = o' at h
  cases h with
  | done hv hs => exact hf _ _ _ _ hv hs
  | failed hs => exact .failed hs

theorem alike_pure {b : β} {b' : β'} (hv : W b b') (hs : S s t) :
    ((pure b : Run β) s).Alike W S ((pure b' : Run β') t) := .done hv hs

theorem alike_read {g g' : Store → α} (hg : g s = g' t) (hs : S s t) :
    (read g s).Alike Eq S (read g' t) := .done hg hs

theorem alike_readExcept {g g' : Store → Except Fault α} (hg : g s = g' t) (hs : S s t) :
    (readExcept g s).Alike Eq S (readExcept g' t) := by
  unfold readExcept
  rw [hg]
  cases g' t with
  | ok a => exact .done rfl hs
  | error e => exact .failed hs

end Run

/-! ## Corresponding frames -/

namespace Store

/-- Corresponding frames are there and equal, and none corresponds to two others. -/
structure Mirrors (R : FrameId → FrameId → Prop) (s t : Store) : Prop where
  hasFrame : ∀ {i j}, R i j → s.HasFrame i ∧ t.HasFrame j
  frame : ∀ {i j}, R i j → s.frame i = t.frame j
  eq_iff : ∀ {i j i' j'}, R i j → R i' j' → (i = i' ↔ j = j')

/-- The correspondence that also relates the next frames of both stores, this many. -/
def AndNext (R : FrameId → FrameId → Prop) (s t : Store) (count : Nat) (i j : FrameId) : Prop :=
  R i j ∨ ∃ k < count, i = ⟨s.frames.size + k⟩ ∧ j = ⟨t.frames.size + k⟩

variable {R : FrameId → FrameId → Prop} {s t : Store} {chain chain' : List FrameId} {i j : FrameId}
  {n : String}

namespace Mirrors

/-- Frames of the first store that correspond to none may change. -/
theorem of_keeps {s' : Store} {ids : List FrameId} (h : Mirrors R s t) (hkeeps : Keeps id ids s s')
    (hids : ∀ i ∈ ids, ∀ j, ¬ R i j) : Mirrors R s' t where
  hasFrame hij := ⟨hkeeps.hasFrame (h.hasFrame hij).1, (h.hasFrame hij).2⟩
  frame {i j} hij := by
    have hsame := hkeeps.same i (h.hasFrame hij).1 fun hmem => hids i hmem j hij
    exact hsame.trans (h.frame hij)
  eq_iff := h.eq_iff

theorem modifyFrame (h : Mirrors R s t) (hij : R i j) (f : Frame → Frame) :
    Mirrors R (s.modifyFrame i f) (t.modifyFrame j f) where
  hasFrame {i' j'} hij' := by
    unfold HasFrame
    rw [size_modifyFrame, size_modifyFrame]
    exact h.hasFrame hij'
  frame {i' j'} hij' := by
    by_cases heq : i' = i
    · obtain rfl := (h.eq_iff hij' hij).mp heq
      subst heq
      rw [frame_modifyFrame_self (h.hasFrame hij).1, frame_modifyFrame_self (h.hasFrame hij).2,
        h.frame hij]
    · have hne : j' ≠ j := fun hj => heq ((h.eq_iff hij' hij).mpr hj)
      rw [frame_modifyFrame_ne heq, frame_modifyFrame_ne hne, h.frame hij']
  eq_iff := h.eq_iff

theorem withFrames (h : Mirrors R s t) (frames : List Frame) :
    Mirrors (AndNext R s t frames.length) (s.withFrames frames) (t.withFrames frames) where
  hasFrame := by
    rintro i j (hij | ⟨k, hk, rfl, rfl⟩)
    · have := h.hasFrame hij
      exact ⟨hasFrame_withFrames _ this.1, hasFrame_withFrames _ this.2⟩
    · exact ⟨hasFrame_withFrames_new s hk, hasFrame_withFrames_new t hk⟩
  frame := by
    rintro i j (hij | ⟨k, hk, rfl, rfl⟩)
    · obtain ⟨hi, hj⟩ := h.hasFrame hij
      rw [frame_withFrames_of_hasFrame hi, frame_withFrames_of_hasFrame hj, h.frame hij]
    · rw [frame_withFrames_new, frame_withFrames_new]
  eq_iff := by
    rintro i j i' j' (hij | ⟨k, hk, rfl, rfl⟩) (hij' | ⟨k', hk', rfl, rfl⟩)
    · exact h.eq_iff hij hij'
    -- A frame of the store is none of the next ones.
    · refine iff_of_false ?_ ?_ <;> rintro rfl
      · exact absurd (h.hasFrame hij).1 (not_hasFrame_new _ _)
      · exact absurd (h.hasFrame hij).2 (not_hasFrame_new _ _)
    · refine iff_of_false ?_ ?_ <;> rintro rfl
      · exact absurd (h.hasFrame hij').1 (not_hasFrame_new _ _)
      · exact absurd (h.hasFrame hij').2 (not_hasFrame_new _ _)
    · simp only [FrameId.mk.injEq, Nat.add_left_cancel_iff]

end Mirrors

/-- In chains of equal frames, the owners of a name correspond. -/
theorem owner?_of_frames (hR : ∀ {i j}, R i j → s.frame i = t.frame j)
    (hchain : List.Forall₂ R chain chain') (n : String) :
    s.owner? n chain = none ∧ t.owner? n chain' = none ∨
      ∃ i j, R i j ∧ s.owner? n chain = some i ∧ t.owner? n chain' = some j := by
  induction hchain with
  | nil => exact .inl ⟨rfl, rfl⟩
  | @cons i j outer outer' hij _ ih =>
    unfold owner?
    rw [hR hij]
    split
    · exact .inr ⟨i, j, hij, rfl, rfl⟩
    · exact ih

end Store

/-! ## Scopes of corresponding frames -/

namespace Scope

open Store Run

def Corresponds (R : FrameId → FrameId → Prop) (x y : Scope) : Prop :=
  List.Forall₂ R x.chain y.chain

variable {R R' : FrameId → FrameId → Prop} {s t : Store} {x y : Scope} {n : String} {v : Value}
  {role : Role}

theorem Corresponds.innermost (h : x.Corresponds R y) : R x.innermost y.innermost := by
  cases h with
  | cons hinnermost _ => exact hinnermost

theorem Corresponds.mono (h : x.Corresponds R y) (hR : ∀ i j, R i j → R' i j) :
    x.Corresponds R' y :=
  List.Forall₂.imp hR h

theorem lookup_eq_of_frames (hR : ∀ {i j}, R i j → s.frame i = t.frame j)
    (hxy : x.Corresponds R y) (n : String) : x.lookup n s = y.lookup n t := by
  unfold lookup
  obtain ⟨hs, ht⟩ | ⟨i, j, hij, hs, ht⟩ := owner?_of_frames hR hxy n
  · rw [hs, ht]
    rfl
  · rw [hs, ht, Option.bind_some, Option.bind_some, hR hij]

theorem get_eq_of_frames (hR : ∀ {i j}, R i j → s.frame i = t.frame j)
    (hxy : x.Corresponds R y) (n : String) : x.get n s = y.get n t := by
  unfold get
  rw [lookup_eq_of_frames hR hxy]

theorem declaresLocally_eq_of_frames (hR : ∀ {i j}, R i j → s.frame i = t.frame j)
    (hxy : x.Corresponds R y) (n : String) : x.declaresLocally n s = y.declaresLocally n t := by
  unfold declaresLocally
  rw [hR hxy.innermost]

theorem declare_alike (h : s.Mirrors R t) (hxy : x.Corresponds R y) :
    (x.declare n role s).Alike Eq (Mirrors R) (y.declare n role t) := by
  unfold declare
  rw [bind_apply, bind_apply]
  dsimp only [Run.read]
  rw [declaresLocally_eq_of_frames h.frame hxy]
  split
  · exact .failed h
  · exact .done rfl (h.modifyFrame hxy.innermost _)

theorem assign_alike (h : s.Mirrors R t) (hxy : x.Corresponds R y) :
    (x.assign n v s).Alike Eq (Mirrors R) (y.assign n v t) := by
  unfold assign
  obtain ⟨hs, ht⟩ | ⟨i, j, hij, hs, ht⟩ := owner?_of_frames h.frame hxy n
  · rw [hs, ht]
    exact .failed h
  · rw [hs, ht]
    dsimp only
    rw [h.frame hij]
    cases (t.frame j).binding? n with
    | none => exact .failed h
    | some b =>
      dsimp only
      cases checkAssign n b v with
      | error e => exact .failed h
      | ok u => exact .done rfl (h.modifyFrame hij _)

theorem define_alike (h : s.Mirrors R t) (hxy : x.Corresponds R y) :
    (x.define n role v s).Alike Eq (Mirrors R) (y.define n role v t) :=
  alike_bind (declare_alike h hxy) fun _ _ _ _ _ h => assign_alike h hxy

/-- Each frame of a copy corresponds to the frame at its place in the other copy. -/
theorem copyAt_corresponds (hlength : x.chain.length = y.chain.length) :
    (x.copyAt s.frames.size).Corresponds (AndNext R s t x.chain.length)
      (y.copyAt t.frames.size) := by
  unfold Corresponds
  rw [chain_copyAt, chain_copyAt, List.forall₂_iff_get]
  refine ⟨by simpa using hlength, fun k hk _ => .inr ⟨k, by simpa using hk, ?_, ?_⟩⟩
  all_goals simp only [List.get_eq_getElem, List.getElem_mapIdx]

theorem child_alike (h : s.Mirrors R t) (hxy : x.Corresponds R y) :
    (x.child s).Alike (Corresponds (AndNext R s t 1)) (Mirrors (AndNext R s t 1)) (y.child t) := by
  rw [child_eq, child_eq]
  refine .done (.cons (.inr ⟨0, Nat.one_pos, rfl, rfl⟩) ?_) (h.withFrames [[]])
  exact hxy.mono fun _ _ => .inl

theorem snapshot_alike (h : s.Mirrors R t) (hxy : x.Corresponds R y) :
    (x.snapshot s).Alike (Corresponds (AndNext R s t x.chain.length))
      (Mirrors (AndNext R s t x.chain.length)) (y.snapshot t) := by
  have hframes : x.chain.map s.frame = y.chain.map t.frame := by
    unfold Corresponds at hxy
    generalize x.chain = chain, y.chain = chain' at hxy
    induction hxy with
    | nil => rfl
    | cons hij _ ih => rw [List.map_cons, List.map_cons, h.frame hij, ih]
  rw [snapshot_eq, snapshot_eq, ← hframes]
  refine .done (copyAt_corresponds hxy.length_eq) ?_
  have := h.withFrames (x.chain.map s.frame)
  rwa [List.length_map] at this

end Scope

end Offside
