import Offside.Proofs.Store.Frames

/-!
# Frames that look the same later

A part of a run loses no frame, and changes only some. What is looked at may be the whole frame or
only its names.
-/

namespace Offside.Store

def HasScope (s : Store) (scope : Scope) : Prop := ∀ id ∈ scope.chain, s.HasFrame id

/-- No frame is lost, and all but these look the same. -/
structure Keeps {α : Type} (look : Frame → α) (ids : List FrameId) (s s' : Store) : Prop where
  size : s.frames.size ≤ s'.frames.size
  same : ∀ id, s.HasFrame id → id ∉ ids → look (s'.frame id) = look (s.frame id)

namespace Keeps

variable {α : Type} {look : Frame → α} {ids ids' : List FrameId} {s s' s'' : Store}
  {id : FrameId} {scope : Scope}

theorem refl : Keeps look ids s s := ⟨Nat.le_refl _, fun _ _ _ => rfl⟩

theorem hasFrame (h : Keeps look ids s s') (hid : s.HasFrame id) : s'.HasFrame id :=
  Nat.lt_of_lt_of_le hid h.size

theorem hasScope (h : Keeps look ids s s') (hscope : s.HasScope scope) : s'.HasScope scope :=
  fun id hid => h.hasFrame (hscope id hid)

/-- Frames that are new after the first part need not be listed. -/
theorem trans_new (h : Keeps look ids s s') (h' : Keeps look ids' s' s'')
    (hids : ∀ id ∈ ids', s.HasFrame id → id ∈ ids) : Keeps look ids s s'' := by
  constructor
  · exact Nat.le_trans h.size h'.size
  · intro id hid hout
    rw [h'.same id (h.hasFrame hid) fun hin => hout (hids id hin hid), h.same id hid hout]

theorem trans (h : Keeps look ids s s') (h' : Keeps look ids s' s'') : Keeps look ids s s'' :=
  h.trans_new h' fun _ hid _ => hid

theorem mono (h : Keeps look ids s s') (hids : ids ⊆ ids') : Keeps look ids' s s' :=
  ⟨h.size, fun id hid hout => h.same id hid fun hin => hout (hids hin)⟩

theorem weaken (h : Keeps look [] s s') : Keeps look ids s s' := h.mono (List.nil_subset _)

theorem of_frames_eq (h : s'.frames = s.frames) : Keeps look ids s s' := by
  refine ⟨Nat.le_of_eq (congrArg Array.size h.symm), ?_⟩
  intro id _ _
  unfold frame
  rw [h]

theorem withFrames (s : Store) (frames : List Frame) :
    Keeps look ids s (s.withFrames frames) := by
  constructor
  · rw [size_withFrames]
    omega
  · intro id hid _
    rw [frame_withFrames_of_hasFrame hid]

theorem modifyFrame (s : Store) (id : FrameId) (f : Frame → Frame) :
    Keeps look [id] s (s.modifyFrame id f) := by
  refine ⟨Nat.le_of_eq (size_modifyFrame ..).symm, ?_⟩
  intro id' _ hne
  rw [frame_modifyFrame_ne (List.ne_of_not_mem_cons hne)]

/-- The change of the frame cannot be seen. -/
theorem modifyFrame_same {f : Frame → Frame} (h : look (f (s.frame id)) = look (s.frame id)) :
    Keeps look [] s (s.modifyFrame id f) := by
  refine ⟨Nat.le_of_eq (size_modifyFrame ..).symm, ?_⟩
  intro id' _ _
  rcases frame_modifyFrame_eq_or s id id' f with heq | ⟨rfl, heq⟩
  · rw [heq]
  · rw [heq, h]

end Keeps

end Offside.Store
