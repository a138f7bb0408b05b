import Mathlib.Data.List.GetD
import Offside.Proofs.Store.Contents

/-!
# Names in frames

What declaring, assigning and opening scopes do to the frames of the store. Assigning keeps the
names of every frame, and declaring adds one name to the innermost frame.
-/

namespace Offside

/-! ## Frames -/

namespace Frame

variable {frame : Frame} {n : String} {b : Binding}

def names (frame : Frame) : List String := frame.map Prod.fst

theorem isSome_binding? : (frame.binding? n).isSome = true ↔ n ∈ frame.names := by
  unfold binding? names
  induction frame with
  | nil => simp
  | cons e rest ih =>
    rw [List.lookup_cons, List.map_cons, List.mem_cons]
    cases h : n == e.1 with
    | true => exact iff_of_true rfl (.inl (by simpa using h))
    | false =>
      have hne : n ≠ e.1 := by simpa using h
      rw [ih, or_iff_right hne]

theorem declares_iff : frame.declares n = true ↔ n ∈ frame.names := isSome_binding?

theorem mem_of_binding? (h : frame.binding? n = some b) : (n, b) ∈ frame := by
  unfold binding? at h
  induction frame with
  | nil => cases h
  | cons e rest ih =>
    rw [List.lookup_cons] at h
    cases hn : n == e.1 with
    | true =>
      rw [hn] at h
      obtain rfl : n = e.1 := by simpa using hn
      cases h
      exact List.mem_cons_self
    | false =>
      rw [hn] at h
      exact List.mem_cons_of_mem _ (ih h)

theorem names_set : (frame.set n b).names = frame.names := by
  unfold names set
  rw [List.map_map]
  apply List.map_congr_left
  intro e _
  show (if e.1 = n then (n, b) else e).1 = e.1
  split
  · rename_i h
    exact h.symm
  · rfl

theorem binding?_cons_of_ne {n' : String} (h : n' ≠ n) :
    binding? ((n, b) :: frame) n' = frame.binding? n' := by
  have hne : (n' == n) = false := by simpa using h
  unfold binding?
  rw [List.lookup_cons, hne]

theorem binding?_set_of_ne {n' : String} (h : n' ≠ n) :
    (frame.set n b).binding? n' = frame.binding? n' := by
  induction frame with
  | nil => rfl
  | cons e rest ih =>
    obtain ⟨m, c⟩ := e
    show binding? ((if m = n then (n, b) else (m, c)) :: set rest n b) n' = _
    by_cases hm : n' = m
    · subst hm
      rw [if_neg h]
      unfold binding?
      rw [List.lookup_cons, List.lookup_cons, beq_self_eq_true]
    · have hrest : binding? ((m, c) :: rest) n' = binding? rest n' := binding?_cons_of_ne hm
      rw [hrest, ← ih]
      split
      · exact binding?_cons_of_ne h
      · exact binding?_cons_of_ne hm

theorem binding?_set_self {b' : Binding} (h : frame.binding? n = some b') :
    (frame.set n b).binding? n = some b := by
  induction frame with
  | nil => cases h
  | cons e rest ih =>
    obtain ⟨m, c⟩ := e
    show binding? ((if m = n then (n, b) else (m, c)) :: set rest n b) n = _
    by_cases hm : m = n
    · rw [if_pos hm]
      unfold binding?
      rw [List.lookup_cons, beq_self_eq_true]
    · rw [binding?_cons_of_ne (Ne.symm hm)] at h
      rw [if_neg hm, binding?_cons_of_ne (Ne.symm hm)]
      exact ih h

/-- Setting the first name when it does not occur again. -/
theorem set_cons_self {b' : Binding} (h : n ∉ frame.names) :
    set ((n, b) :: frame) n b' = (n, b') :: frame := by
  have hrest : set frame n b' = frame := by
    unfold set
    rw [List.map_congr_left (g := id), List.map_id]
    intro e he
    rw [if_neg]
    · rfl
    · rintro rfl
      exact h (List.mem_map_of_mem he)
  unfold set at hrest ⊢
  rw [List.map_cons, hrest, if_pos rfl]

theorem mem_set {e : String × Binding} (h : e ∈ frame.set n b) : e = (n, b) ∨ e ∈ frame := by
  obtain ⟨e', he', rfl⟩ := List.mem_map.mp h
  split
  · exact .inl rfl
  · exact .inr he'

end Frame

namespace Store

variable {P : Value → Prop} {s s' : Store} {id id' : FrameId} {n : String}

def HasFrame (s : Store) (id : FrameId) : Prop := id.index < s.frames.size

def names (s : Store) (id : FrameId) : List String := (s.frame id).names

theorem frame_modifyFrame (s : Store) (id id' : FrameId) (f : Frame → Frame) :
    (s.modifyFrame id f).frame id' =
      if id.index = id'.index ∧ id'.index < s.frames.size then f (s.frame id') else s.frame id' :=
  getD_modify ..

theorem frame_modifyFrame_self (h : s.HasFrame id) (f : Frame → Frame) :
    (s.modifyFrame id f).frame id = f (s.frame id) := by
  rw [frame_modifyFrame, if_pos ⟨rfl, h⟩]

theorem frame_modifyFrame_ne (h : id' ≠ id) (f : Frame → Frame) :
    (s.modifyFrame id f).frame id' = s.frame id' := by
  rw [frame_modifyFrame, if_neg]
  rintro ⟨heq, -⟩
  apply h
  cases id'
  exact congrArg FrameId.mk heq.symm

theorem size_modifyFrame (s : Store) (id : FrameId) (f : Frame → Frame) :
    (s.modifyFrame id f).frames.size = s.frames.size :=
  Array.size_modify

theorem modifyFrame_modifyFrame (s : Store) (id : FrameId) (f g : Frame → Frame) :
    (s.modifyFrame id f).modifyFrame id g = s.modifyFrame id fun frame => g (f frame) := by
  unfold modifyFrame
  simp only [Store.mk.injEq, and_true]
  apply Array.ext'
  simp [List.modify_modify_eq, Function.comp_def]

theorem modifyFrame_congr {f g : Frame → Frame} (h : f (s.frame id) = g (s.frame id)) :
    s.modifyFrame id f = s.modifyFrame id g := by
  unfold modifyFrame
  simp only [Store.mk.injEq, and_true]
  apply Array.ext (by simp)
  intro i hi hi'
  rw [Array.getElem_modify, Array.getElem_modify]
  split
  · rename_i heq
    subst heq
    have hlt : id.index < s.frames.size := by simpa using hi
    simpa [frame, Array.getD_eq_getD_getElem?, Array.getElem?_eq_getElem hlt] using h
  · rfl

theorem modifyFrame_of_not_hasFrame (h : ¬ s.HasFrame id) (f : Frame → Frame) :
    s.modifyFrame id f = s := by
  have hframes : s.frames.modify id.index f = s.frames := by
    refine Array.ext (by simp) fun i hi hi' => ?_
    rw [Array.getElem_modify, if_neg]
    rintro rfl
    exact h hi'
  unfold modifyFrame
  rw [hframes]

/-- The frame may be one that the store does not have. -/
theorem frame_modifyFrame_eq_or (s : Store) (id id' : FrameId) (f : Frame → Frame) :
    (s.modifyFrame id f).frame id' = s.frame id' ∨
      id' = id ∧ (s.modifyFrame id f).frame id' = f (s.frame id) := by
  by_cases h : id' = id
  · subst h
    rw [frame_modifyFrame]
    split
    · exact .inr ⟨rfl, rfl⟩
    · exact .inl rfl
  · exact .inl (frame_modifyFrame_ne h f)

theorem Holds.modifyFrame (h : s.Holds P) {f : Frame → Frame}
    (hf : ∀ e ∈ f (s.frame id), ∀ v ∈ e.2.value, P v) : (s.modifyFrame id f).Holds P := by
  refine ⟨?_, h.lists, h.dictionaries⟩
  intro id'
  rcases frame_modifyFrame_eq_or s id id' f with heq | ⟨-, heq⟩
  · rw [heq]
    exact h.frames id'
  · rw [heq]
    exact hf

theorem Holds.cons (h : s.Holds P) {b : Binding} (hb : ∀ v ∈ b.value, P v) :
    (s.modifyFrame id fun frame => (n, b) :: frame).Holds P := by
  apply h.modifyFrame
  intro e he v hv
  rcases List.mem_cons.mp he with rfl | he
  · exact hb v hv
  · exact h.frames id e he v hv

/-! ## New frames -/

/-- The store with further frames. -/
def withFrames (s : Store) (frames : List Frame) : Store := { s with frames := s.frames ++ frames }

theorem size_withFrames (s : Store) (frames : List Frame) :
    (s.withFrames frames).frames.size = s.frames.size + frames.length := by
  unfold withFrames
  rw [← Array.length_toList, Array.toList_appendList, List.length_append, Array.length_toList]

theorem hasFrame_withFrames (frames : List Frame) (h : s.HasFrame id) :
    (s.withFrames frames).HasFrame id := by
  unfold HasFrame
  rw [size_withFrames]
  exact Nat.lt_add_right _ h

theorem hasFrame_withFrames_new (s : Store) {frames : List Frame} {i : Nat}
    (hi : i < frames.length) : (s.withFrames frames).HasFrame ⟨s.frames.size + i⟩ := by
  unfold HasFrame
  rw [size_withFrames]
  exact Nat.add_lt_add_left hi _

/-- The frame of a scope that has just been opened. -/
theorem hasFrame_opened (s : Store) : (s.withFrames [[]]).HasFrame ⟨s.frames.size⟩ := by
  unfold HasFrame
  rw [size_withFrames]
  exact Nat.lt_succ_self _

theorem not_hasFrame_new (s : Store) (i : Nat) : ¬ s.HasFrame ⟨s.frames.size + i⟩ :=
  Nat.not_lt.mpr (Nat.le_add_right ..)

theorem frame_withFrames (s : Store) (frames : List Frame) (id : FrameId) :
    (s.withFrames frames).frame id = (s.frames.toList ++ frames).getD id.index [] := by
  unfold frame withFrames
  rw [Array.getD_eq_getD_getElem?, ← Array.getElem?_toList, Array.toList_appendList,
    List.getD_eq_getElem?_getD]

theorem frame_withFrames_of_hasFrame (h : s.HasFrame id) (frames : List Frame) :
    (s.withFrames frames).frame id = s.frame id := by
  rw [frame_withFrames, List.getD_append _ _ _ _ (by rwa [Array.length_toList])]
  unfold frame
  rw [Array.getD_eq_getD_getElem?, ← Array.getElem?_toList, List.getD_eq_getElem?_getD]

theorem frame_withFrames_new (s : Store) (frames : List Frame) (i : Nat) :
    (s.withFrames frames).frame ⟨s.frames.size + i⟩ = frames.getD i [] := by
  rw [frame_withFrames, List.getD_append_right _ _ _ _ (by simp)]
  simp

/-- A frame of the store with further frames is an old one, a new one or none at all. -/
theorem mem_frame_withFrames {frames : List Frame} {e : String × Binding}
    (h : e ∈ (s.withFrames frames).frame id) : e ∈ s.frame id ∨ ∃ frame ∈ frames, e ∈ frame := by
  by_cases hid : s.HasFrame id
  · rw [frame_withFrames_of_hasFrame hid] at h
    exact .inl h
  · obtain ⟨i, hi⟩ := Nat.exists_eq_add_of_le (Nat.le_of_not_lt hid)
    obtain rfl : id = ⟨s.frames.size + i⟩ := by
      cases id
      exact congrArg FrameId.mk hi
    rw [frame_withFrames_new] at h
    by_cases hlt : i < frames.length
    · rw [List.getD_eq_getElem _ _ hlt] at h
      exact .inr ⟨frames[i], List.getElem_mem hlt, h⟩
    · rw [List.getD_eq_default _ _ (Nat.le_of_not_lt hlt)] at h
      cases h

theorem Holds.withFrames (h : s.Holds P) {frames : List Frame}
    (hframes : ∀ frame ∈ frames, ∀ e ∈ frame, ∀ v ∈ e.2.value, P v) :
    (s.withFrames frames).Holds P := by
  refine ⟨?_, h.lists, h.dictionaries⟩
  intro id e he
  rcases mem_frame_withFrames he with he | ⟨frame, hframe, he⟩
  · exact h.frames id e he
  · exact hframes frame hframe e he

/-! ## Who declares a name -/

/-- Some frame of the chain declares the name. -/
def Declares (s : Store) (chain : List FrameId) (n : String) : Prop :=
  ∃ id ∈ chain, n ∈ s.names id

theorem owner?_eq_some {chain : List FrameId} (h : s.owner? n chain = some id) :
    id ∈ chain ∧ n ∈ s.names id := by
  induction chain with
  | nil => cases h
  | cons first outer ih =>
    unfold owner? at h
    split at h
    · rename_i hdeclares
      cases h
      exact ⟨List.mem_cons_self, Frame.declares_iff.mp hdeclares⟩
    · obtain ⟨hmem, hn⟩ := ih h
      exact ⟨List.mem_cons_of_mem _ hmem, hn⟩

theorem owner?_eq_none {chain : List FrameId} (h : s.owner? n chain = none) :
    ¬ s.Declares chain n := by
  induction chain with
  | nil => exact fun ⟨_, hmem, _⟩ => nomatch hmem
  | cons first outer ih =>
    unfold owner? at h
    split at h
    · cases h
    · rename_i hdeclares
      rintro ⟨id, hmem, hn⟩
      rcases List.mem_cons.mp hmem with rfl | hmem
      · exact hdeclares (Frame.declares_iff.mpr hn)
      · exact ih h ⟨id, hmem, hn⟩

theorem exists_owner {chain : List FrameId} (h : s.Declares chain n) :
    ∃ id b, s.owner? n chain = some id ∧ (s.frame id).binding? n = some b := by
  cases howner : s.owner? n chain with
  | none => exact absurd h (owner?_eq_none howner)
  | some id =>
    obtain ⟨b, hb⟩ := Option.isSome_iff_exists.mp
      (Frame.isSome_binding?.mpr (owner?_eq_some howner).2)
    exact ⟨id, b, rfl, hb⟩

theorem hasFrame_of_mem_names (h : n ∈ s.names id) : s.HasFrame id := by
  refine Classical.byContradiction fun hframe => ?_
  have hempty : s.frame id = [] := by
    rw [frame, Array.getD_eq_getD_getElem?, Array.getElem?_eq_none (Nat.le_of_not_lt hframe)]
    rfl
  rw [names, hempty] at h
  cases h

/-- An assignment does not change which frames declare a name. -/
theorem owner?_set {n' : String} (b : Binding) (chain : List FrameId) :
    (s.modifyFrame id fun frame => frame.set n b).owner? n' chain = s.owner? n' chain := by
  induction chain with
  | nil => rfl
  | cons first outer ih =>
    have hdeclares : ((s.modifyFrame id fun frame => frame.set n b).frame first).declares n' =
        (s.frame first).declares n' := by
      rw [Bool.eq_iff_iff, Frame.declares_iff, Frame.declares_iff]
      rcases frame_modifyFrame_eq_or s id first fun frame => frame.set n b with heq | ⟨rfl, heq⟩
      · rw [heq]
      · rw [heq, Frame.names_set]
    unfold owner?
    rw [hdeclares, ih]

end Store

/-! ## Scopes -/

namespace Scope

open Store Run

variable {s : Store} {scope : Scope} {n : String} {v : Value} {role : Role}

theorem declaresLocally_iff : scope.declaresLocally n s = true ↔ n ∈ s.names scope.innermost :=
  Frame.declares_iff

theorem declare_meets :
    (scope.declare n role).Meets s
      (fun _ s' => n ∉ s.names scope.innermost ∧
        s' = s.modifyFrame scope.innermost fun frame => (n, ⟨role, none⟩) :: frame)
      (fun e s' => n ∈ s.names scope.innermost ∧ e = .redeclaration n ∧ s' = s) := by
  unfold declare
  apply meets_bind
  apply meets_read
  split
  · rename_i h
    exact ⟨declaresLocally_iff.mp h, rfl, rfl⟩
  · rename_i h
    exact ⟨fun hn => h (declaresLocally_iff.mpr hn), rfl⟩

/-- The fault of an assignment to a name that is declared. -/
def IsAssignmentFault (n : String) (e : Fault) : Prop :=
  e = .voidAssignment n ∨ e = .immutableReassignment n

theorem checkAssign_eq_error {b : Binding} {e : Fault} (h : checkAssign n b v = .error e) :
    IsAssignmentFault n e := by
  unfold checkAssign at h
  split at h
  · cases h
    exact .inl rfl
  · split at h
    · cases h
      exact .inr rfl
    · cases h

theorem checkAssign_eq_ok {b : Binding} (h : checkAssign n b v = .ok ()) :
    v.isVoid = false ∧ ¬ (b.role = .immutableVariable ∧ b.value.isSome) := by
  unfold checkAssign at h
  split at h
  · cases h
  · rename_i hvoid
    split at h
    · cases h
    · rename_i hmutable
      exact ⟨by simpa using hvoid, hmutable⟩

/-- An assignment changes the binding of the name in the nearest frame that declares it. -/
theorem assign_meets :
    (scope.assign n v).Meets s
      (fun _ s' => ∃ id b, s.owner? n scope.chain = some id ∧ (s.frame id).binding? n = some b ∧
        checkAssign n b v = .ok () ∧
        s' = s.modifyFrame id fun frame => frame.set n { b with value := some v })
      (fun e s' => s' = s ∧
        (¬ s.Declares scope.chain n ∧ e = .undeclaredVariable n ∨ IsAssignmentFault n e)) := by
  unfold Meets assign
  cases howner : s.owner? n scope.chain with
  | none => exact ⟨rfl, .inl ⟨owner?_eq_none howner, rfl⟩⟩
  | some id =>
    dsimp only
    have hn := (owner?_eq_some howner).2
    obtain ⟨b, hb⟩ := Option.isSome_iff_exists.mp (Frame.isSome_binding?.mpr hn)
    rw [hb]
    dsimp only
    cases hcheck : checkAssign n b v with
    | error e => exact ⟨rfl, .inr (checkAssign_eq_error hcheck)⟩
    | ok u => exact ⟨id, b, rfl, hb, hcheck, rfl⟩

/-- A binding that is set is found by the scopes that find the name in that frame, and by no other
name. -/
theorem lookup_set {id : FrameId} {b : Binding} (hb : (s.frame id).binding? n = some b)
    (b' : Binding) (m : String) :
    scope.lookup m (s.modifyFrame id fun frame => frame.set n b') =
      if m = n ∧ s.owner? n scope.chain = some id then .ok b' else scope.lookup m s := by
  have hframe : s.HasFrame id :=
    hasFrame_of_mem_names (Frame.isSome_binding?.mp (by rw [hb]; rfl))
  unfold lookup
  rw [owner?_set]
  cases howner : s.owner? m scope.chain with
  | none =>
    rw [if_neg]
    · rfl
    · rintro ⟨rfl, h⟩
      rw [howner] at h
      cases h
  | some id' =>
    rw [Option.bind_some, Option.bind_some]
    by_cases hid : id' = id
    · subst hid
      rw [frame_modifyFrame_self hframe]
      by_cases hm : m = n
      · subst hm
        rw [Frame.binding?_set_self hb, if_pos ⟨rfl, howner⟩]
      · rw [Frame.binding?_set_of_ne hm, if_neg fun h => hm h.1]
    · rw [frame_modifyFrame_ne hid, if_neg]
      rintro ⟨rfl, h⟩
      exact hid (Option.some.inj (howner.symm.trans h))

/-- A name has the value that was assigned to it. -/
theorem get_of_assign {t : Store} (h : scope.assign n v s = .done () t) :
    scope.get n t = .ok v := by
  obtain ⟨id, b, howner, hb, -, rfl⟩ := assign_meets.of_done h
  unfold get
  rw [lookup_set hb, if_pos ⟨rfl, howner⟩]
  rfl

/-- A name is found where it has just been declared. -/
theorem owner?_cons (hframe : s.HasFrame scope.innermost) (b : Binding) :
    (s.modifyFrame scope.innermost fun frame => (n, b) :: frame).owner? n scope.chain =
      some scope.innermost := by
  unfold chain owner?
  rw [if_pos]
  rw [frame_modifyFrame_self hframe]
  exact Frame.declares_iff.mpr List.mem_cons_self

theorem binding?_cons (hframe : s.HasFrame scope.innermost) (b : Binding) :
    ((s.modifyFrame scope.innermost fun frame => (n, b) :: frame).frame
      scope.innermost).binding? n = some b := by
  rw [frame_modifyFrame_self hframe]
  simp [Frame.binding?]

/-- A definition puts the name with its value before the others, in a frame of the store. -/
theorem define_meets (hframe : s.HasFrame scope.innermost) :
    (scope.define n role v).Meets s
      (fun _ s' => n ∉ s.names scope.innermost ∧ v.isVoid = false ∧
        s' = s.modifyFrame scope.innermost fun frame => (n, ⟨role, some v⟩) :: frame)
      (fun e s' => n ∈ s.names scope.innermost ∧ e = .redeclaration n ∧ s' = s ∨
        n ∉ s.names scope.innermost ∧ IsAssignmentFault n e ∧
          s' = s.modifyFrame scope.innermost fun frame => (n, ⟨role, none⟩) :: frame) := by
  apply meets_bind
  refine declare_meets.mono ?_ fun e s' h => .inl h
  rintro _ _ ⟨hn, rfl⟩
  have howner : (s.modifyFrame scope.innermost fun frame => (n, ⟨role, none⟩) :: frame).owner? n
      scope.chain = some scope.innermost := owner?_cons hframe ⟨role, none⟩
  refine assign_meets.mono ?_ ?_
  · rintro _ _ ⟨id, b, hid, hb, hcheck, rfl⟩
    rw [howner] at hid
    cases hid
    obtain rfl : ⟨role, none⟩ = b :=
      Option.some.inj ((binding?_cons hframe ⟨role, none⟩).symm.trans hb)
    refine ⟨hn, (checkAssign_eq_ok hcheck).1, ?_⟩
    rw [modifyFrame_modifyFrame]
    apply modifyFrame_congr
    exact Frame.set_cons_self hn
  · rintro e _ ⟨rfl, he⟩
    rcases he with ⟨hdeclares, -⟩ | he
    · exact absurd ⟨_, (owner?_eq_some howner)⟩ hdeclares
    · exact .inr ⟨hn, he, rfl⟩

/-! ## New scopes -/

theorem newFrame_nil (s : Store) : newFrame [] s = .done ⟨s.frames.size⟩ (s.withFrames [[]]) := by
  have hpush : s.frames.push [] = s.frames ++ [([] : Frame)] := by simp
  show Outcome.done _ { s with frames := s.frames.push [] } = _
  rw [hpush]
  rfl

theorem new_eq (s : Store) : new s = .done ⟨⟨s.frames.size⟩, []⟩ (s.withFrames [[]]) := by
  unfold new
  rw [bind_apply, newFrame_nil]
  rfl

theorem child_eq (scope : Scope) (s : Store) :
    scope.child s = .done ⟨⟨s.frames.size⟩, scope.chain⟩ (s.withFrames [[]]) := by
  unfold child
  rw [bind_apply, newFrame_nil]
  rfl

/-- The scope of frames from this one on that corresponds to a scope. -/
def copyAt (scope : Scope) (base : Nat) : Scope :=
  ⟨⟨base⟩, scope.outer.mapIdx fun i _ => ⟨base + 1 + i⟩⟩

theorem snapshot_eq (scope : Scope) (s : Store) :
    scope.snapshot s = .done (scope.copyAt s.frames.size) (s.withFrames (scope.chain.map s.frame)) :=
  rfl

theorem chain_copyAt (scope : Scope) (base : Nat) :
    (scope.copyAt base).chain = scope.chain.mapIdx fun i _ => ⟨base + i⟩ := by
  have hindex : (fun (i : Nat) (_ : FrameId) => (⟨base + 1 + i⟩ : FrameId)) =
      fun i _ => ⟨base + (i + 1)⟩ := by
    funext i _
    congr 1
    omega
  unfold chain copyAt
  rw [List.mapIdx_cons, hindex]
  rfl

theorem mem_copyAt {base : Nat} {id : FrameId} :
    id ∈ (scope.copyAt base).chain ↔ ∃ i < scope.chain.length, id = ⟨base + i⟩ := by
  rw [chain_copyAt, List.mem_mapIdx]
  constructor
  · rintro ⟨i, hi, rfl⟩
    exact ⟨i, hi, rfl⟩
  · rintro ⟨i, hi, rfl⟩
    exact ⟨i, hi, rfl⟩

theorem not_hasFrame_copyAt {id : FrameId} (h : id ∈ (scope.copyAt s.frames.size).chain) :
    ¬ s.HasFrame id := by
  obtain ⟨i, -, rfl⟩ := mem_copyAt.mp h
  exact s.not_hasFrame_new i

theorem hasFrame_copyAt {id : FrameId} (h : id ∈ (scope.copyAt s.frames.size).chain) :
    (s.withFrames (scope.chain.map s.frame)).HasFrame id := by
  obtain ⟨i, hi, rfl⟩ := mem_copyAt.mp h
  exact s.hasFrame_withFrames_new (by rwa [List.length_map])

/-- The frames of a snapshot are like those that they are copies of. -/
theorem frame_snapshot {i : Nat} (hi : i < scope.chain.length) :
    (s.withFrames (scope.chain.map s.frame)).frame ⟨s.frames.size + i⟩ =
      s.frame scope.chain[i] := by
  rw [frame_withFrames_new, List.getD_eq_getElem _ _ (by simpa using hi), List.getElem_map]

end Scope

end Offside
