import Mathlib.Data.List.Nodup
import Mathlib.Data.List.Perm.Subperm
import Offside.Proofs.Closures.Snapshots
import Offside.Proofs.Bindings.Refusals
import Offside.Proofs.Store.Finite

/-!
# An assignment writes what is looked up

The scopes that can be opened form a forest: a frame has the same frames around it in every scope
that it belongs to, and never itself. Looking up and assigning walk outward through these frames,
and stop at the same one. What is assigned there is seen from each scope that finds the name in that
frame, and from no other.
-/

namespace Offside

open Store Run

/-! ## Walks outward -/

namespace Store

variable {s : Store} {n : String} {v : Value} {id : FrameId} {chain : List FrameId}

/-- The binding that the name has in the first frame where it stands. -/
def lookupOutward (s : Store) (n : String) : List FrameId → Except Fault Binding
  | [] => .error (.undeclaredVariable n)
  | id :: outer =>
    match (s.frame id).binding? n with
    | some b => .ok b
    | none => s.lookupOutward n outer

/-- Assigns to the name in the first frame where it stands. -/
def assignOutward (s : Store) (n : String) (v : Value) : List FrameId → Outcome Unit
  | [] => .failed (.undeclaredVariable n) s
  | id :: outer =>
    match (s.frame id).binding? n with
    | some b =>
      match Scope.checkAssign n b v with
      | .error e => .failed e s
      | .ok () => .done () (s.modifyFrame id fun frame => frame.set n { b with value := some v })
    | none => s.assignOutward n v outer

/-- The nearest frame of the chain that declares the name. -/
inductive Nearest (s : Store) (n : String) : List FrameId → FrameId → Prop where
  | here {id : FrameId} {outer : List FrameId} : n ∈ s.names id → Nearest s n (id :: outer) id
  | outward {first id : FrameId} {outer : List FrameId} :
    n ∉ s.names first → Nearest s n outer id → Nearest s n (first :: outer) id

theorem owner?_eq_some_iff : s.owner? n chain = some id ↔ s.Nearest n chain id := by
  induction chain with
  | nil => exact iff_of_false nofun nofun
  | cons first outer ih =>
    unfold owner?
    by_cases hn : n ∈ s.names first
    · rw [if_pos (Frame.declares_iff.mpr hn)]
      constructor
      · rintro ⟨⟩
        exact .here hn
      · rintro (_ | ⟨hnot, _⟩)
        · rfl
        · exact absurd hn hnot
    · rw [if_neg fun h => hn (Frame.declares_iff.mp h), ih]
      constructor
      · exact .outward hn
      · rintro (hn' | ⟨_, h⟩)
        · exact absurd hn' hn
        · exact h

theorem owner?_of_binding? {b : Binding} (hb : (s.frame id).binding? n = some b) :
    s.owner? n (id :: chain) = some id := by
  unfold owner?
  rw [if_pos (by unfold Frame.declares; rw [hb]; rfl)]

theorem owner?_of_not_binding? (hb : (s.frame id).binding? n = none) :
    s.owner? n (id :: chain) = s.owner? n chain := by
  have hdeclares : (s.frame id).declares n = false := by
    unfold Frame.declares
    rw [hb]
    rfl
  conv_lhs => unfold owner?
  rw [hdeclares, if_neg Bool.false_ne_true]

end Store

namespace Scope

variable {s : Store} {scope : Scope} {n : String} {v : Value}

theorem lookup_eq_outward (scope : Scope) (n : String) (s : Store) :
    scope.lookup n s = s.lookupOutward n scope.chain := by
  unfold lookup
  induction scope.chain with
  | nil => rfl
  | cons id outer ih =>
    unfold lookupOutward
    cases hb : (s.frame id).binding? n with
    | none => rw [owner?_of_not_binding? hb, ih]
    | some b => rw [owner?_of_binding? hb, Option.bind_some, hb]

theorem assign_eq_outward (scope : Scope) (n : String) (v : Value) (s : Store) :
    scope.assign n v s = s.assignOutward n v scope.chain := by
  unfold assign
  induction scope.chain with
  | nil => rfl
  | cons id outer ih =>
    unfold assignOutward
    cases hb : (s.frame id).binding? n with
    | none => rw [owner?_of_not_binding? hb, ih]
    | some b =>
      cases hcheck : checkAssign n b v <;> simp only [owner?_of_binding? hb, hb, hcheck]

/-- Both walks end without a frame for the same names. -/
theorem assign_undeclared_iff :
    (∃ s', scope.assign n v s = .failed (.undeclaredVariable n) s') ↔
      scope.lookup n s = .error (.undeclaredVariable n) := by
  rw [assign_eq_outward, lookup_eq_outward]
  induction scope.chain with
  | nil => exact iff_of_true ⟨s, rfl⟩ rfl
  | cons id outer ih =>
    unfold assignOutward lookupOutward
    cases hb : (s.frame id).binding? n with
    | none => exact ih
    | some b =>
      refine iff_of_false ?_ nofun
      rintro ⟨s', h⟩
      dsimp only at h
      cases hcheck : checkAssign n b v with
      | ok u =>
        rw [hcheck] at h
        cases h
      | error e =>
        rw [hcheck] at h
        cases h
        rcases checkAssign_eq_error hcheck with he | he <;> cases he

/-- Whether both scopes find the name in the same frame. -/
def ShareCell (s : Store) (n : String) (x y : Scope) : Prop :=
  ∃ id, s.Nearest n x.chain id ∧ s.Nearest n y.chain id

theorem lookup_of_assign {s' : Store} (h : scope.assign n v s = .done () s') (t : Scope)
    (m : String) :
    m = n ∧ ShareCell s n scope t ∧ t.get m s' = .ok v ∨
      ¬ (m = n ∧ ShareCell s n scope t) ∧ t.lookup m s' = t.lookup m s := by
  obtain ⟨id, b, howner, hb, -, rfl⟩ := assign_meets.of_done h
  have hnearest : s.Nearest n scope.chain id := owner?_eq_some_iff.mp howner
  by_cases hcell : m = n ∧ s.owner? n t.chain = some id
  · obtain ⟨rfl, howner'⟩ := hcell
    refine Or.inl ⟨rfl, ⟨id, hnearest, owner?_eq_some_iff.mp howner'⟩, ?_⟩
    unfold get
    rw [lookup_set hb, if_pos ⟨rfl, howner'⟩]
    rfl
  · refine Or.inr ⟨?_, by rw [lookup_set hb, if_neg hcell]⟩
    rintro ⟨rfl, id', hscope, ht⟩
    have hid : some id = some id' := howner.symm.trans (owner?_eq_some_iff.mpr hscope)
    exact hcell ⟨rfl, hid ▸ owner?_eq_some_iff.mpr ht⟩

end Scope

/-! ## Forests -/

/-- The scopes, and the store that has their frames, come about by opening scopes and asking
requests of them, whether or not these are refused. The scope around another one is among them. -/
inductive Forest : List Scope → Store → Prop where
  | empty (s : Store) : Forest [] s
  | new {scopes : List Scope} {s s' : Store} {scope : Scope} :
    Forest scopes s → Scope.new s = .done scope s' → Forest (scope :: scopes) s'
  | request {scopes : List Scope} {s s' : Store} {scope : Scope} {reply : Reply Scope}
    (request : Request) :
    Forest scopes s → scope ∈ scopes → request.perform scope s = .done reply s' →
    Forest (reply.opened?.toList ++ scopes) s'
  | refused {scopes : List Scope} {s s' : Store} {scope : Scope} {e : Fault} (request : Request) :
    Forest scopes s → scope ∈ scopes → request.perform scope s = .failed e s' → Forest scopes s'
  | around {scopes : List Scope} {s : Store} {id parent : FrameId} {outer : List FrameId} :
    Forest scopes s → ⟨id, parent :: outer⟩ ∈ scopes → Forest (⟨parent, outer⟩ :: scopes) s

namespace Forest

variable {scopes : List Scope} {s s' : Store} {scope inner : Scope}

/-- The frame stands in a scope with these frames around it. -/
def Stands (scopes : List Scope) (id : FrameId) (outer : List FrameId) : Prop :=
  ∃ t ∈ scopes, id :: outer <:+ t.chain

/-- Every frame has one place. -/
structure Sound (scopes : List Scope) (s : Store) : Prop where
  hasScope : ∀ t ∈ scopes, s.HasScope t
  place : ∀ {id outer outer'}, Stands scopes id outer → Stands scopes id outer' → outer = outer'

theorem outer_eq_of_nodup {chain outer outer' : List FrameId} {id : FrameId} (h : chain.Nodup)
    (h₁ : id :: outer <:+ chain) (h₂ : id :: outer' <:+ chain) : outer = outer' := by
  have hshort {x y : List FrameId} (hx : id :: x <:+ id :: y) (hy : id :: y <:+ chain) : x = y := by
    rcases List.suffix_cons_iff.mp hx with heq | hsuffix
    · exact (List.cons.inj heq).2
    · have hnot : id ∉ y := (List.nodup_cons.mp (h.sublist hy.sublist)).1
      exact absurd (hsuffix.subset List.mem_cons_self) hnot
  rcases List.suffix_or_suffix_of_suffix h₁ h₂ with hsuffix | hsuffix
  · exact hshort hsuffix h₂
  · exact (hshort hsuffix h₁).symm

theorem nodup_of_outer_eq {chain : List FrameId}
    (h : ∀ {id outer outer'}, id :: outer <:+ chain → id :: outer' <:+ chain → outer = outer') :
    chain.Nodup := by
  induction chain with
  | nil => exact List.nodup_nil
  | cons id rest ih =>
    refine List.nodup_cons.mpr ⟨fun hmem => ?_, ih fun h₁ h₂ => ?_⟩
    · obtain ⟨before, after, rfl⟩ := List.append_of_mem hmem
      have hinner : id :: after <:+ id :: (before ++ id :: after) :=
        (List.suffix_append before (id :: after)).trans (List.suffix_cons id _)
      have hlength := congrArg List.length (h (List.suffix_refl _) hinner)
      rw [List.length_append, List.length_cons] at hlength
      omega
    · exact h (h₁.trans (List.suffix_cons id rest)) (h₂.trans (List.suffix_cons id rest))

theorem Sound.nodup (h : Sound scopes s) {t : Scope} (ht : t ∈ scopes) : t.chain.Nodup :=
  nodup_of_outer_eq fun h₁ h₂ => h.place ⟨t, ht, h₁⟩ ⟨t, ht, h₂⟩

/-- A walk takes no more steps than there are frames. -/
theorem Sound.length_le (h : Sound scopes s) {t : Scope} (ht : t ∈ scopes) :
    t.chain.length ≤ s.frames.size := by
  have hindex : Function.Injective FrameId.index := fun ⟨_⟩ ⟨_⟩ heq => congrArg FrameId.mk heq
  have hnodup : (t.chain.map FrameId.index).Nodup := List.Nodup.map hindex (h.nodup ht)
  have hsubset : t.chain.map FrameId.index ⊆ List.range s.frames.size := by
    intro i hi
    obtain ⟨id, hid, rfl⟩ := List.mem_map.mp hi
    exact List.mem_range.mpr (h.hasScope t ht id hid)
  have hle := (hnodup.subperm hsubset).length_le
  rwa [List.length_map, List.length_range] at hle

/-! ## What keeps forests sound -/

theorem Sound.later (h : Sound scopes s) (hframe : ∀ id, s.HasFrame id → s'.HasFrame id) :
    Sound scopes s' :=
  ⟨fun t ht id hid => hframe id (h.hasScope t ht id hid), h.place⟩

/-- A scope may be added if its frames stand where they stood, or are new. -/
theorem Sound.add (h : Sound scopes s) (hframe : ∀ id, s.HasFrame id → s'.HasFrame id)
    (hinner : s'.HasScope inner) (hnodup : inner.chain.Nodup)
    (hplace : ∀ {id outer}, id :: outer <:+ inner.chain →
      Stands scopes id outer ∨ ¬ s.HasFrame id) : Sound (inner :: scopes) s' := by
  have hold {id : FrameId} {outer outer' : List FrameId} (h₁ : id :: outer <:+ inner.chain)
      (h₂ : Stands scopes id outer') : outer = outer' := by
    rcases hplace h₁ with h₁ | hnew
    · exact h.place h₁ h₂
    · obtain ⟨t, ht, hsuffix⟩ := h₂
      exact absurd (h.hasScope t ht id (hsuffix.subset List.mem_cons_self)) hnew
  refine ⟨List.forall_mem_cons.mpr ⟨hinner, (h.later hframe).hasScope⟩, ?_⟩
  rintro id outer outer' ⟨t, ht, h₁⟩ ⟨u, hu, h₂⟩
  rcases List.mem_cons.mp ht with rfl | ht' <;> rcases List.mem_cons.mp hu with rfl | hu'
  · exact outer_eq_of_nodup hnodup h₁ h₂
  · exact hold h₁ ⟨u, hu', h₂⟩
  · exact (hold h₂ ⟨t, ht', h₁⟩).symm
  · exact h.place ⟨t, ht', h₁⟩ ⟨u, hu', h₂⟩

theorem Sound.new (h : Sound scopes s) :
    Sound (⟨⟨s.frames.size⟩, []⟩ :: scopes) (s.withFrames [[]]) := by
  refine h.add (fun id => hasFrame_withFrames _) ?_ (List.nodup_singleton _) ?_
  · exact List.forall_mem_singleton.mpr s.hasFrame_opened
  · intro id outer hsuffix
    have hid := hsuffix.subset List.mem_cons_self
    obtain rfl := List.mem_singleton.mp hid
    exact Or.inr (not_hasFrame_new s 0)

/-- A scope inside another one has a new frame, and around it what stood there. -/
theorem Sound.child (h : Sound scopes s) (hscope : scope ∈ scopes) :
    Sound (⟨⟨s.frames.size⟩, scope.chain⟩ :: scopes) (s.withFrames [[]]) := by
  have hchain := h.hasScope scope hscope
  refine h.add (fun id => hasFrame_withFrames _) ?_ ?_ ?_
  · exact List.forall_mem_cons.mpr
      ⟨hasFrame_opened s, fun id hid => hasFrame_withFrames _ (hchain id hid)⟩
  · exact List.nodup_cons.mpr ⟨fun hmem => not_hasFrame_new s 0 (hchain _ hmem), h.nodup hscope⟩
  · intro id outer hsuffix
    rcases List.suffix_cons_iff.mp hsuffix with heq | hsuffix
    · obtain ⟨rfl, -⟩ := List.cons.inj heq
      exact Or.inr (not_hasFrame_new s 0)
    · exact Or.inl ⟨scope, hscope, hsuffix⟩

/-- All frames of a snapshot are new. -/
theorem Sound.snapshot (h : Sound scopes s) (scope : Scope) :
    Sound (scope.copyAt s.frames.size :: scopes) (s.withFrames (scope.chain.map s.frame)) := by
  refine h.add (fun id => hasFrame_withFrames _) (fun id => Scope.hasFrame_copyAt) ?_ ?_
  · rw [Scope.chain_copyAt, List.nodup_iff_pairwise_ne, List.pairwise_iff_getElem]
    intro i j hi hj hij heq
    rw [List.getElem_mapIdx, List.getElem_mapIdx] at heq
    have := congrArg FrameId.index heq
    dsimp only at this
    omega
  · intro id outer hsuffix
    exact Or.inr (Scope.not_hasFrame_copyAt (hsuffix.subset List.mem_cons_self))

theorem Sound.around {id parent : FrameId} {outer : List FrameId} (h : Sound scopes s)
    (hscope : ⟨id, parent :: outer⟩ ∈ scopes) : Sound (⟨parent, outer⟩ :: scopes) s := by
  have hsuffix : parent :: outer <:+ id :: parent :: outer := List.suffix_cons id _
  refine h.add (fun _ hid => hid) ?_ ?_ ?_
  · exact fun i hi => h.hasScope _ hscope i (hsuffix.subset hi)
  · exact (h.nodup hscope).sublist hsuffix.sublist
  · exact fun hinner => Or.inl ⟨_, hscope, hinner.trans hsuffix⟩

/-! ## Requests -/

theorem opened?_eq_none {α : Type} {r : Run α} {g : α → Reply Scope} {reply : Reply Scope}
    (hg : ∀ a, (g a).opened? = none) (h : (r >>= fun a => pure (g a)) s = .done reply s') :
    reply.opened? = none := by
  rw [bind_apply] at h
  cases hr : r s with
  | done a t =>
    rw [hr] at h
    cases h
    exact hg a
  | failed e t =>
    rw [hr] at h
    cases h
  | outOfFuel =>
    rw [hr] at h
    cases h

/-- Only two requests open a scope. -/
theorem perform_eq_done {request : Request} {reply : Reply Scope}
    (h : request.perform scope s = .done reply s') :
    reply.opened? = none ∨
      (reply = .opened ⟨⟨s.frames.size⟩, scope.chain⟩ ∧ s' = s.withFrames [[]]) ∨
      (reply = .opened (scope.copyAt s.frames.size) ∧
        s' = s.withFrames (scope.chain.map s.frame)) := by
  cases request with
  | child =>
    replace h : (scope.child >>= fun inner => pure (.opened inner)) s = .done reply s' := h
    rw [bind_apply, Scope.child_eq] at h
    cases h
    exact Or.inr (Or.inl ⟨rfl, rfl⟩)
  | snapshot =>
    replace h : (scope.snapshot >>= fun copy => pure (.opened copy)) s = .done reply s' := h
    rw [bind_apply, Scope.snapshot_eq] at h
    cases h
    exact Or.inr (Or.inr ⟨rfl, rfl⟩)
  | _ => exact Or.inl (opened?_eq_none (fun _ => rfl) h)

/-- A request keeps all frames. -/
theorem hasFrame_perform {request : Request} (hscope : s.HasScope scope)
    (h : (∃ reply, request.perform scope s = .done reply s') ∨
      ∃ e, request.perform scope s = .failed e s') {id : FrameId} (hid : s.HasFrame id) :
    s'.HasFrame id := by
  have hedits := Request.perform_edits request hscope
  rcases h with ⟨reply, h⟩ | ⟨e, h⟩
  · exact (hedits.of_done h).1.keeps.hasFrame hid
  · exact (hedits.of_failed h).1.keeps.hasFrame hid

theorem sound (h : Forest scopes s) : Sound scopes s := by
  induction h with
  | empty s => exact ⟨List.forall_mem_nil _, fun ⟨_, ht, _⟩ => absurd ht List.not_mem_nil⟩
  | new _ hnew ih =>
    rw [Scope.new_eq] at hnew
    cases hnew
    exact ih.new
  | refused request _ hscope hperform ih =>
    exact ih.later fun _ => hasFrame_perform (ih.hasScope _ hscope) (Or.inr ⟨_, hperform⟩)
  | around _ hscope ih => exact ih.around hscope
  | @request scopes s s' scope reply request _ hscope hperform ih =>
    rcases perform_eq_done hperform with hnone | ⟨rfl, rfl⟩ | ⟨rfl, rfl⟩
    · rw [hnone]
      exact ih.later fun _ => hasFrame_perform (ih.hasScope _ hscope) (Or.inl ⟨_, hperform⟩)
    · exact ih.child hscope
    · exact ih.snapshot scope

end Forest

/-- In a forest the chains of frames never close to a circle, so that walks outward end. An
assignment finds no frame for the names that a look-up finds none for. If it is done, the value is
seen wherever the name is found in the same frame, and nothing else has changed anywhere. -/
theorem Scope.assign_one_cell {scopes : List Scope} {s : Store} (h : Forest scopes s) :
    (∀ t ∈ scopes, t.chain.Nodup ∧ t.chain.length ≤ s.frames.size ∧
      ∀ u ∈ scopes, ∀ id outer outer', id :: outer <:+ t.chain → id :: outer' <:+ u.chain →
        outer = outer') ∧
    ∀ (scope : Scope) (n : String) (v : Value),
      scope.lookup n s = s.lookupOutward n scope.chain ∧
      scope.assign n v s = s.assignOutward n v scope.chain ∧
      ((∃ s', scope.assign n v s = .failed (.undeclaredVariable n) s') ↔
        scope.lookup n s = .error (.undeclaredVariable n)) ∧
      ((∃ e, scope.assign n v s = .failed e s) ∨
        ∃ s', scope.assign n v s = .done () s' ∧ ∀ (t : Scope) (m : String),
          m = n ∧ ShareCell s n scope t ∧ t.get m s' = .ok v ∨
          ¬ (m = n ∧ ShareCell s n scope t) ∧ t.lookup m s' = t.lookup m s) := by
  have hsound := h.sound
  refine ⟨fun t ht => ⟨hsound.nodup ht, hsound.length_le ht, ?_⟩, fun scope n v =>
    ⟨lookup_eq_outward scope n s, assign_eq_outward scope n v s, assign_undeclared_iff, ?_⟩⟩
  · exact fun u hu id outer outer' h₁ h₂ => hsound.place ⟨t, ht, h₁⟩ ⟨u, hu, h₂⟩
  · cases hassign : scope.assign n v s with
    | done u s' => exact Or.inr ⟨s', rfl, lookup_of_assign hassign⟩
    | failed e s' =>
      obtain rfl := assign_eq_failed hassign
      exact Or.inl ⟨e, rfl⟩
    | outOfFuel => exact absurd hassign (assign_finite scope n v s)

/-- A global name, which a scope in a scope declares once more. -/
def shadowedStore : Store where
  frames := #[[("x", ⟨.variable, some (.integer 1)⟩)], [], [],
    [("x", ⟨.variable, some (.integer 1)⟩)], [("x", ⟨.variable, some (.integer 2)⟩)]]
  lists := #[]
  dictionaries := #[]
  identities := 0
  output := ⟨"", none⟩

/-- The innermost scope first, then the copy of the scope around it, that scope and the global
one. -/
def shadowedScopes : List Scope := [⟨⟨4⟩, [⟨1⟩, ⟨0⟩]⟩, ⟨⟨2⟩, [⟨3⟩]⟩, ⟨⟨1⟩, [⟨0⟩]⟩, ⟨⟨0⟩, []⟩]

theorem forest_shadowed : Forest shadowedScopes shadowedStore := by
  have hglobal : Forest [⟨⟨0⟩, []⟩] ⟨#[[]], #[], #[], 0, ⟨"", none⟩⟩ :=
    .new (.empty ⟨#[], #[], #[], 0, ⟨"", none⟩⟩) rfl
  have hname := hglobal.request (.define "x" .variable (.integer 1)) List.mem_cons_self rfl
  have hinner := hname.request .child List.mem_cons_self rfl
  have hcopy := hinner.request .snapshot List.mem_cons_self rfl
  have hinnermost := hcopy.request .child (List.mem_cons_of_mem _ List.mem_cons_self) rfl
  exact hinnermost.request (.define "x" .variable (.integer 2)) List.mem_cons_self rfl

theorem Scope.assign_one_cell_shadowed :
    Forest shadowedScopes shadowedStore ∧
      ∃ s', Scope.assign ⟨⟨1⟩, [⟨0⟩]⟩ "x" (.integer 5) shadowedStore = .done () s' ∧
        Scope.get ⟨⟨0⟩, []⟩ "x" s' = .ok (.integer 5) ∧
        Scope.lookup ⟨⟨4⟩, [⟨1⟩, ⟨0⟩]⟩ "x" s' =
          Scope.lookup ⟨⟨4⟩, [⟨1⟩, ⟨0⟩]⟩ "x" shadowedStore := by
  refine ⟨forest_shadowed, ?_⟩
  obtain ⟨-, -, -, ⟨e, hfailed⟩ | ⟨s', hdone, hseen⟩⟩ :=
    (Scope.assign_one_cell forest_shadowed).2 ⟨⟨1⟩, [⟨0⟩]⟩ "x" (.integer 5)
  · cases hfailed
  · have hglobal : ShareCell shadowedStore "x" ⟨⟨1⟩, [⟨0⟩]⟩ ⟨⟨0⟩, []⟩ :=
      ⟨⟨0⟩, .outward (by decide) (.here (by decide)), .here (by decide)⟩
    have hinnermost : ¬ ShareCell shadowedStore "x" ⟨⟨1⟩, [⟨0⟩]⟩ ⟨⟨4⟩, [⟨1⟩, ⟨0⟩]⟩ := by
      rintro ⟨id, houter, hinner⟩
      have heq : some (⟨0⟩ : FrameId) = some ⟨4⟩ :=
        (owner?_eq_some_iff.mpr houter).trans (owner?_eq_some_iff.mpr hinner).symm
      cases heq
    refine ⟨s', hdone, ?_, ?_⟩
    · rcases hseen ⟨⟨0⟩, []⟩ "x" with ⟨-, -, hget⟩ | ⟨hnot, -⟩
      · exact hget
      · exact absurd ⟨rfl, hglobal⟩ hnot
    · rcases hseen ⟨⟨4⟩, [⟨1⟩, ⟨0⟩]⟩ "x" with ⟨-, hcell, -⟩ | ⟨-, hlookup⟩
      · exact absurd hcell hinnermost
      · exact hlookup

end Offside
