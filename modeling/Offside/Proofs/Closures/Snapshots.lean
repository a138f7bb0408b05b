import Offside.Proofs.Store.Edits
import Offside.Proofs.Store.Mirrors

/-!
# Snapshots are independent

A snapshot answers like the scope that it was taken of. From then on the scopes that were there and
those of the copied chain are two sides, each with all that is opened from its scopes. What is
answered on one side is the same as if nothing had been asked of the other.
-/

namespace Offside

/-! ## Requests -/

/-- What may be asked of a scope. -/
inductive Request where
  | declare (name : String) (role : Role)
  | define (name : String) (role : Role) (v : Value)
  | assign (name : String) (v : Value)
  | lookup (name : String)
  | get (name : String)
  | declaresLocally (name : String)
  | child
  | snapshot

/-- What a request gives, with the handle by which a new scope is known. -/
inductive Reply (Handle : Type) where
  | done
  | binding (b : Binding)
  | value (v : Value)
  | truth (holds : Bool)
  | opened (scope : Handle)

namespace Reply

variable {α β : Type}

def map (f : α → β) : Reply α → Reply β
  | done => done
  | binding b => binding b
  | value v => value v
  | truth holds => truth holds
  | opened scope => opened (f scope)

def opened? : Reply α → Option α
  | opened scope => some scope
  | _ => none

end Reply

def Request.perform (scope : Scope) : Request → Run (Reply Scope)
  | declare name role => do
    scope.declare name role
    return .done
  | define name role v => do
    scope.define name role v
    return .done
  | assign name v => do
    scope.assign name v
    return .done
  | lookup name => return .binding (← Run.readExcept (scope.lookup name))
  | get name => return .value (← Run.readExcept (scope.get name))
  | declaresLocally name => return .truth (← Run.read (scope.declaresLocally name))
  | child => return .opened (← scope.child)
  | snapshot => return .opened (← scope.snapshot)

/-! ## Two sides -/

inductive Side where
  | original | copy
deriving DecidableEq

/-- A request to a scope, which is known by its side and its number there. -/
structure Call where
  side : Side
  number : Nat
  request : Request

/-- Nothing where there is no such scope. -/
abbrev Answer := Option (Except Fault (Reply Nat))

/-- The scopes of both sides, in the order in which they were opened. -/
structure Sides where
  scopes : Side → List Scope
  store : Store

namespace Sides

def add (w : Sides) (side : Side) (scope? : Option Scope) (s : Store) : Sides where
  scopes side' := if side' = side then w.scopes side ++ scope?.toList else w.scopes side'
  store := s

/-- A new scope gets the next number of its side. -/
def step (w : Sides) (c : Call) : Answer × Sides :=
  match (w.scopes c.side)[c.number]? with
  | none => (none, w)
  | some scope =>
    match c.request.perform scope w.store with
    | .done reply s =>
      (some (.ok (reply.map fun _ => (w.scopes c.side).length)), w.add c.side reply.opened? s)
    | .failed e s => (some (.error e), w.add c.side none s)
    | .outOfFuel => (none, w)

/-- The calls, each with its answer. -/
def transcript (w : Sides) : List Call → List (Call × Answer)
  | [] => []
  | c :: rest => (c, (w.step c).1) :: (w.step c).2.transcript rest

end Sides

/-! ## One request -/

/-- The two replies look alike, and a new scope corresponds to a new scope. -/
inductive Reply.Corresponds (R : FrameId → FrameId → Prop) : Reply Scope → Reply Scope → Prop where
  | done : Corresponds R .done .done
  | binding (b : Binding) : Corresponds R (.binding b) (.binding b)
  | value (v : Value) : Corresponds R (.value v) (.value v)
  | truth (holds : Bool) : Corresponds R (.truth holds) (.truth holds)
  | opened {x y : Scope} : x.Corresponds R y → Corresponds R (.opened x) (.opened y)

theorem Reply.Corresponds.map_eq {R : FrameId → FrameId → Prop} {a b : Reply Scope}
    (h : a.Corresponds R b) (number : Nat) : a.map (fun _ => number) = b.map fun _ => number := by
  cases h <;> rfl

theorem Reply.Corresponds.opened? {R : FrameId → FrameId → Prop} {a b : Reply Scope}
    (h : a.Corresponds R b) :
    List.Forall₂ (Scope.Corresponds R) a.opened?.toList b.opened?.toList := by
  cases h with
  | opened hxy => exact .cons hxy .nil
  | _ => exact .nil

namespace Request

open Store Run

variable {R : FrameId → FrameId → Prop} {s t : Store} {x y : Scope}

/-- More frames correspond than before, but only new ones. -/
structure Grows (R R' : FrameId → FrameId → Prop) (s : Store) : Prop where
  keep : ∀ i j, R i j → R' i j
  new : ∀ i j, R' i j → R i j ∨ ¬ s.HasFrame i

theorem Grows.refl : Grows R R s := ⟨fun _ _ => id, fun _ _ => .inl⟩

theorem Grows.andNext {count : Nat} : Grows R (AndNext R s t count) s := by
  refine ⟨fun _ _ => .inl, ?_⟩
  rintro i j (hij | ⟨k, -, rfl, -⟩)
  · exact .inl hij
  · exact .inr (Store.not_hasFrame_new _ _)

theorem perform_alike (request : Request) (h : s.Mirrors R t) (hxy : x.Corresponds R y) :
    ∃ R', Grows R R' s ∧
      (request.perform x s).Alike (Reply.Corresponds R') (Mirrors R') (request.perform y t) := by
  cases request with
  | declare name role =>
    refine ⟨R, .refl, alike_bind (Scope.declare_alike h hxy) fun _ _ _ _ _ h => ?_⟩
    exact alike_pure .done h
  | define name role v =>
    refine ⟨R, .refl, alike_bind (Scope.define_alike h hxy) fun _ _ _ _ _ h => ?_⟩
    exact alike_pure .done h
  | assign name v =>
    refine ⟨R, .refl, alike_bind (Scope.assign_alike h hxy) fun _ _ _ _ _ h => ?_⟩
    exact alike_pure .done h
  | lookup name =>
    refine ⟨R, .refl, ?_⟩
    refine alike_bind (alike_readExcept (Scope.lookup_eq_of_frames h.frame hxy name) h) ?_
    rintro b _ _ _ rfl h
    exact alike_pure (.binding b) h
  | get name =>
    refine ⟨R, .refl, ?_⟩
    refine alike_bind (alike_readExcept (Scope.get_eq_of_frames h.frame hxy name) h) ?_
    rintro v _ _ _ rfl h
    exact alike_pure (.value v) h
  | declaresLocally name =>
    refine ⟨R, .refl, ?_⟩
    refine alike_bind (alike_read (Scope.declaresLocally_eq_of_frames h.frame hxy name) h) ?_
    rintro holds _ _ _ rfl h
    exact alike_pure (.truth holds) h
  | child =>
    refine ⟨_, .andNext, alike_bind (Scope.child_alike h hxy) fun _ _ _ _ hinner h => ?_⟩
    exact alike_pure (.opened hinner) h
  | snapshot =>
    refine ⟨_, .andNext, alike_bind (Scope.snapshot_alike h hxy) fun _ _ _ _ hinner h => ?_⟩
    exact alike_pure (.opened hinner) h

/-- A scope that the frames of another one, and new frames, may belong to. -/
def Opens (s : Store) (scope : Scope) (reply : Reply Scope) (s' : Store) : Prop :=
  ∀ inner ∈ reply.opened?, s'.HasScope inner ∧
    ∀ i ∈ inner.chain, i ∈ scope.chain ∨ ¬ s.HasFrame i

theorem perform_edits (request : Request) (hscope : s.HasScope x) :
    (request.perform x).Edits (fun _ => True) x.chain s (Opens s x) := by
  have hnone {r : Reply Scope} {s' : Store} (hr : r.opened? = none) : Opens s x r s' := by
    intro inner hinner
    rw [hr] at hinner
    cases hinner
  cases request with
  | declare name role =>
    exact edits_bind (Scope.declare_edits List.mem_cons_self) fun _ _ _ _ => edits_pure (hnone rfl)
  | define name role v =>
    refine edits_bind (Scope.define_edits ⟨List.mem_cons_self, .inr (List.Subset.refl _)⟩
      fun _ => trivial) fun _ _ _ _ => edits_pure (hnone rfl)
  | assign name v =>
    exact edits_bind (Scope.assign_edits (fun _ => trivial) (List.Subset.refl _))
      fun _ _ _ _ => edits_pure (hnone rfl)
  | lookup name => exact edits_bind Scope.lookup_edits fun _ _ _ _ => edits_pure (hnone rfl)
  | get name =>
    exact edits_bind (Scope.get_edits (holds_true s)) fun _ _ _ _ => edits_pure (hnone rfl)
  | declaresLocally name =>
    exact edits_bind (Q := fun _ _ => True) (edits_read trivial)
      fun _ _ _ _ => edits_pure (hnone rfl)
  | child =>
    refine edits_bind Scope.child_edits fun inner s' hedits hinner => edits_pure ?_
    rintro _ ⟨⟩
    obtain ⟨rfl, hframe⟩ := hinner
    refine ⟨List.forall_mem_cons.mpr ⟨hframe, hedits.keeps.hasScope hscope⟩, ?_⟩
    exact List.forall_mem_cons.mpr ⟨.inr (Nat.lt_irrefl _), fun i hi => .inl hi⟩
  | snapshot =>
    refine edits_bind Scope.snapshot_edits fun inner s' _ hinner => edits_pure ?_
    rintro _ ⟨⟩
    obtain ⟨rfl, hcopy⟩ := hinner
    exact ⟨hcopy, fun i hi => .inr (Scope.not_hasFrame_copyAt hi)⟩

end Request

/-! ## One call -/

namespace Sides

open Store Request

variable {R : FrameId → FrameId → Prop} {side : Side} {w w' v : Sides} {c : Call}

def frames (w : Sides) (side : Side) : List FrameId := (w.scopes side).flatMap Scope.chain

/-- What happened on one side: only its frames changed, and what it opened has these frames and
new ones. -/
structure Advances (side : Side) (w w' : Sides) : Prop where
  keeps : Keeps id (w.frames side) w.store w'.store
  hasFrame : ∀ i ∈ w'.frames side, w'.store.HasFrame i
  fresh : ∀ i ∈ w'.frames side, i ∈ w.frames side ∨ ¬ w.store.HasFrame i
  scopes : ∀ other ≠ side, w'.scopes other = w.scopes other

theorem Advances.refl (h : ∀ i ∈ w.frames side, w.store.HasFrame i) : Advances side w w :=
  ⟨.refl, h, fun _ => .inl, fun _ _ => rfl⟩

theorem scopes_add_self {opened : Option Scope} {s : Store} :
    (w.add side opened s).scopes side = w.scopes side ++ opened.toList := if_pos rfl

theorem add_advances {scope : Scope} {opened : Option Scope} {s : Store}
    (h : ∀ i ∈ w.frames side, w.store.HasFrame i) (hscope : scope ∈ w.scopes side)
    (hkeeps : Keeps id scope.chain w.store s)
    (hopened : ∀ inner ∈ opened, s.HasScope inner ∧
      ∀ i ∈ inner.chain, i ∈ scope.chain ∨ ¬ w.store.HasFrame i) :
    Advances side w (w.add side opened s) := by
  have hchain : scope.chain ⊆ w.frames side := fun i hi => List.mem_flatMap_of_mem hscope hi
  have hframes : ∀ i ∈ (w.add side opened s).frames side,
      i ∈ w.frames side ∨ ∃ inner ∈ opened, i ∈ inner.chain := by
    intro i hi
    unfold frames at hi
    rw [scopes_add_self, List.flatMap_append] at hi
    refine (List.mem_append.mp hi).imp id fun hi => ?_
    obtain ⟨inner, hinner, hmem⟩ := List.mem_flatMap.mp hi
    exact ⟨inner, Option.mem_toList.mp hinner, hmem⟩
  refine ⟨hkeeps.mono hchain, ?_, ?_, fun other hother => if_neg hother⟩
  · intro i hi
    rcases hframes i hi with hold | ⟨inner, hinner, hmem⟩
    · exact hkeeps.hasFrame (h i hold)
    · exact (hopened inner hinner).1 i hmem
  · intro i hi
    rcases hframes i hi with hold | ⟨inner, hinner, hmem⟩
    · exact .inl hold
    · exact ((hopened inner hinner).2 i hmem).imp (fun hi => hchain hi) id

theorem step_advances (h : ∀ i ∈ w.frames c.side, w.store.HasFrame i) :
    Advances c.side w (w.step c).2 := by
  unfold step
  split
  · exact .refl h
  · rename_i scope hget
    have hmem := List.mem_of_getElem? hget
    have hedits := perform_edits c.request fun i hi => h i (List.mem_flatMap_of_mem hmem hi)
    split
    · rename_i reply s hperform
      obtain ⟨hs, hopens⟩ := hedits.of_done hperform
      exact add_advances h hmem hs.keeps hopens
    · rename_i e s hperform
      exact add_advances h hmem (hedits.of_failed hperform).1.keeps nofun
    · exact .refl h

/-! ## One side of two runs -/

/-- A side of the first corresponds to that of the second, and has no frame of the other side. -/
structure Follows (R : FrameId → FrameId → Prop) (side : Side) (w v : Sides) : Prop where
  mirrors : w.store.Mirrors R v.store
  scopes : List.Forall₂ (Scope.Corresponds R) (w.scopes side) (v.scopes side)
  hasFrame : ∀ other, ∀ i ∈ w.frames other, w.store.HasFrame i
  apart : ∀ other ≠ side, ∀ i ∈ w.frames other, ∀ j, ¬ R i j

namespace Follows

theorem hasFrame_of_advances (h : Follows R side w v) {moved : Side} (hw : Advances moved w w') :
    ∀ other, ∀ i ∈ w'.frames other, w'.store.HasFrame i := by
  intro other i hi
  by_cases heq : other = moved
  · subst heq
    exact hw.hasFrame i hi
  · unfold frames at hi
    rw [hw.scopes other heq] at hi
    exact hw.keeps.hasFrame (h.hasFrame other i hi)

/-- What happens on the other side cannot be told on this one. -/
theorem advance_other (h : Follows R side w v) {other : Side} (hother : other ≠ side)
    (hw : Advances other w w') : Follows R side w' v := by
  refine ⟨h.mirrors.of_keeps hw.keeps (h.apart other hother), ?_, h.hasFrame_of_advances hw, ?_⟩
  · rw [hw.scopes side (Ne.symm hother)]
    exact h.scopes
  · intro other' hother' i hi j hij
    have heq : other' = other := by
      cases side <;> cases other <;> cases other' <;> trivial
    subst heq
    rcases hw.fresh i hi with hold | hnew
    · exact h.apart other' hother i hold j hij
    · exact hnew (h.mirrors.hasFrame hij).1

/-- The same call on this side is answered alike. -/
theorem step_same (h : Follows R side w v) (hc : c.side = side) :
    (w.step c).1 = (v.step c).1 ∧ ∃ R', Follows R' side (w.step c).2 (v.step c).2 := by
  subst hc
  have hw : Advances c.side w (w.step c).2 := step_advances (h.hasFrame c.side)
  have hframes := h.hasFrame_of_advances hw
  have hapart {R' : FrameId → FrameId → Prop} (hgrows : Grows R R' w.store) :
      ∀ other ≠ c.side, ∀ i ∈ (w.step c).2.frames other, ∀ j, ¬ R' i j := by
    intro other hother i hi j hij
    unfold frames at hi
    rw [hw.scopes other hother] at hi
    rcases hgrows.new i j hij with hold | hnew
    · exact h.apart other hother i hi j hold
    · exact hnew (h.hasFrame other i hi)
  have hlength := h.scopes.length_eq
  unfold step at hframes hapart ⊢
  cases hx : (w.scopes c.side)[c.number]? with
  | none =>
    have hy : (v.scopes c.side)[c.number]? = none := by
      rw [List.getElem?_eq_none_iff] at hx ⊢
      rwa [← hlength]
    rw [hy]
    exact ⟨rfl, R, h⟩
  | some x =>
    obtain ⟨hlt, rfl⟩ := List.getElem?_eq_some_iff.mp hx
    have hlt' : c.number < (v.scopes c.side).length := hlength ▸ hlt
    rw [hx] at hframes hapart
    rw [List.getElem?_eq_getElem hlt']
    have hxy := (List.forall₂_iff_get.mp h.scopes).2 c.number hlt hlt'
    obtain ⟨R', hgrows, halike⟩ := perform_alike c.request h.mirrors hxy
    dsimp only [List.get_eq_getElem] at halike hframes hapart ⊢
    generalize c.request.perform _ w.store = o, c.request.perform _ v.store = o'
      at halike hframes hapart ⊢
    have hscopes : List.Forall₂ (Scope.Corresponds R') (w.scopes c.side) (v.scopes c.side) :=
      h.scopes.imp fun _ _ hxy => hxy.mono hgrows.keep
    cases halike with
    | @done reply reply' s t hreply hstores =>
      dsimp only at hframes hapart ⊢
      rw [hlength, hreply.map_eq]
      refine ⟨rfl, R', hstores, ?_, hframes, hapart hgrows⟩
      rw [scopes_add_self, scopes_add_self]
      exact List.rel_append hscopes hreply.opened?
    | failed hstores =>
      refine ⟨rfl, R', hstores, ?_, hframes, hapart hgrows⟩
      rw [scopes_add_self, scopes_add_self]
      exact List.rel_append hscopes .nil

/-- The answers of a side are those to its own calls. -/
theorem transcript_filter (h : Follows R side w v) (calls : List Call) :
    (w.transcript calls).filter (·.1.side = side) =
      v.transcript (calls.filter (·.side = side)) := by
  induction calls generalizing R w v with
  | nil => rfl
  | cons c rest ih =>
    rw [transcript]
    by_cases hc : c.side = side
    · obtain ⟨hanswer, R', hnext⟩ := h.step_same hc
      rw [List.filter_cons_of_pos (by simpa using hc), List.filter_cons_of_pos (by simpa using hc),
        transcript, hanswer, ih hnext]
    · rw [List.filter_cons_of_neg (by simpa using hc), List.filter_cons_of_neg (by simpa using hc)]
      exact ih (h.advance_other hc (step_advances (h.hasFrame c.side)))

/-- Sides without a common frame follow themselves. -/
theorem self (hframes : ∀ other, ∀ i ∈ w.frames other, w.store.HasFrame i)
    (hdisjoint : ∀ other ≠ side, (w.frames other).Disjoint (w.frames side)) :
    Follows (fun i j => i = j ∧ i ∈ w.frames side) side w w where
  mirrors.hasFrame := by
    rintro i _ ⟨rfl, hi⟩
    exact ⟨hframes side i hi, hframes side i hi⟩
  mirrors.frame := by
    rintro i _ ⟨rfl, -⟩
    rfl
  mirrors.eq_iff := by
    rintro i _ i' _ ⟨rfl, -⟩ ⟨rfl, -⟩
    rfl
  scopes := by
    refine List.forall₂_same.mpr fun scope hscope => List.forall₂_same.mpr fun i hi => ⟨rfl, ?_⟩
    exact List.mem_flatMap_of_mem hscope hi
  hasFrame := hframes
  apart other hother i hi j := fun ⟨_, hmem⟩ => hdisjoint other hother hi hmem

end Follows

end Sides

/-! ## Snapshots -/

namespace Scope

open Store

/-- The scope and those that it is inside of. -/
def lineage (scope : Scope) : List Scope := scope :: around scope.outer
where
  around : List FrameId → List Scope
    | [] => []
    | id :: outer => ⟨id, outer⟩ :: around outer

theorem chain_subset_of_mem_lineage {x scope : Scope} (h : x ∈ scope.lineage) :
    x.chain ⊆ scope.chain := by
  have haround {ids : List FrameId} (h : x ∈ lineage.around ids) : x.chain ⊆ ids := by
    induction ids with
    | nil => cases h
    | cons id outer ih =>
      rcases List.mem_cons.mp h with rfl | h
      · exact List.Subset.refl _
      · exact List.subset_cons_of_subset _ (ih h)
  rcases List.mem_cons.mp h with rfl | h
  · exact List.Subset.refl _
  · exact List.subset_cons_of_subset _ (haround h)

variable {s : Store} {scope : Scope} {forest : List Scope}

/-- A name means the same in a copy of the chain. -/
theorem lookup_copyAt (name : String) :
    scope.lookup name s =
      (scope.copyAt s.frames.size).lookup name (s.withFrames (scope.chain.map s.frame)) := by
  apply lookup_eq_of_frames (R := fun i j =>
    s.frame i = (s.withFrames (scope.chain.map s.frame)).frame j) id
  unfold Corresponds
  rw [chain_copyAt, List.forall₂_iff_get]
  refine ⟨by simp, fun k hk _ => ?_⟩
  simp only [List.get_eq_getElem, List.getElem_mapIdx]
  exact (frame_snapshot hk).symm

/-- A scope means the same while the store gets further frames. -/
theorem lookup_withFrames (hscope : s.HasScope scope) (frames : List Frame) (name : String) :
    scope.lookup name (s.withFrames frames) = scope.lookup name s := by
  apply lookup_eq_of_frames (R := fun i j => (s.withFrames frames).frame i = s.frame j) id
  exact List.forall₂_same.mpr fun i hi => frame_withFrames_of_hasFrame (hscope i hi) frames

end Scope

/-- The scopes that there are, and those of a copied chain. -/
def Sides.ofSnapshot (forest : List Scope) (copy : Scope) (s : Store) : Sides where
  scopes
    | .original => forest
    | .copy => copy.lineage
  store := s

/-- Before any call, no frame is on both sides. -/
theorem Sides.follows_ofSnapshot {s : Store} {forest : List Scope} {scope : Scope}
    (hforest : ∀ x ∈ forest, s.HasScope x) (side : Side) :
    ∃ R, Follows R side
      (ofSnapshot forest (scope.copyAt s.frames.size) (s.withFrames (scope.chain.map s.frame)))
      (ofSnapshot forest (scope.copyAt s.frames.size) (s.withFrames (scope.chain.map s.frame))) := by
  set w := ofSnapshot forest (scope.copyAt s.frames.size) (s.withFrames (scope.chain.map s.frame))
    with hw
  have horiginal : ∀ i ∈ w.frames .original, s.HasFrame i := by
    intro i hi
    obtain ⟨x, hx, hmem⟩ := List.mem_flatMap.mp hi
    exact hforest x hx i hmem
  have hcopy : ∀ i ∈ w.frames .copy, w.store.HasFrame i ∧ ¬ s.HasFrame i := by
    intro i hi
    obtain ⟨x, hx, hmem⟩ := List.mem_flatMap.mp hi
    have hmem' := Scope.chain_subset_of_mem_lineage hx hmem
    exact ⟨Scope.hasFrame_copyAt hmem', Scope.not_hasFrame_copyAt hmem'⟩
  have hkeeps : Store.Keeps id [] s w.store := .withFrames ..
  refine ⟨_, .self ?_ ?_⟩
  · intro other i hi
    cases other with
    | original => exact hkeeps.hasFrame (horiginal i hi)
    | copy => exact (hcopy i hi).1
  · intro other hother i hi hi'
    cases side <;> cases other
    · exact hother rfl
    · exact (hcopy i hi).2 (horiginal i hi')
    · exact (hcopy i hi').2 (horiginal i hi)
    · exact hother rfl

/-- A snapshot answers like its scope, and whatever is asked in whatever order of the scopes that
were there, of those of the copied chain and of all that is opened from them, the answers of a side
are those to its own calls. -/
theorem Scope.snapshot_independent {s : Store} {forest : List Scope} {scope : Scope}
    (hforest : ∀ x ∈ forest, s.HasScope x) (hscope : scope ∈ forest) :
    ∃ copy s', scope.snapshot s = .done copy s' ∧
      (∀ name, copy.lookup name s' = scope.lookup name s' ∧
        scope.lookup name s' = scope.lookup name s) ∧
      ∀ (calls : List Call) (side : Side),
        ((Sides.ofSnapshot forest copy s').transcript calls).filter (·.1.side = side) =
          (Sides.ofSnapshot forest copy s').transcript (calls.filter (·.side = side)) := by
  refine ⟨_, _, snapshot_eq scope s, fun name => ?_, fun calls side => ?_⟩
  · have hlookup := lookup_withFrames (hforest scope hscope) (scope.chain.map s.frame) name
    exact ⟨(lookup_copyAt name).symm.trans hlookup.symm, hlookup⟩
  · obtain ⟨R, h⟩ := Sides.follows_ofSnapshot hforest side
    exact h.transcript_filter calls

/-- A global scope with a mutable and an immutable name, and two scopes inside it. -/
def nestedStore : Store where
  frames := #[[("count", ⟨.variable, some (.integer 1)⟩),
      ("limit", ⟨.immutableVariable, some (.integer 9)⟩)],
    [("total", ⟨.variable, none⟩)], [("count", ⟨.parameter, some (.integer 5)⟩)]]
  lists := #[]
  dictionaries := #[]
  identities := 0
  output := ⟨"", none⟩

def nestedForest : List Scope := [⟨⟨1⟩, [⟨0⟩]⟩, ⟨⟨2⟩, [⟨0⟩]⟩, ⟨⟨0⟩, []⟩]

/-- The second scope of the original side is the sibling, and that of the copy the copied global
scope. -/
def nestedCalls : List Call :=
  [⟨.original, 2, .assign "count" (.integer 2)⟩, ⟨.copy, 0, .get "count"⟩,
    ⟨.copy, 0, .child⟩, ⟨.copy, 2, .assign "total" (.integer 3)⟩, ⟨.original, 0, .get "total"⟩,
    ⟨.original, 0, .snapshot⟩, ⟨.copy, 1, .define "limit" .variable (.integer 0)⟩,
    ⟨.original, 3, .get "count"⟩]

theorem snapshot_independent_nested :
    (∀ x ∈ nestedForest, nestedStore.HasScope x) ∧ ⟨⟨1⟩, [⟨0⟩]⟩ ∈ nestedForest ∧
      ∃ copy s', Scope.snapshot ⟨⟨1⟩, [⟨0⟩]⟩ nestedStore = .done copy s' ∧
        (∀ name, copy.lookup name s' = Scope.lookup ⟨⟨1⟩, [⟨0⟩]⟩ name s' ∧
          Scope.lookup ⟨⟨1⟩, [⟨0⟩]⟩ name s' = Scope.lookup ⟨⟨1⟩, [⟨0⟩]⟩ name nestedStore) ∧
        ∀ (calls : List Call) (side : Side),
          ((Sides.ofSnapshot nestedForest copy s').transcript calls).filter (·.1.side = side) =
            (Sides.ofSnapshot nestedForest copy s').transcript (calls.filter (·.side = side)) := by
  have hforest : ∀ x ∈ nestedForest, nestedStore.HasScope x := by
    unfold Store.HasScope Store.HasFrame
    decide
  exact ⟨hforest, List.mem_cons_self, Scope.snapshot_independent hforest List.mem_cons_self⟩

example : ((Sides.ofSnapshot nestedForest ⟨⟨3⟩, [⟨4⟩]⟩
    (nestedStore.withFrames [[("total", ⟨.variable, none⟩)],
      [("count", ⟨.variable, some (.integer 1)⟩),
        ("limit", ⟨.immutableVariable, some (.integer 9)⟩)]])).transcript nestedCalls).map Prod.snd =
      [some (.ok .done), some (.ok (.value (.integer 1))), some (.ok (.opened 2)),
        some (.ok .done), some (.error (.uninitializedVariable "total")), some (.ok (.opened 3)),
        some (.error (.redeclaration "limit")), some (.ok (.value (.integer 2)))] := by rfl

end Offside
