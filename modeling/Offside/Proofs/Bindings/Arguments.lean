import Mathlib.Data.List.Induction
import Mathlib.Data.List.Nodup
import Offside.Evaluation.Arguments
import Offside.Proofs.Store.Frames

/-!
# Calls give every parameter one value

The scope of a call declares the names that the call gives values for, each of them once and with
its own value. The call gets its scope exactly if these names are the parameters, none is given
twice and no value is void. So neither the order of the keywords matters nor whether the last
positional argument is given by keyword.
-/

namespace Offside

open Store Run

/-! ## One run after another -/

theorem Run.bind_eq_done {α β : Type} {r : Run α} {f : α → Run β} {s t : Store} {b : β} :
    (r >>= f) s = .done b t ↔ ∃ a s', r s = .done a s' ∧ f a s' = .done b t := by
  rw [bind_apply]
  cases r s <;> simp [and_assoc]

/-- What a run does next matters only where the run gets to. -/
theorem Run.bind_congr_done {α β : Type} {r r' : Run α} {f f' : α → Run β} {s : Store}
    (hr : r s = r' s) (h : ∀ a t, r s = .done a t → f a t = f' a t) :
    (r >>= f) s = (r' >>= f') s := by
  rw [bind_apply, bind_apply, ← hr]
  cases hs : r s with
  | done a t => exact h a t hs
  | _ => rfl

/-! ## The frame of a call -/

namespace Store

theorem frame_last (s : Store) (frame : Frame) :
    (s.withFrames [frame]).frame ⟨s.frames.size⟩ = frame :=
  frame_withFrames_new s [frame] 0

theorem modifyFrame_last (s : Store) (frame : Frame) (f : Frame → Frame) :
    (s.withFrames [frame]).modifyFrame ⟨s.frames.size⟩ f = s.withFrames [f frame] := by
  unfold modifyFrame withFrames
  simp only [Store.mk.injEq, and_true]
  apply Array.ext'
  rw [Array.toList_modify, Array.toList_appendList, List.modify_eq_take_drop]
  simp

end Store

namespace Frame

variable {frame : Frame} {n : String} {v : Value} {entries entries' : List (String × Value)}

/-- The frame with further parameters and their values, the last before the others. -/
def withParameters (frame : Frame) (entries : List (String × Value)) : Frame :=
  entries.foldl (fun frame e => (e.1, ⟨.parameter, some e.2⟩) :: frame) frame

/-- The parameters are new and different, and none of their values is void. -/
def Accepts (frame : Frame) (entries : List (String × Value)) : Prop :=
  (entries.map Prod.fst).Nodup ∧ ∀ e ∈ entries, e.1 ∉ frame.names ∧ e.2.isVoid = false

theorem withParameters_append :
    frame.withParameters (entries ++ entries') =
      (frame.withParameters entries).withParameters entries' :=
  List.foldl_append ..

theorem names_withParameters :
    (frame.withParameters entries).names = (entries.map Prod.fst).reverse ++ frame.names := by
  induction entries generalizing frame with
  | nil => rfl
  | cons e rest ih =>
    show (withParameters ((e.1, ⟨.parameter, some e.2⟩) :: frame) rest).names = _
    rw [ih]
    simp [names]

theorem accepts_append : frame.Accepts (entries ++ entries') ↔
    frame.Accepts entries ∧ (frame.withParameters entries).Accepts entries' := by
  unfold Accepts
  rw [List.map_append, List.nodup_append', names_withParameters]
  constructor
  · rintro ⟨⟨hfirst, hlast, hdisjoint⟩, hall⟩
    refine ⟨⟨hfirst, fun e he => hall e (List.mem_append_left _ he)⟩, hlast, fun e he => ?_⟩
    obtain ⟨hnew, hvoid⟩ := hall e (List.mem_append_right _ he)
    refine ⟨fun hmem => ?_, hvoid⟩
    rcases List.mem_append.mp hmem with hmem | hmem
    · exact hdisjoint (List.mem_reverse.mp hmem) (List.mem_map_of_mem he)
    · exact hnew hmem
  · rintro ⟨⟨hfirst, hall⟩, hlast, hall'⟩
    refine ⟨⟨hfirst, hlast, ?_⟩, ?_⟩
    · intro n hn hn'
      obtain ⟨e, he, rfl⟩ := List.mem_map.mp hn'
      exact (hall' e he).1 (List.mem_append_left _ (List.mem_reverse.mpr hn))
    · intro e he
      rcases List.mem_append.mp he with he | he
      · exact hall e he
      · obtain ⟨hnew, hvoid⟩ := hall' e he
        exact ⟨fun hmem => hnew (List.mem_append_right _ hmem), hvoid⟩

theorem accepts_singleton : frame.Accepts [(n, v)] ↔ n ∉ frame.names ∧ v.isVoid = false := by
  simp [Accepts]

theorem binding?_withParameters {b : Binding} (h : (entries.map Prod.fst).Nodup) :
    (withParameters [] entries).binding? n = some b ↔
      ∃ v, (n, v) ∈ entries ∧ b = ⟨.parameter, some v⟩ := by
  induction entries using List.reverseRecOn with
  | nil => exact ⟨nofun, fun ⟨_, hmem, _⟩ => nomatch hmem⟩
  | append_singleton entries e ih =>
    rw [List.map_append, List.nodup_append'] at h
    have hlast : withParameters [] (entries ++ [e]) =
        (e.1, ⟨.parameter, some e.2⟩) :: withParameters [] entries := withParameters_append
    rw [hlast]
    by_cases hn : n = e.1
    · subst hn
      have hother : ∀ v, (e.1, v) ∉ entries := fun v hv =>
        h.2.2 (List.mem_map_of_mem hv) List.mem_cons_self
      have hfirst : binding? ((e.1, ⟨.parameter, some e.2⟩) :: withParameters [] entries) e.1 =
          some ⟨.parameter, some e.2⟩ := by
        simp [binding?]
      rw [hfirst]
      constructor
      · rintro ⟨⟩
        exact ⟨e.2, List.mem_append_right _ List.mem_cons_self, rfl⟩
      · rintro ⟨v, hv, rfl⟩
        rcases List.mem_append.mp hv with hv | hv
        · exact absurd hv (hother v)
        · rw [← List.mem_singleton.mp hv]
    · rw [binding?_cons_of_ne hn, ih h.1]
      have hmem (v : Value) : (n, v) ∈ entries ++ [e] ↔ (n, v) ∈ entries := by
        rw [List.mem_append, List.mem_singleton, or_iff_left]
        rintro rfl
        exact hn rfl
      simp only [hmem]

end Frame

/-! ## Definitions in the scope of a call -/

section Scope

variable {scope : Scope} {s t : Store} {frame : Frame} {n : String} {v : Value}
  (hscope : scope.innermost = ⟨s.frames.size⟩)
include hscope

theorem Scope.declaresLocally_last :
    scope.declaresLocally n (s.withFrames [frame]) = true ↔ n ∈ frame.names := by
  rw [Scope.declaresLocally_iff, hscope]
  show n ∈ Frame.names ((s.withFrames [frame]).frame ⟨s.frames.size⟩) ↔ _
  rw [frame_last]

theorem Scope.declare_last (hn : n ∉ frame.names) :
    scope.declare n .parameter (s.withFrames [frame]) =
      .done () (s.withFrames [(n, ⟨.parameter, none⟩) :: frame]) := by
  show (if scope.declaresLocally n (s.withFrames [frame]) then _ else _ : Run Unit) _ = _
  rw [if_neg fun h => hn ((declaresLocally_last hscope).mp h)]
  show Outcome.done () ((s.withFrames [frame]).modifyFrame scope.innermost _) = _
  rw [hscope, modifyFrame_last]

theorem Scope.declare_again (hn : n ∈ frame.names) :
    scope.declare n .parameter (s.withFrames [frame]) =
      .failed (.redeclaration n) (s.withFrames [frame]) := by
  show (if scope.declaresLocally n (s.withFrames [frame]) then _ else _ : Run Unit) _ = _
  rw [if_pos ((declaresLocally_last hscope).mpr hn)]
  rfl

/-- The first assignment to a parameter fails for void alone. -/
theorem Scope.assign_last (hn : n ∉ frame.names) :
    scope.assign n v (s.withFrames [(n, ⟨.parameter, none⟩) :: frame]) =
      if v.isVoid then
        .failed (.voidAssignment n) (s.withFrames [(n, ⟨.parameter, none⟩) :: frame])
      else .done () (s.withFrames [(n, ⟨.parameter, some v⟩) :: frame]) := by
  have hbinding : ((s.withFrames [(n, ⟨.parameter, none⟩) :: frame]).frame
      ⟨s.frames.size⟩).binding? n = some ⟨.parameter, none⟩ := by
    rw [frame_last]
    simp [Frame.binding?]
  have howner : (s.withFrames [(n, ⟨.parameter, none⟩) :: frame]).owner? n scope.chain =
      some ⟨s.frames.size⟩ := by
    unfold chain owner?
    rw [hscope, if_pos (by rw [Frame.declares, hbinding]; rfl)]
  unfold assign
  rw [howner]
  dsimp only
  rw [hbinding]
  cases hvoid : v.isVoid with
  | true => simp [checkAssign, hvoid]
  | false =>
    simp only [checkAssign, hvoid]
    show Outcome.done () (modifyFrame _ _ _) = Outcome.done () _
    rw [modifyFrame_last, Frame.set_cons_self hn]

/-- A parameter is defined exactly if it is new and its value is not void. -/
theorem Scope.define_eq_done :
    scope.define n .parameter v (s.withFrames [frame]) = .done () t ↔
      frame.Accepts [(n, v)] ∧ t = s.withFrames [frame.withParameters [(n, v)]] := by
  rw [Frame.accepts_singleton]
  unfold define
  rw [bind_eq_done]
  by_cases hn : n ∈ frame.names
  · rw [declare_again hscope hn]
    exact ⟨nofun, fun h => absurd hn h.1.1⟩
  · rw [declare_last hscope hn]
    constructor
    · rintro ⟨_, _, ⟨⟩, hassign⟩
      rw [assign_last hscope hn] at hassign
      split at hassign
      · cases hassign
      · rename_i hvoid
        cases hassign
        exact ⟨⟨hn, Bool.eq_false_iff.mpr hvoid⟩, rfl⟩
    · rintro ⟨⟨-, hvoid⟩, rfl⟩
      refine ⟨(), _, rfl, ?_⟩
      rw [assign_last hscope hn, hvoid]
      rfl

end Scope

/-! ## Arguments -/

namespace Function

section Binding

variable {f : Function} {scope : Scope} {s t : Store} {frame : Frame} {args : List Value}
  {keywords : List (String × Value)} (hscope : scope.innermost = ⟨s.frames.size⟩)
include hscope

omit hscope in
theorem nothing_eq_done : Outcome.done () (s.withFrames [frame]) = .done () t ↔
    frame.Accepts [] ∧ t = s.withFrames [frame.withParameters []] := by
  constructor
  · rintro ⟨⟩
    exact ⟨⟨List.nodup_nil, nofun⟩, rfl⟩
  · rintro ⟨-, rfl⟩
    rfl

theorem bindPositional_eq_done {parameters : List String} :
    bindPositional scope parameters args (s.withFrames [frame]) = .done () t ↔
      frame.Accepts (parameters.zip args) ∧
        t = s.withFrames [frame.withParameters (parameters.zip args)] := by
  induction parameters generalizing args frame with
  | nil => exact nothing_eq_done
  | cons parameter parameters ih =>
    cases args with
    | nil => exact nothing_eq_done
    | cons v args =>
      have hsplit : (parameter :: parameters).zip (v :: args) =
          [(parameter, v)] ++ parameters.zip args := rfl
      rw [hsplit, Frame.accepts_append, Frame.withParameters_append, and_assoc, ← ih]
      show (scope.define parameter .parameter v >>= fun _ => bindPositional scope parameters args)
        (s.withFrames [frame]) = _ ↔ _
      rw [bind_eq_done]
      constructor
      · rintro ⟨_, s', hdefine, hrest⟩
        obtain ⟨haccepts, rfl⟩ := (Scope.define_eq_done hscope).mp hdefine
        exact ⟨haccepts, hrest⟩
      · rintro ⟨haccepts, hrest⟩
        exact ⟨(), _, (Scope.define_eq_done hscope).mpr ⟨haccepts, rfl⟩, hrest⟩

section Keyword

variable {n : String} {v : Value} {rest : List (String × Value)}

/-- A keyword of a parameter that has no value yet. -/
theorem bindKeywords_cons (hknown : n ∈ f.definition.parameters) (hnew : n ∉ frame.names) :
    f.bindKeywords scope ((n, v) :: rest) (s.withFrames [frame]) =
      (do scope.define n .parameter v; f.bindKeywords scope rest : Run Unit)
        (s.withFrames [frame]) := by
  rw [bindKeywords, if_neg (by simpa using hknown)]
  show (if scope.declaresLocally n (s.withFrames [frame]) then _ else _ : Run Unit) _ = _
  rw [if_neg fun h => hnew ((Scope.declaresLocally_last hscope).mp h)]

theorem bindKeywords_cons_eq_done :
    f.bindKeywords scope ((n, v) :: rest) (s.withFrames [frame]) = .done () t ↔
      n ∈ f.definition.parameters ∧ n ∉ frame.names ∧
        (do scope.define n .parameter v; f.bindKeywords scope rest : Run Unit)
          (s.withFrames [frame]) = .done () t := by
  by_cases hknown : n ∈ f.definition.parameters
  · by_cases hnew : n ∈ frame.names
    · rw [bindKeywords, if_neg (by simpa using hknown)]
      show (if scope.declaresLocally n (s.withFrames [frame]) then _ else _ : Run Unit) _ = _ ↔ _
      rw [if_pos ((Scope.declaresLocally_last hscope).mpr hnew)]
      exact ⟨nofun, fun h => absurd hnew h.2.1⟩
    · rw [bindKeywords_cons hscope hknown hnew]
      exact ⟨fun h => ⟨hknown, hnew, h⟩, fun h => h.2.2⟩
  · rw [bindKeywords, if_pos (by simpa using hknown)]
    exact ⟨nofun, fun h => absurd h.1 hknown⟩

end Keyword

theorem bindKeywords_eq_done :
    f.bindKeywords scope keywords (s.withFrames [frame]) = .done () t ↔
      (∀ e ∈ keywords, e.1 ∈ f.definition.parameters) ∧ frame.Accepts keywords ∧
        t = s.withFrames [frame.withParameters keywords] := by
  induction keywords generalizing frame with
  | nil => exact nothing_eq_done.trans ⟨fun h => ⟨nofun, h⟩, fun h => h.2⟩
  | cons e rest ih =>
    obtain ⟨n, v⟩ := e
    have hsplit : (n, v) :: rest = [(n, v)] ++ rest := rfl
    rw [bindKeywords_cons_eq_done hscope, bind_eq_done, hsplit, Frame.accepts_append,
      Frame.withParameters_append, List.forall_mem_append, List.forall_mem_singleton]
    constructor
    · rintro ⟨hknown, -, _, s', hdefine, hrest⟩
      obtain ⟨haccepts, rfl⟩ := (Scope.define_eq_done hscope).mp hdefine
      obtain ⟨hknown', haccepts', rfl⟩ := ih.mp hrest
      exact ⟨⟨hknown, hknown'⟩, ⟨haccepts, haccepts'⟩, rfl⟩
    · rintro ⟨⟨hknown, hknown'⟩, ⟨haccepts, haccepts'⟩, rfl⟩
      exact ⟨hknown, (Frame.accepts_singleton.mp haccepts).1, (), _,
        (Scope.define_eq_done hscope).mpr ⟨haccepts, rfl⟩, ih.mpr ⟨hknown', haccepts', rfl⟩⟩

end Binding

variable {f : Function} {args : List Value} {keywords : List (String × Value)} {scope : Scope}
  {s t : Store}

/-- The parameters that a call gives values for, with these values. -/
def given (f : Function) (args : List Value) (keywords : List (String × Value)) :
    List (String × Value) :=
  f.definition.parameters.zip args ++ keywords

/-- The names of a call: a parameter for each positional argument, in order, and the keywords. -/
def givenNames (f : Function) (args : List Value) (keywords : List (String × Value)) :
    List String :=
  f.definition.parameters.take args.length ++ keywords.map Prod.fst

def givenValues (args : List Value) (keywords : List (String × Value)) : List Value :=
  args ++ keywords.map Prod.snd

/-- A call gives every parameter one value, and no other name. -/
structure Complete (f : Function) (args : List Value) (keywords : List (String × Value)) :
    Prop where
  fits : args.length ≤ f.definition.parameters.length
  nodup : (f.givenNames args keywords).Nodup
  covers : ∀ n, n ∈ f.givenNames args keywords ↔ n ∈ f.definition.parameters
  present : ∀ v ∈ givenValues args keywords, v.isVoid = false

/-- The scope of a call is inside the closure, and its frame is the new one. -/
def callScope (f : Function) (s : Store) : Scope := ⟨⟨s.frames.size⟩, f.closure.chain⟩

/-- The frame of a call. -/
def callFrame (f : Function) (args : List Value) (keywords : List (String × Value)) : Frame :=
  Frame.withParameters [] (f.given args keywords)

theorem names_zip {parameters : List String} (h : args.length ≤ parameters.length) :
    (parameters.zip args).map Prod.fst = parameters.take args.length := by
  rw [List.zip_eq_zip_take_min, Nat.min_eq_right h, List.take_length,
    List.map_fst_zip (by simp [h])]

theorem names_given (h : args.length ≤ f.definition.parameters.length) :
    (f.given args keywords).map Prod.fst = f.givenNames args keywords := by
  rw [given, givenNames, List.map_append, names_zip h]

theorem values_given (h : args.length ≤ f.definition.parameters.length) :
    (f.given args keywords).map Prod.snd = givenValues args keywords := by
  rw [given, givenValues, List.map_append, List.map_snd_zip h]

theorem length_givenNames (h : args.length ≤ f.definition.parameters.length) :
    (f.givenNames args keywords).length = (givenValues args keywords).length := by
  rw [← names_given h, ← values_given h, List.length_map, List.length_map]

theorem mem_given {i : Nat} {n : String} {v : Value}
    (h : args.length ≤ f.definition.parameters.length)
    (hn : (f.givenNames args keywords)[i]? = some n)
    (hv : (givenValues args keywords)[i]? = some v) : (n, v) ∈ f.given args keywords := by
  rw [← names_given h, List.getElem?_map, Option.map_eq_some_iff] at hn
  rw [← values_given h, List.getElem?_map, Option.map_eq_some_iff] at hv
  obtain ⟨e, he, rfl⟩ := hn
  obtain ⟨_, he', rfl⟩ := hv
  obtain rfl := Option.some.inj (he.symm.trans he')
  exact List.mem_of_getElem? he

theorem names_callFrame_perm (h : args.length ≤ f.definition.parameters.length) :
    (f.callFrame args keywords).names.Perm (f.givenNames args keywords) := by
  rw [callFrame, Frame.names_withParameters, names_given h]
  simp [Frame.names]

theorem Complete.binding?_callFrame {n : String} {b : Binding} (h : f.Complete args keywords) :
    (f.callFrame args keywords).binding? n = some b ↔
      ∃ v, (n, v) ∈ f.given args keywords ∧ b = ⟨.parameter, some v⟩ := by
  refine Frame.binding?_withParameters ?_
  rw [names_given h.fits]
  exact h.nodup

theorem complete_iff : f.Complete args keywords ↔
    args.length ≤ f.definition.parameters.length ∧ Frame.Accepts [] (f.given args keywords) ∧
      (∀ e ∈ keywords, e.1 ∈ f.definition.parameters) ∧
        ∀ n ∈ f.definition.parameters, n ∈ (f.callFrame args keywords).names := by
  constructor
  · rintro ⟨hfits, hnodup, hcovers, hpresent⟩
    refine ⟨hfits, ⟨by rwa [names_given hfits], fun e he => ⟨List.not_mem_nil, ?_⟩⟩, ?_, ?_⟩
    · exact hpresent _ (values_given hfits ▸ List.mem_map_of_mem he)
    · exact fun e he => (hcovers _).mp (List.mem_append_right _ (List.mem_map_of_mem he))
    · exact fun n hn => (names_callFrame_perm hfits).mem_iff.mpr ((hcovers n).mpr hn)
  · rintro ⟨hfits, ⟨hnodup, haccepts⟩, hknown, hall⟩
    refine ⟨hfits, by rwa [← names_given hfits], fun n => ⟨fun hn => ?_, fun hn => ?_⟩, ?_⟩
    · rcases List.mem_append.mp hn with hn | hn
      · exact List.mem_of_mem_take hn
      · obtain ⟨e, he, rfl⟩ := List.mem_map.mp hn
        exact hknown e he
    · exact (names_callFrame_perm hfits).mem_iff.mp (hall n hn)
    · intro v hv
      rw [← values_given hfits] at hv
      obtain ⟨e, he, rfl⟩ := List.mem_map.mp hv
      exact (haccepts e he).2

/-- The end of a call's binding: a parameter without a value is a fault. -/
def finish (f : Function) (scope : Scope) (given : Nat) : Run Scope := do
  if ← Run.read fun s => f.definition.parameters.all (scope.declaresLocally · s) then
    return scope
  else Run.fail (f.arityFault given)

theorem bindArguments_eq (h : args.length ≤ f.definition.parameters.length) :
    f.bindArguments args keywords s = (do
      bindPositional (f.callScope s) f.definition.parameters args
      f.bindKeywords (f.callScope s) keywords
      f.finish (f.callScope s) (args.length + keywords.length) : Run Scope)
        (s.withFrames [[]]) := by
  unfold bindArguments
  rw [if_neg (Nat.not_lt_of_le h), bind_apply, Scope.child_eq]
  rfl

theorem finish_eq_done {frame : Frame} {given : Nat} (hscope : scope.innermost = ⟨s.frames.size⟩)
    {inner : Scope} : f.finish scope given (s.withFrames [frame]) = .done inner t ↔
      (∀ n ∈ f.definition.parameters, n ∈ frame.names) ∧ inner = scope ∧
        t = s.withFrames [frame] := by
  have hall : f.definition.parameters.all (scope.declaresLocally · (s.withFrames [frame])) = true ↔
      ∀ n ∈ f.definition.parameters, n ∈ frame.names := by
    rw [List.all_eq_true]
    exact forall₂_congr fun n _ => Scope.declaresLocally_last hscope
  rw [← hall]
  show (if f.definition.parameters.all (scope.declaresLocally · (s.withFrames [frame])) then _
    else _ : Run Scope) _ = _ ↔ _
  split
  · rename_i h
    constructor
    · rintro ⟨⟩
      exact ⟨h, rfl, rfl⟩
    · rintro ⟨-, rfl, rfl⟩
      rfl
  · rename_i h
    exact ⟨nofun, fun hdone => absurd hdone.1 h⟩

theorem bindArguments_eq_done : f.bindArguments args keywords s = .done scope t ↔
    f.Complete args keywords ∧ scope = f.callScope s ∧
      t = s.withFrames [f.callFrame args keywords] := by
  have hscope : (f.callScope s).innermost = ⟨s.frames.size⟩ := rfl
  have happend : f.callFrame args keywords =
      (Frame.withParameters [] (f.definition.parameters.zip args)).withParameters keywords :=
    Frame.withParameters_append
  rw [complete_iff, given, Frame.accepts_append, happend]
  by_cases hfits : args.length ≤ f.definition.parameters.length
  · rw [bindArguments_eq hfits, bind_eq_done]
    constructor
    · rintro ⟨_, _, hpositional, h⟩
      obtain ⟨haccepts, rfl⟩ := (bindPositional_eq_done hscope).mp hpositional
      obtain ⟨_, _, hkeywords, h⟩ := bind_eq_done.mp h
      obtain ⟨hknown, haccepts', rfl⟩ := (bindKeywords_eq_done hscope).mp hkeywords
      obtain ⟨hall, rfl, rfl⟩ := (finish_eq_done hscope).mp h
      exact ⟨⟨hfits, ⟨haccepts, haccepts'⟩, hknown, hall⟩, rfl, rfl⟩
    · rintro ⟨⟨-, ⟨haccepts, haccepts'⟩, hknown, hall⟩, rfl, rfl⟩
      exact ⟨(), _, (bindPositional_eq_done hscope).mpr ⟨haccepts, rfl⟩, bind_eq_done.mpr ⟨(), _,
        (bindKeywords_eq_done hscope).mpr ⟨hknown, haccepts', rfl⟩,
        (finish_eq_done hscope).mpr ⟨hall, rfl, rfl⟩⟩⟩
  · unfold bindArguments
    rw [if_pos (Nat.lt_of_not_le hfits)]
    exact ⟨nofun, fun h => absurd h.1.1 hfits⟩

/-! ## Other ways to give the same values -/

/-- Both give a scope with one new frame, in which every name is bound alike, or neither does. -/
def BindsAlike (r r' : Run Scope) (s : Store) : Prop :=
  (∃ scope frame frame', r s = .done scope (s.withFrames [frame]) ∧
    r' s = .done scope (s.withFrames [frame']) ∧ ∀ n, frame.binding? n = frame'.binding? n) ∨
  (∀ scope t, r s ≠ .done scope t) ∧ ∀ scope t, r' s ≠ .done scope t

section Alike

variable {args' : List Value} {keywords' : List (String × Value)}

theorem Complete.congr (h : f.Complete args keywords)
    (hfits : args'.length ≤ f.definition.parameters.length)
    (hgiven : (f.given args keywords).Perm (f.given args' keywords')) :
    f.Complete args' keywords' := by
  have hnames : (f.givenNames args keywords).Perm (f.givenNames args' keywords') := by
    rw [← names_given h.fits, ← names_given hfits]
    exact hgiven.map _
  have hvalues : (givenValues args keywords).Perm (givenValues args' keywords') := by
    rw [← values_given h.fits, ← values_given hfits]
    exact hgiven.map _
  refine ⟨hfits, hnames.nodup_iff.mp h.nodup, fun n => ?_, fun v hv => ?_⟩
  · rw [← hnames.mem_iff]
    exact h.covers n
  · exact h.present v (hvalues.mem_iff.mpr hv)

theorem Complete.binding?_congr (h : f.Complete args keywords) (h' : f.Complete args' keywords')
    (hgiven : (f.given args keywords).Perm (f.given args' keywords')) (n : String) :
    (f.callFrame args keywords).binding? n = (f.callFrame args' keywords').binding? n :=
  Option.ext fun b => by simp only [h.binding?_callFrame, h'.binding?_callFrame, hgiven.mem_iff]

/-- Which values are given to which parameters is all that matters. -/
theorem bindsAlike_of_perm
    (hfits : args.length ≤ f.definition.parameters.length ↔
      args'.length ≤ f.definition.parameters.length)
    (hgiven : (f.given args keywords).Perm (f.given args' keywords')) :
    BindsAlike (f.bindArguments args keywords) (f.bindArguments args' keywords') s := by
  by_cases h : f.Complete args keywords
  · have h' := h.congr (hfits.mp h.fits) hgiven
    exact Or.inl ⟨_, _, _, bindArguments_eq_done.mpr ⟨h, rfl, rfl⟩,
      bindArguments_eq_done.mpr ⟨h', rfl, rfl⟩, h.binding?_congr h' hgiven⟩
  · refine Or.inr ⟨fun _ _ hdone => h (bindArguments_eq_done.mp hdone).1, fun _ _ hdone => ?_⟩
    have h' := (bindArguments_eq_done.mp hdone).1
    exact h (h'.congr (hfits.mpr h'.fits) hgiven.symm)

end Alike

section Moving

variable {v : Value} {n : String}

theorem zip_concat {parameters : List String} (h : parameters[args.length]? = some n) :
    parameters.zip (args ++ [v]) = parameters.zip args ++ [(n, v)] := by
  induction args generalizing parameters with
  | nil =>
    cases parameters with
    | nil => cases h
    | cons parameter rest =>
      obtain rfl : parameter = n := Option.some.inj h
      simp
  | cons arg args ih =>
    cases parameters with
    | nil => cases h
    | cons parameter rest =>
      have hrest : rest[args.length]? = some n := h
      simp [ih hrest]

theorem given_concat (h : f.definition.parameters[args.length]? = some n) :
    f.given (args ++ [v]) keywords = f.given args ((n, v) :: keywords) := by
  unfold given
  rw [zip_concat h, List.append_assoc]
  rfl

/-- The last positional argument is given after the others. -/
theorem bindPositional_concat {parameters : List String} (h : parameters[args.length]? = some n) :
    bindPositional scope parameters (args ++ [v]) =
      (do bindPositional scope parameters args; scope.define n .parameter v) := by
  induction args generalizing parameters with
  | nil =>
    cases parameters with
    | nil => cases h
    | cons parameter rest =>
      obtain rfl : parameter = n := Option.some.inj h
      have hnone (parameters : List String) : bindPositional scope parameters [] = pure () := by
        cases parameters <;> rfl
      show (scope.define parameter .parameter v >>= fun _ => bindPositional scope rest []) = _
      rw [hnone, hnone, pure_bind, bind_pure_unit]
  | cons arg args ih =>
    cases parameters with
    | nil => cases h
    | cons parameter rest =>
      have hrest : rest[args.length]? = some n := h
      show (scope.define parameter .parameter arg >>= fun _ =>
        bindPositional scope rest (args ++ [v])) = _
      rw [ih hrest]
      show _ = ((scope.define parameter .parameter arg >>= fun _ =>
        bindPositional scope rest args) >>= fun _ => scope.define n .parameter v)
      rw [bind_assoc]

/-- A value for a parameter that has none is given by position or by keyword alike. -/
theorem bindArguments_concat (h : f.definition.parameters[args.length]? = some n)
    (hnew : n ∉ f.definition.parameters.take args.length) :
    f.bindArguments (args ++ [v]) keywords s = f.bindArguments args ((n, v) :: keywords) s := by
  have hscope : (f.callScope s).innermost = ⟨s.frames.size⟩ := rfl
  have hshort : args.length < f.definition.parameters.length := (List.getElem?_eq_some_iff.mp h).1
  have hlength : (args ++ [v]).length = args.length + 1 := List.length_append
  rw [bindArguments_eq (by omega), bindArguments_eq (Nat.le_of_lt hshort), bindPositional_concat h,
    bind_assoc]
  refine bind_congr_done rfl fun _ t hpositional => ?_
  obtain ⟨-, rfl⟩ := (bindPositional_eq_done hscope).mp hpositional
  have hfree : n ∉ (Frame.withParameters [] (f.definition.parameters.zip args)).names := by
    rw [Frame.names_withParameters, names_zip (Nat.le_of_lt hshort)]
    simpa [Frame.names] using hnew
  rw [← bind_assoc]
  refine bind_congr_done ?_ fun _ t _ => ?_
  · exact (bindKeywords_cons hscope (List.mem_of_getElem? h) hfree).symm
  · rw [hlength, List.length_cons, Nat.add_right_comm, Nat.add_assoc]

end Moving

/-- A call gets its scope exactly if the names that it gives are the parameters, each once, and no
value is void. The frame of the scope binds these names, each to its own value. Neither the order of
the keywords matters nor whether the last positional argument is given by keyword, but for the fault
of a parameter that has its value already. -/
theorem bindArguments_exact (f : Function) (args : List Value) (keywords : List (String × Value))
    (s : Store) :
    ((∃ scope t, f.bindArguments args keywords s = .done scope t) ↔
      args.length ≤ f.definition.parameters.length ∧ (f.givenNames args keywords).Nodup ∧
        (∀ n, n ∈ f.givenNames args keywords ↔ n ∈ f.definition.parameters) ∧
          ∀ v ∈ givenValues args keywords, v.isVoid = false) ∧
    (∀ scope t, f.bindArguments args keywords s = .done scope t →
      scope = ⟨⟨s.frames.size⟩, f.closure.chain⟩ ∧ t = s.withFrames [t.frame scope.innermost] ∧
        (t.names scope.innermost).Perm (f.givenNames args keywords) ∧
        (f.givenNames args keywords).length = (givenValues args keywords).length ∧
        ∀ (i : Nat) n v, (f.givenNames args keywords)[i]? = some n →
          (givenValues args keywords)[i]? = some v →
            (t.frame scope.innermost).binding? n = some ⟨.parameter, some v⟩) ∧
    (∀ keywords', keywords'.Perm keywords →
      BindsAlike (f.bindArguments args keywords) (f.bindArguments args keywords') s) ∧
    ∀ first v n keywords', args = first ++ [v] →
      f.definition.parameters[first.length]? = some n → keywords'.Perm ((n, v) :: keywords) →
        BindsAlike (f.bindArguments args keywords) (f.bindArguments first keywords') s ∧
          (n ∉ f.definition.parameters.take first.length →
            f.bindArguments args keywords s = f.bindArguments first ((n, v) :: keywords) s) := by
  refine ⟨⟨?_, ?_⟩, ?_, ?_, ?_⟩
  · rintro ⟨scope, t, h⟩
    obtain ⟨hfits, hnodup, hcovers, hpresent⟩ := (bindArguments_eq_done.mp h).1
    exact ⟨hfits, hnodup, hcovers, hpresent⟩
  · rintro ⟨hfits, hnodup, hcovers, hpresent⟩
    exact ⟨_, _, bindArguments_eq_done.mpr ⟨⟨hfits, hnodup, hcovers, hpresent⟩, rfl, rfl⟩⟩
  · intro scope t h
    obtain ⟨hcomplete, rfl, rfl⟩ := bindArguments_eq_done.mp h
    have hframe : (s.withFrames [f.callFrame args keywords]).frame (f.callScope s).innermost =
        f.callFrame args keywords := frame_last ..
    unfold Store.names
    rw [hframe]
    exact ⟨rfl, rfl, names_callFrame_perm hcomplete.fits, length_givenNames hcomplete.fits,
      fun i n v hn hv => hcomplete.binding?_callFrame.mpr ⟨v, mem_given hcomplete.fits hn hv, rfl⟩⟩
  · intro keywords' hperm
    exact bindsAlike_of_perm Iff.rfl (hperm.symm.append_left _)
  · rintro first v n keywords' rfl hn hperm
    have hshort := (List.getElem?_eq_some_iff.mp hn).1
    refine ⟨bindsAlike_of_perm (by simp; omega) ?_, bindArguments_concat hn⟩
    rw [given_concat hn]
    exact hperm.symm.append_left _

end Function

end Offside
