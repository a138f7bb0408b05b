import Offside.Evaluation
import Offside.Proofs.Bindings.Arguments
import Offside.Proofs.Value.Data
import Offside.Proofs.Value.Dictionary
import Offside.Proofs.Value.Indexing
import Offside.Proofs.Value.Number

/-!
# Expressions that make copies

An expression without names makes new containers and leaves all others alone, so that the copies
made by its operands last while the rest of it is evaluated.
-/

namespace Offside

/-- A store with more containers, and the frames as they were. -/
structure Store.Gains (s t : Store) : Prop extends s.KeepsContainers t where
  frames : t.frames = s.frames

namespace Store.Gains

variable {s t t' : Store}

theorem refl (s : Store) : s.Gains s := ⟨.refl s, rfl⟩

theorem trans (h : s.Gains t) (h' : t.Gains t') : s.Gains t' :=
  ⟨h.toKeepsContainers.trans h'.toKeepsContainers, h'.frames.trans h.frames⟩

end Store.Gains

/-- With enough fuel the expression makes a copy of the value, in every scope of every store. -/
def Expr.Rebuilds (e : Expr) (s : Store) (v : Value) : Prop :=
  ∀ scope t, ∃ w t', t.Gains t' ∧ Value.IsCopy s t' v w ∧
    ∃ n, ∀ fuel, n ≤ fuel → e.eval fuel scope t = .done w t'

namespace Expr

open Run Value

variable {s t : Store} {e : Expr} {v w : Value}

/-! ## Scalars -/

theorem rebuilds_of_constant (hcopy : ∀ t, IsCopy s t v v)
    (h : ∀ fuel scope t, e.eval (fuel + 1) scope t = .done v t) : e.Rebuilds s v := by
  refine fun scope t => ⟨v, t, .refl t, hcopy t, 1, fun fuel hfuel => ?_⟩
  obtain ⟨fuel, rfl⟩ := Nat.exists_eq_add_of_le' hfuel
  exact h fuel scope t

theorem null_rebuilds : Expr.null.Rebuilds s .null :=
  rebuilds_of_constant (fun _ => .null) fun _ _ _ => rfl

theorem boolean_rebuilds (b : Bool) : (Expr.boolean b).Rebuilds s (.boolean b) :=
  rebuilds_of_constant (fun _ => .boolean b) fun _ _ _ => rfl

theorem integer_rebuilds (n : Int64) : (Expr.integer n).Rebuilds s (.integer n) :=
  rebuilds_of_constant (fun _ => .integer n) fun _ _ _ => rfl

theorem string_rebuilds (text : String) : (Expr.string text).Rebuilds s (.string text) :=
  rebuilds_of_constant (fun _ => .string text) fun _ _ _ => rfl

theorem negative_rebuilds {m n : Int64} (h : -m.toInt = n.toInt) :
    (Expr.negative (.integer m)).Rebuilds s (.integer n) := by
  refine fun scope t => ⟨.integer n, t, .refl t, .integer n, 2, fun fuel hfuel => ?_⟩
  obtain ⟨fuel, rfl⟩ := Nat.exists_eq_add_of_le' hfuel
  have hnegate : Number.negate (.integer m) = .ok (.integer n) := by
    show Number.checked .subtract (-m.toInt) = _
    rw [h, Number.checked, Number.integer?_toInt]
  show Run.ofExcept (Number.negate (.integer m)) t = _
  rw [hnegate]
  rfl

/-! ## Lists -/

theorem storable_copy {what : String} (h : IsCopy s t v w) : storable what w = .ok w := by
  cases h <;> rfl

theorem evalAll_rebuilds {vs : List Value} {es : List Expr}
    (h : List.Forall₂ (fun v e => e.Rebuilds s v) vs es) (scope : Scope) (t : Store) :
    ∃ ws t', t.Gains t' ∧ List.Forall₂ (IsCopy s t') vs ws ∧ ∃ n, ∀ fuel, n ≤ fuel →
      (evalAll (fun e => do Run.ofExcept (storable "list item" (← e.eval fuel scope))) es :
        Run (List Value)) t = .done ws t' := by
  induction h generalizing t with
  | nil => exact ⟨[], t, .refl t, .nil, 0, fun _ _ => rfl⟩
  | cons he _ ih =>
    obtain ⟨w, t₁, hgains, hcopy, n, heval⟩ := he scope t
    obtain ⟨ws, t₂, hgains', hcopies, n', heval'⟩ := ih t₁
    -- the first copy is still there when the others have been made
    refine ⟨w :: ws, t₂, hgains.trans hgains',
      .cons (hcopy.mono (.refl s) hgains'.toKeepsContainers) hcopies, max n n',
      fun fuel hfuel => ?_⟩
    have hfirst := heval fuel (by omega)
    have hrest := heval' fuel (by omega)
    refine bind_eq_done.mpr ⟨w, t₁, bind_eq_done.mpr ⟨w, t₁, hfirst, ?_⟩,
      bind_eq_done.mpr ⟨ws, t₂, hrest, rfl⟩⟩
    rw [storable_copy hcopy]
    rfl

theorem list_rebuilds {a : ListId} {es : List Expr} (ha : a.index < s.lists.size)
    (h : List.Forall₂ (fun v e => e.Rebuilds s v) (s.list a).toList es) :
    (Expr.list es).Rebuilds s (.list a) := by
  intro scope t
  obtain ⟨ws, t', hgains, hcopies, n, heval⟩ := evalAll_rebuilds h scope t
  have hpush := Store.KeepsContainers.push_list t' ws.toArray
  have hnew := Store.list_push t' ws.toArray
  refine ⟨.list ⟨t'.lists.size⟩, _, hgains.trans ⟨hpush, rfl⟩, ?_, n + 1, fun fuel hfuel => ?_⟩
  · obtain ⟨hlength, hzip⟩ := List.forall₂_iff_zip.mp hcopies
    refine .list ha (by simp) ?_ ?_
    · simpa [hnew] using hlength
    · rw [hnew]
      exact fun p hp => (hzip hp).mono (.refl s) hpush
  · obtain ⟨fuel, rfl⟩ := Nat.exists_eq_add_of_le' (Nat.le_of_add_left_le hfuel)
    exact bind_eq_done.mpr ⟨ws, t', heval fuel (Nat.le_of_succ_le_succ hfuel), rfl⟩

/-! ## Dictionaries -/

theorem evalEntries_rebuilds {entries : List (Key × Value)} {es : List (Expr × Expr)}
    (h : List.Forall₂ (fun entry e => e.1.Rebuilds s entry.1.toValue ∧ e.2.Rebuilds s entry.2)
      entries es) (scope : Scope) (t : Store) :
    ∃ copies t', t.Gains t' ∧
      List.Forall₂ (fun entry copy => entry.1 = copy.1 ∧ IsCopy s t' entry.2 copy.2)
        entries copies ∧ ∃ n, ∀ fuel, n ≤ fuel →
      (evalEntries (Expr.eval fuel scope) es : Run (List (Key × Value))) t = .done copies t' := by
  induction h generalizing t with
  | nil => exact ⟨[], t, .refl t, .nil, 0, fun _ _ => rfl⟩
  | @cons entry e _ _ he _ ih =>
    obtain ⟨κ, v⟩ := entry
    obtain ⟨k, t₁, hgains, hkey, n, heval⟩ := he.1 scope t
    obtain ⟨w, t₂, hgains', hcopy, n', heval'⟩ := he.2 scope t₁
    obtain ⟨copies, t₃, hgains'', hcopies, n'', heval''⟩ := ih t₂
    obtain rfl : k = κ.toValue := by cases κ <;> cases hkey <;> rfl
    refine ⟨(κ, w) :: copies, t₃, hgains.trans (hgains'.trans hgains''),
      .cons ⟨rfl, hcopy.mono (.refl s) hgains''.toKeepsContainers⟩ hcopies, max n (max n' n''),
      fun fuel hfuel => ?_⟩
    have hfirst := heval fuel (by omega)
    have hsecond := heval' fuel (by omega)
    have hrest := heval'' fuel (by omega)
    refine bind_eq_done.mpr ⟨_, t₁, hfirst, bind_eq_done.mpr ⟨κ, t₁, ?_,
      bind_eq_done.mpr ⟨w, t₂, hsecond, bind_eq_done.mpr ⟨w, t₂, ?_,
        bind_eq_done.mpr ⟨copies, t₃, hrest, rfl⟩⟩⟩⟩⟩
    · rw [key_toValue]
      rfl
    · rw [storable_copy hcopy]
      rfl

theorem dictionary_rebuilds {b : DictionaryId} {es : List (Expr × Expr)}
    (hb : b.index < s.dictionaries.size)
    (h : List.Forall₂ (fun entry e => e.1.Rebuilds s entry.1.toValue ∧ e.2.Rebuilds s entry.2)
      (s.dictionary b).entries.toList es) : (Expr.dictionary es).Rebuilds s (.dictionary b) := by
  intro scope t
  obtain ⟨copies, t', hgains, hcopies, n, heval⟩ := evalEntries_rebuilds h scope t
  have hpush := Store.KeepsContainers.push_dictionary t' (.ofList copies)
  have hnew := Store.dictionary_push t' (.ofList copies)
  obtain ⟨hlength, hzip⟩ := List.forall₂_iff_zip.mp hcopies
  have hkeys : (s.dictionary b).keys = copies.map Prod.fst := by
    have hall : List.Forall₂ (· = ·) ((s.dictionary b).entries.toList.map Prod.fst)
        (copies.map Prod.fst) := by
      rw [List.forall₂_map_left_iff, List.forall₂_map_right_iff]
      exact hcopies.imp fun _ _ h => h.1
    rwa [List.forall₂_eq_eq_eq] at hall
  have hentries : (Dictionary.ofList copies).entries.toList = copies :=
    Dictionary.entries_ofList (hkeys ▸ (s.dictionary b).nodup)
  refine ⟨.dictionary ⟨t'.dictionaries.size⟩, _, hgains.trans ⟨hpush, rfl⟩, ?_, n + 1,
    fun fuel hfuel => ?_⟩
  · refine .dictionary hb (by simp) ?_ ?_
    · rw [hnew, hkeys, Dictionary.keys, hentries]
    · rw [hnew, hentries]
      exact fun p hp => (hzip hp).2.mono (.refl s) hpush
  · obtain ⟨fuel, rfl⟩ := Nat.exists_eq_add_of_le' (Nat.le_of_add_left_le hfuel)
    exact bind_eq_done.mpr ⟨copies, t', heval fuel (Nat.le_of_succ_le_succ hfuel), rfl⟩

end Expr

end Offside
