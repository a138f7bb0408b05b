import Mathlib.Data.List.Forall2
import Mathlib.Data.List.Nodup
import Mathlib.Data.List.Perm.Subperm
import Mathlib.Data.List.ProdSigma
import Offside.Proofs.Decimal.Bits
import Offside.Value.Equality

/-!
# Equality is bisimilarity

Two values are bisimilar if no walk into both of them in step ever tells them apart. Lists and
dictionaries can hold themselves, so that such a walk need not end. Equality answers after finitely
many steps all the same, with `true` for bisimilar values and no others.
-/

namespace Offside

/-! ## Dictionaries as maps -/

namespace Dictionary

variable {d e : Dictionary} {k : Key} {v : Value}

theorem lookup_indices {i : Nat} : d.indices.lookup k = some i ↔ d.keys[i]? = some k := by
  rw [d.indexes k i]
  simp [keys]

theorem nodup (d : Dictionary) : d.keys.Nodup := by
  rw [List.nodup_iff_getElem?_ne_getElem?]
  intro i j hij hj hsame
  have hkey : d.keys[j]? = some d.keys[j] := List.getElem?_eq_getElem hj
  -- the table has one position for a key
  have hi := lookup_indices.mpr (hsame.trans hkey)
  have hj := lookup_indices.mpr hkey
  have := Option.some.inj (hi.symm.trans hj)
  omega

theorem get?_eq_some : d.get? k = some v ↔ (k, v) ∈ d.entries.toList := by
  simp only [get?_eq_bind, Option.bind_eq_some_iff, Option.map_eq_some_iff, Array.mem_toList_iff,
    Array.mem_iff_getElem?]
  constructor
  · rintro ⟨i, hi, e, he, rfl⟩
    obtain ⟨w, hw⟩ := (d.indexes k i).mp hi
    obtain rfl : e = (k, w) := Option.some.inj (he.symm.trans hw)
    exact ⟨i, he⟩
  · rintro ⟨i, hi⟩
    exact ⟨i, (d.indexes k i).mpr ⟨v, hi⟩, (k, v), hi, rfl⟩

theorem mem_keys : k ∈ d.keys ↔ ∃ v, d.get? k = some v := by
  simp only [keys, List.mem_map, get?_eq_some]
  constructor
  · rintro ⟨⟨k, v⟩, h, rfl⟩
    exact ⟨v, h⟩
  · rintro ⟨v, h⟩
    exact ⟨(k, v), h, rfl⟩

theorem length_keys : d.keys.length = d.size := by
  simp [keys, size]

/-- Of two dictionaries of one size, neither has a key more. -/
theorem keys_subset (hsize : d.size = e.size) (h : d.keys ⊆ e.keys) : e.keys ⊆ d.keys := by
  have hperm : d.keys.Subperm e.keys := List.Nodup.subperm d.nodup h
  have hle : e.keys.length ≤ d.keys.length := by
    rw [length_keys, length_keys]
    exact Nat.le_of_eq hsize.symm
  exact (hperm.perm_of_length_le hle).symm.subset

theorem keys_subset_of_get? {R : Value → Value → Prop}
    (h : ∀ k x, d.get? k = some x → ∃ y, e.get? k = some y ∧ R x y) : d.keys ⊆ e.keys := by
  intro k hk
  obtain ⟨x, hx⟩ := mem_keys.mp hk
  obtain ⟨y, hy, -⟩ := h k x hx
  exact mem_keys.mpr ⟨y, hy⟩

end Dictionary

/-! ## Containers -/

def Container.toValue : Container → Value
  | .list a => .list a
  | .dictionary a => .dictionary a

namespace Store

variable {s : Store} {v : Value}

/-- All containers of the store. No other one holds anything. -/
def everyContainer (s : Store) : List Container :=
  (List.range s.lists.size).map (fun i => .list ⟨i⟩) ++
    (List.range s.dictionaries.size).map fun i => .dictionary ⟨i⟩

theorem length_everyContainer (s : Store) : s.everyContainer.length = s.containers := by
  simp [everyContainer, containers]

theorem mem_everyContainer_of_list {a : ListId} (h : v ∈ (s.list a).toList) :
    .list a ∈ s.everyContainer := by
  by_cases ha : a.index < s.lists.size
  · exact List.mem_append_left _ (List.mem_map.mpr ⟨a.index, List.mem_range.mpr ha, rfl⟩)
  · simp [list, ha] at h

theorem mem_everyContainer_of_dictionary {a : DictionaryId} {k : Key}
    (h : (s.dictionary a).get? k = some v) : .dictionary a ∈ s.everyContainer := by
  by_cases ha : a.index < s.dictionaries.size
  · exact List.mem_append_right _ (List.mem_map.mpr ⟨a.index, List.mem_range.mpr ha, rfl⟩)
  · simp [dictionary, ha] at h

end Store

namespace Value

/-! ## Bisimilar values -/

/-- Two values that look alike, with their elements in a relation. -/
inductive Matches (s : Store) (R : Value → Value → Prop) : Value → Value → Prop where
  | integer (n : Int64) : Matches s R (.integer n) (.integer n)
  | float {x y : Float} : (x == y) = true → Matches s R (.float x) (.float y)
  | integerFloat {n : Int64} {x : Float} :
    (n.toFloat == x) = true → Matches s R (.integer n) (.float x)
  | floatInteger {x : Float} {n : Int64} :
    (n.toFloat == x) = true → Matches s R (.float x) (.integer n)
  | string (text : String) : Matches s R (.string text) (.string text)
  | boolean (b : Bool) : Matches s R (.boolean b) (.boolean b)
  | null : Matches s R .null .null
  | void : Matches s R .void .void
  | sameList (a : ListId) : Matches s R (.list a) (.list a)
  | list {a b : ListId} :
    List.Forall₂ R (s.list a).toList (s.list b).toList → Matches s R (.list a) (.list b)
  | sameDictionary (a : DictionaryId) : Matches s R (.dictionary a) (.dictionary a)
  | dictionary {a b : DictionaryId} :
    (s.dictionary a).size = (s.dictionary b).size →
    (∀ k x, (s.dictionary a).get? k = some x → ∃ y, (s.dictionary b).get? k = some y ∧ R x y) →
    Matches s R (.dictionary a) (.dictionary b)
  | function {f g : Function} :
    f.identity = g.identity → Matches s R (.function f) (.function g)
  | builtin {b c : Builtin} : b.identity = c.identity → Matches s R (.builtin b) (.builtin c)
  | classObject {c d : Class} :
    c.identity = d.identity → Matches s R (.classObject c) (.classObject d)
  | classInstance {i j : Instance} :
    i.identity = j.identity → Matches s R (.classInstance i) (.classInstance j)

/-- The greatest relation in which only values that match are related. -/
def Bisimilar (s : Store) (v w : Value) : Prop :=
  ∃ R, (∀ v w, R v w → Matches s R v w) ∧ R v w

section Matches

variable {s : Store} {R S : Value → Value → Prop} {v w : Value}

theorem Matches.mono (h : Matches s R v w) (hRS : ∀ x y, R x y → S x y) : Matches s S v w := by
  induction h with
  | list hall => exact .list (hall.imp hRS)
  | dictionary hsize hall =>
    refine .dictionary hsize fun k x hx => ?_
    obtain ⟨y, hy, hxy⟩ := hall k x hx
    exact ⟨y, hy, hRS x y hxy⟩
  | _ => constructor <;> assumption

theorem Matches.flip (h : Matches s R v w) : Matches s (fun x y => R y x) w v := by
  induction h with
  | float hxy => exact .float (by rwa [Decimal.beq_comm])
  | integerFloat h => exact .floatInteger h
  | floatInteger h => exact .integerFloat h
  | list hall => exact .list hall.flip
  | @dictionary a b hsize hall =>
    refine .dictionary hsize.symm fun k y hy => ?_
    have hkeys : (s.dictionary b).keys ⊆ (s.dictionary a).keys :=
      Dictionary.keys_subset hsize (Dictionary.keys_subset_of_get? hall)
    obtain ⟨x, hx⟩ := Dictionary.mem_keys.mp (hkeys (Dictionary.mem_keys.mpr ⟨y, hy⟩))
    obtain ⟨y', hy', hxy⟩ := hall k x hx
    obtain rfl : y' = y := Option.some.inj (hy'.symm.trans hy)
    exact ⟨x, hx, hxy⟩
  | function h => exact .function h.symm
  | builtin h => exact .builtin h.symm
  | classObject h => exact .classObject h.symm
  | classInstance h => exact .classInstance h.symm
  | _ => constructor

theorem Bisimilar.matches (h : Bisimilar s v w) : Matches s (Bisimilar s) v w := by
  obtain ⟨R, hR, hvw⟩ := h
  exact (hR v w hvw).mono fun x y hxy => ⟨R, hR, hxy⟩

theorem Bisimilar.of_matches (h : Matches s (Bisimilar s) v w) : Bisimilar s v w := by
  refine ⟨fun x y => Bisimilar s x y ∨ x = v ∧ y = w, ?_, .inr ⟨rfl, rfl⟩⟩
  rintro x y (hxy | ⟨rfl, rfl⟩)
  · exact hxy.matches.mono fun _ _ => .inl
  · exact h.mono fun _ _ => .inl

theorem Bisimilar.symm (h : Bisimilar s v w) : Bisimilar s w v :=
  ⟨fun x y => Bisimilar s y x, fun _ _ hxy => hxy.matches.flip, h⟩

end Matches

/-! ## Which pairs hold elements -/

/-- Values that are not two lists or two dictionaries. -/
def Apart (v w : Value) : Prop :=
  (∀ a b, v = .list a → w ≠ .list b) ∧ ∀ a b, v = .dictionary a → w ≠ .dictionary b

theorem lists_or_dictionaries_or_apart (v w : Value) :
    (∃ a b, v = .list a ∧ w = .list b) ∨ (∃ a b, v = .dictionary a ∧ w = .dictionary b) ∨
      Apart v w := by
  by_cases hlists : ∃ a b, v = .list a ∧ w = .list b
  · exact .inl hlists
  · by_cases hdictionaries : ∃ a b, v = .dictionary a ∧ w = .dictionary b
    · exact .inr (.inl hdictionaries)
    · exact .inr (.inr ⟨fun a b hv hw => hlists ⟨a, b, hv, hw⟩,
        fun a b hv hw => hdictionaries ⟨a, b, hv, hw⟩⟩)

section Steps

variable {s : Store} {R : Value → Value → Prop} {v w : Value} {depth : Nat}
  {active : List (Container × Container)} {a b : ListId} {c d : DictionaryId}

theorem matches_of_scalarEquals (h : v.scalarEquals w = true) : Matches s R v w := by
  unfold scalarEquals at h
  split at h
  · obtain rfl := eq_of_beq h
    exact .integer _
  · exact .float h
  · exact .integerFloat h
  · exact .floatInteger h
  · obtain rfl := eq_of_beq h
    exact .string _
  · obtain rfl := eq_of_beq h
    exact .boolean _
  · exact .null
  · exact .void
  · exact .function (eq_of_beq h)
  · exact .builtin (eq_of_beq h)
  · exact .classObject (eq_of_beq h)
  · exact .classInstance (eq_of_beq h)
  · cases h

theorem Matches.scalarEquals (h : Matches s R v w) (hapart : Apart v w) :
    v.scalarEquals w = true := by
  cases h with
  | sameList | list => exact absurd rfl (hapart.1 _ _ rfl)
  | sameDictionary | dictionary => exact absurd rfl (hapart.2 _ _ rfl)
  | _ => simp_all [Value.scalarEquals]

theorem equalsWithin_of_apart (h : Apart v w) :
    equalsWithin s depth active v w = v.scalarEquals w := by
  cases depth with
  | zero => rfl
  | succ depth =>
    unfold equalsWithin
    split
    · exact absurd rfl (h.1 _ _ rfl)
    · exact absurd rfl (h.2 _ _ rfl)
    · rfl

theorem equalsWithin_list : equalsWithin s (depth + 1) active (.list a) (.list b) =
    if a = b ∨ active.contains (.list a, .list b) then true
    else (s.list a).toList.length == (s.list b).toList.length &&
      ((s.list a).toList.zip (s.list b).toList).all fun p =>
        equalsWithin s depth ((.list a, .list b) :: active) p.1 p.2 :=
  rfl

theorem equalsWithin_dictionary :
    equalsWithin s (depth + 1) active (.dictionary c) (.dictionary d) =
      if c = d ∨ active.contains (.dictionary c, .dictionary d) then true
      else (s.dictionary c).size == (s.dictionary d).size &&
        (s.dictionary c).entries.toList.all fun e =>
          match (s.dictionary d).get? e.1 with
          | some y => equalsWithin s depth ((.dictionary c, .dictionary d) :: active) e.2 y
          | none => false :=
  rfl

theorem equalsWithin_list_iff :
    equalsWithin s (depth + 1) active (.list a) (.list b) = true ↔
      (a = b ∨ (.list a, .list b) ∈ active) ∨
        List.Forall₂ (fun x y => equalsWithin s depth ((.list a, .list b) :: active) x y = true)
          (s.list a).toList (s.list b).toList := by
  simp only [equalsWithin_list, List.forall₂_iff_zip, List.contains_iff_mem]
  split
  · rename_i h
    exact iff_of_true rfl (.inl h)
  · rename_i h
    rw [or_iff_right h, Bool.and_eq_true, beq_iff_eq, List.all_eq_true, Prod.forall]

theorem equalsWithin_dictionary_iff :
    equalsWithin s (depth + 1) active (.dictionary c) (.dictionary d) = true ↔
      (c = d ∨ (.dictionary c, .dictionary d) ∈ active) ∨
        (s.dictionary c).size = (s.dictionary d).size ∧
          ∀ k x, (s.dictionary c).get? k = some x → ∃ y, (s.dictionary d).get? k = some y ∧
            equalsWithin s depth ((.dictionary c, .dictionary d) :: active) x y = true := by
  simp only [equalsWithin_dictionary, List.contains_iff_mem]
  split
  · rename_i h
    exact iff_of_true rfl (.inl h)
  · rename_i h
    rw [or_iff_right h, Bool.and_eq_true, beq_iff_eq, List.all_eq_true, Prod.forall]
    refine and_congr_right fun _ => forall₂_congr fun k x => ?_
    rw [Dictionary.get?_eq_some]
    refine imp_congr_right fun _ => ?_
    cases (s.dictionary d).get? k <;> simp

end Steps

/-! ## What equality tells -/

/-- The values of a pair of containers that is being compared. -/
def Assumed (active : List (Container × Container)) (v w : Value) : Prop :=
  ∃ p ∈ active, v = p.1.toValue ∧ w = p.2.toValue

/-- Bisimilar as far as the values in a relation are taken to be. -/
def BisimilarUpTo (s : Store) (r : Value → Value → Prop) (v w : Value) : Prop :=
  ∃ R : Value → Value → Prop, (∀ v w, R v w → Matches s (fun x y => R x y ∨ r x y) v w) ∧ R v w

section Soundness

variable {s : Store} {r : Value → Value → Prop} {v w : Value} {depth : Nat}
  {active : List (Container × Container)}

theorem BisimilarUpTo.of_matches
    (h : Matches s (fun x y => BisimilarUpTo s r x y ∨ r x y) v w) : BisimilarUpTo s r v w := by
  refine ⟨fun x y => BisimilarUpTo s r x y ∨ x = v ∧ y = w, ?_, .inr ⟨rfl, rfl⟩⟩
  rintro x y (⟨R, hR, hxy⟩ | ⟨rfl, rfl⟩)
  · exact (hR x y hxy).mono fun _ _ h => h.imp_left fun h => .inl ⟨R, hR, h⟩
  · exact h.mono fun _ _ h => h.imp_left .inl

/-- What follows from itself holds. -/
theorem BisimilarUpTo.discharge
    (h : BisimilarUpTo s (fun x y => (x = v ∧ y = w) ∨ r x y) v w) : BisimilarUpTo s r v w := by
  obtain ⟨R, hR, hvw⟩ := h
  refine ⟨R, fun x y hxy => (hR x y hxy).mono ?_, hvw⟩
  rintro x' y' (h | ⟨rfl, rfl⟩ | h)
  · exact .inl h
  · exact .inl hvw
  · exact .inr h

theorem assumed_cons {p : Container × Container} (h : Assumed (p :: active) v w) :
    (v = p.1.toValue ∧ w = p.2.toValue) ∨ Assumed active v w := by
  obtain ⟨q, hq, hvw⟩ := h
  rcases List.mem_cons.mp hq with rfl | hq
  · exact .inl hvw
  · exact .inr ⟨q, hq, hvw⟩

/-- Containers are bisimilar if their elements are while the containers are taken to be. -/
theorem BisimilarUpTo.of_elements {c d : Container}
    (h : Matches s (fun x y => BisimilarUpTo s (Assumed ((c, d) :: active)) x y ∨
      Assumed ((c, d) :: active) x y) c.toValue d.toValue) :
    BisimilarUpTo s (Assumed active) c.toValue d.toValue := by
  apply discharge
  obtain ⟨R, hR, hcd⟩ := of_matches h
  exact ⟨R, fun x y hxy => (hR x y hxy).mono fun _ _ h => h.imp_right assumed_cons, hcd⟩

theorem bisimilarUpTo_of_equalsWithin (h : equalsWithin s depth active v w = true) :
    BisimilarUpTo s (Assumed active) v w ∨ Assumed active v w := by
  induction depth generalizing active v w with
  | zero => exact .inl (.of_matches (matches_of_scalarEquals h))
  | succ depth ih =>
    obtain ⟨a, b, rfl, rfl⟩ | ⟨a, b, rfl, rfl⟩ | hapart := lists_or_dictionaries_or_apart v w
    · rcases equalsWithin_list_iff.mp h with (rfl | hactive) | hall
      · exact .inl (.of_matches (.sameList a))
      · exact .inr ⟨_, hactive, rfl, rfl⟩
      · refine .inl (.of_elements (c := .list a) (d := .list b) ?_)
        exact .list (hall.imp fun x y => ih)
    · rcases equalsWithin_dictionary_iff.mp h with (rfl | hactive) | ⟨hsize, hall⟩
      · exact .inl (.of_matches (.sameDictionary a))
      · exact .inr ⟨_, hactive, rfl, rfl⟩
      · refine .inl (.of_elements (c := .dictionary a) (d := .dictionary b) ?_)
        refine .dictionary hsize fun k x hx => ?_
        obtain ⟨y, hy, hxy⟩ := hall k x hx
        exact ⟨y, hy, ih hxy⟩
    · rw [equalsWithin_of_apart hapart] at h
      exact .inl (.of_matches (matches_of_scalarEquals h))

theorem bisimilar_of_equals (h : equals s v w = true) : Bisimilar s v w := by
  rcases bisimilarUpTo_of_equalsWithin h with ⟨R, hR, hvw⟩ | ⟨p, hp, -⟩
  · refine ⟨R, fun x y hxy => (hR x y hxy).mono ?_, hvw⟩
    rintro x' y' (h | ⟨p, hp, -⟩)
    · exact h
    · cases hp
  · cases hp

end Soundness

/-! ## How deep a comparison goes -/

/-- So many steps are left that a comparison meets a pair again before they run out. -/
structure Ample (s : Store) (depth : Nat) (active : List (Container × Container)) : Prop where
  nodup : active.Nodup
  subset : active ⊆ s.everyContainer ×ˢ s.everyContainer
  bound : s.containers * s.containers < depth + active.length

section Completeness

variable {s : Store} {v w : Value} {depth : Nat} {active : List (Container × Container)}

theorem ample_start (h : s.containers * s.containers < depth) : Ample s depth [] :=
  ⟨List.nodup_nil, List.nil_subset _, h⟩

theorem not_ample_zero : ¬ Ample s 0 active := by
  intro h
  have hle : active.length ≤ (s.everyContainer ×ˢ s.everyContainer).length :=
    (h.nodup.subperm h.subset).length_le
  rw [List.length_product, s.length_everyContainer] at hle
  have := h.bound
  omega

theorem Ample.push (h : Ample s (depth + 1) active) {c d : Container} (hnew : (c, d) ∉ active)
    (hc : c ∈ s.everyContainer) (hd : d ∈ s.everyContainer) : Ample s depth ((c, d) :: active) where
  nodup := List.nodup_cons.mpr ⟨hnew, h.nodup⟩
  subset := List.cons_subset.mpr ⟨List.mem_product.mpr ⟨hc, hd⟩, h.subset⟩
  bound := by
    have := h.bound
    rw [List.length_cons]
    omega

theorem equalsWithin_of_bisimilar (h : Bisimilar s v w) (hample : Ample s depth active) :
    equalsWithin s depth active v w = true := by
  induction depth generalizing active v w with
  | zero => exact absurd hample not_ample_zero
  | succ depth ih =>
    obtain ⟨a, b, rfl, rfl⟩ | ⟨a, b, rfl, rfl⟩ | hapart := lists_or_dictionaries_or_apart v w
    · rw [equalsWithin_list_iff, or_iff_not_imp_left, not_or]
      rintro ⟨hne, hnew⟩
      cases h.matches with
      | sameList => exact absurd rfl hne
      | list hall =>
        rw [List.forall₂_iff_zip] at hall ⊢
        refine ⟨hall.1, fun {x y} hxy => ?_⟩
        obtain ⟨hx, hy⟩ := List.of_mem_zip hxy
        exact ih (hall.2 hxy) (hample.push hnew (Store.mem_everyContainer_of_list hx)
          (Store.mem_everyContainer_of_list hy))
    · rw [equalsWithin_dictionary_iff, or_iff_not_imp_left, not_or]
      rintro ⟨hne, hnew⟩
      cases h.matches with
      | sameDictionary => exact absurd rfl hne
      | dictionary hsize hall =>
        refine ⟨hsize, fun k x hx => ?_⟩
        obtain ⟨y, hy, hxy⟩ := hall k x hx
        exact ⟨y, hy, ih hxy (hample.push hnew (Store.mem_everyContainer_of_dictionary hx)
          (Store.mem_everyContainer_of_dictionary hy))⟩
    · rw [equalsWithin_of_apart hapart]
      exact h.matches.scalarEquals hapart

theorem equals_iff_bisimilar : equals s v w = true ↔ Bisimilar s v w :=
  ⟨bisimilar_of_equals, fun h => equalsWithin_of_bisimilar h (ample_start (Nat.lt_succ_self _))⟩

end Completeness

/-! ## Comparing to any depth -/

/-- The comparison as it is, which gives nothing where it would go deeper than a bound. -/
def equals? (s : Store) : Nat → List (Container × Container) → Value → Value → Option Bool
  | 0, _, _, _ => none
  | depth + 1, active, v, w =>
    match v, w with
    | list a, list b =>
      if a = b ∨ active.contains (.list a, .list b) then some true
      else if (s.list a).size = (s.list b).size then
        ((s.list a).toList.zip (s.list b).toList).allM fun p =>
          equals? s depth ((.list a, .list b) :: active) p.1 p.2
      else some false
    | dictionary a, dictionary b =>
      if a = b ∨ active.contains (.dictionary a, .dictionary b) then some true
      else if (s.dictionary a).size = (s.dictionary b).size then
        (s.dictionary a).entries.toList.allM fun e =>
          match (s.dictionary b).get? e.1 with
          | some y => equals? s depth ((.dictionary a, .dictionary b) :: active) e.2 y
          | none => some false
      else some false
    | v, w => some (v.scalarEquals w)

section Termination

variable {s : Store} {v w : Value} {depth depth' : Nat} {active : List (Container × Container)}

theorem allM_eq_some {α : Type} {l : List α} {f : α → Option Bool} {g : α → Bool}
    (h : ∀ x ∈ l, f x = some (g x)) : l.allM f = some (l.all g) := by
  induction l with
  | nil => rfl
  | cons x rest ih =>
    rw [List.forall_mem_cons] at h
    rw [List.allM, h.1, List.all_cons]
    cases g x with
    | true => exact ih h.2
    | false => rfl

/-- The elements of containers are compared if nothing else tells whether these are equal. -/
theorem elements_eq_some {α : Type} {known alike : Prop} [Decidable known] [Decidable alike]
    {l : List α} {f : α → Option Bool} {g : α → Bool}
    (h : ¬ known → alike → ∀ x ∈ l, f x = some (g x)) :
    (if known then some true else if alike then l.allM f else some false) =
      some (if known then true else decide alike && l.all g) := by
  by_cases hknown : known
  · rw [if_pos hknown, if_pos hknown]
  · by_cases halike : alike
    · rw [if_neg hknown, if_neg hknown, if_pos halike, decide_eq_true halike, Bool.true_and]
      exact allM_eq_some (h hknown halike)
    · rw [if_neg hknown, if_neg hknown, if_neg halike, decide_eq_false halike, Bool.false_and]

theorem equals?_of_apart (h : Apart v w) :
    equals? s (depth + 1) active v w = some (v.scalarEquals w) := by
  unfold equals?
  split
  · exact absurd rfl (h.1 _ _ rfl)
  · exact absurd rfl (h.2 _ _ rfl)
  · rfl

/-- A comparison ends before its bound, which thus changes nothing. -/
theorem equals?_eq_some (hample : Ample s depth active) (hample' : Ample s depth' active) :
    equals? s depth' active v w = some (equalsWithin s depth active v w) := by
  induction depth generalizing depth' active v w with
  | zero => exact absurd hample not_ample_zero
  | succ depth ih =>
    cases depth' with
    | zero => exact absurd hample' not_ample_zero
    | succ depth' =>
      -- what is left of either bound is enough for the elements
      have helement {c d : Container} {x y : Value} (hnew : (c, d) ∉ active)
          (hc : c ∈ s.everyContainer) (hd : d ∈ s.everyContainer) :
          equals? s depth' ((c, d) :: active) x y =
            some (equalsWithin s depth ((c, d) :: active) x y) :=
        ih (hample.push hnew hc hd) (hample'.push hnew hc hd)
      obtain ⟨a, b, rfl, rfl⟩ | ⟨a, b, rfl, rfl⟩ | hapart := lists_or_dictionaries_or_apart v w
      · unfold equals?
        rw [equalsWithin_list]
        refine elements_eq_some fun hknown _ p hp => ?_
        have hnew : (Container.list a, Container.list b) ∉ active := by simp_all
        obtain ⟨hx, hy⟩ := List.of_mem_zip hp
        exact helement hnew (Store.mem_everyContainer_of_list hx)
          (Store.mem_everyContainer_of_list hy)
      · unfold equals?
        rw [equalsWithin_dictionary]
        refine elements_eq_some fun hknown _ e he => ?_
        have hnew : (Container.dictionary a, Container.dictionary b) ∉ active := by simp_all
        cases hy : (s.dictionary b).get? e.1 with
        | none => rfl
        | some y =>
          have hx := Dictionary.get?_eq_some.mpr he
          exact helement hnew (Store.mem_everyContainer_of_dictionary hx)
            (Store.mem_everyContainer_of_dictionary hy)
      · rw [equals?_of_apart hapart, equalsWithin_of_apart hapart]

end Termination

/-- Every comparison ends, as it goes no deeper than there are pairs of containers. The answer is
whether the values are bisimilar, whichever comes first. -/
theorem equals_exact (s : Store) (v w : Value) :
    (∀ depth, s.containers * s.containers < depth →
      equals? s depth [] v w = some (equals s v w)) ∧
      (equals s v w = true ↔ Bisimilar s v w) ∧ equals s v w = equals s w v := by
  refine ⟨fun depth hdepth => ?_, equals_iff_bisimilar, ?_⟩
  · exact equals?_eq_some (ample_start (Nat.lt_succ_self _)) (ample_start hdepth)
  · rw [Bool.eq_iff_iff, equals_iff_bisimilar, equals_iff_bisimilar]
    exact ⟨Bisimilar.symm, Bisimilar.symm⟩

end Value

end Offside
