import Offside.Proofs.Value.Equality

/-!
# Dictionaries as ordered maps

Writing under a known key changes the value of that entry and leaves it in its place. Writing under
a new key puts an entry at the end. Either way the key has the value that was written, and all other
keys have what they had.
-/

namespace Offside.Dictionary

variable {d : Dictionary} {k k' : Key} {v : Value}

theorem get?_eq_none : d.get? k = none ↔ k ∉ d.keys := by
  rw [mem_keys, not_exists, Option.eq_none_iff_forall_ne_some]

/-! ## Writing under a key -/

theorem indices_eq_none (h : k ∉ d.keys) : d.indices.lookup k = none := by
  rw [Option.eq_none_iff_forall_ne_some]
  exact fun i hi => h (List.mem_of_getElem? (lookup_indices.mp hi))

/-- The entry of a known key, and no other one, is at its position. -/
theorem exists_index (h : k ∈ d.keys) : ∃ i, d.indices.lookup k = some i ∧
    ∀ (j : Nat) (hj : j < d.entries.toList.length), d.entries.toList[j].1 = k ↔ i = j := by
  obtain ⟨i, hi⟩ := List.mem_iff_getElem?.mp h
  have hindex := lookup_indices.mpr hi
  refine ⟨i, hindex, fun j hj => ?_⟩
  have hkey : d.keys[j]? = some d.entries.toList[j].1 := by
    rw [keys, List.getElem?_map, List.getElem?_eq_getElem hj]
    rfl
  constructor
  · rintro rfl
    exact Option.some.inj (hindex.symm.trans (lookup_indices.mpr hkey))
  · rintro rfl
    exact Option.some.inj (hkey.symm.trans hi)

theorem entries_insert_known (h : k ∈ d.keys) : (d.insert k v).entries.toList =
    d.entries.toList.map fun e => if e.1 = k then (k, v) else e := by
  obtain ⟨i, hi, hplace⟩ := exists_index h
  unfold insert
  split
  · rename_i i' hi'
    obtain rfl : i = i' := Option.some.inj (hi.symm.trans hi')
    apply List.ext_getElem
    · simp
    · intro j hj _
      have hj' : j < d.entries.toList.length := by simpa using hj
      have hplace := hplace j hj'
      simp only [Array.toList_modify, List.getElem_modify, List.getElem_map]
      by_cases hij : i = j
      · rw [if_pos hij, if_pos (hplace.mpr hij), hplace.mpr hij]
      · rw [if_neg hij, if_neg (mt hplace.mp hij)]
  · rename_i hnone
    rw [hi] at hnone
    cases hnone

theorem entries_insert_new (h : k ∉ d.keys) :
    (d.insert k v).entries.toList = d.entries.toList ++ [(k, v)] := by
  unfold insert
  split
  · rename_i i hi
    rw [indices_eq_none h] at hi
    cases hi
  · exact Array.toList_push

theorem keys_insert :
    (d.insert k v).keys = if k ∈ d.keys then d.keys else d.keys ++ [k] := by
  unfold keys
  split
  · rename_i hknown
    rw [entries_insert_known hknown, List.map_map]
    refine List.map_congr_left fun e _ => ?_
    show (if e.1 = k then (k, v) else e).1 = e.1
    split
    · rename_i heq
      exact heq.symm
    · rfl
  · rename_i hnew
    rw [entries_insert_new hnew, List.map_append]
    rfl

theorem get?_insert : (d.insert k v).get? k' = if k = k' then some v else d.get? k' := by
  apply Option.ext
  intro w
  rw [get?_eq_some]
  by_cases hknown : k ∈ d.keys
  · obtain ⟨u, hu⟩ := mem_keys.mp hknown
    rw [get?_eq_some] at hu
    rw [entries_insert_known hknown, List.mem_map]
    split
    · rename_i heq
      subst heq
      constructor
      · rintro ⟨e, -, he⟩
        split at he
        · exact congrArg (fun e => some e.2) he
        · rename_i hne
          exact absurd (congrArg Prod.fst he) hne
      · intro hw
        exact ⟨(k, u), hu, by rw [if_pos rfl, Option.some.inj hw]⟩
    · rename_i hne
      rw [get?_eq_some]
      constructor
      · rintro ⟨e, hmem, he⟩
        split at he
        · exact absurd (congrArg Prod.fst he) hne
        · rwa [← he]
      · intro hmem
        exact ⟨(k', w), hmem, if_neg fun heq => hne heq.symm⟩
  · rw [entries_insert_new hknown, List.mem_append, List.mem_singleton]
    split
    · rename_i heq
      subst heq
      have hnone : ∀ w, (k, w) ∉ d.entries.toList := fun w hw =>
        hknown (mem_keys.mpr ⟨w, get?_eq_some.mpr hw⟩)
      rw [or_iff_right (hnone w), Prod.mk.injEq, Option.some.injEq]
      exact ⟨fun h => h.2.symm, fun h => ⟨rfl, h.symm⟩⟩
    · rename_i hne
      rw [get?_eq_some, or_iff_left fun heq => hne (congrArg Prod.fst heq).symm]

/-! ## Writing entries one by one -/

/-- Entries with different keys are kept in their order. -/
theorem entries_ofList {entries : List (Key × Value)} (h : (entries.map Prod.fst).Nodup) :
    (ofList entries).entries.toList = entries := by
  suffices hfold : ∀ d : Dictionary, (d.keys ++ entries.map Prod.fst).Nodup →
      (entries.foldl (fun d e => d.insert e.1 e.2) d).entries.toList =
        d.entries.toList ++ entries from
    hfold empty h
  clear h
  induction entries with
  | nil => simp
  | cons e rest ih =>
    intro d hd
    have hnew : e.1 ∉ d.keys := fun hmem =>
      (List.nodup_append.mp hd).2.2 _ hmem _ List.mem_cons_self rfl
    rw [List.foldl_cons, ih, entries_insert_new hnew, List.append_assoc]
    · rfl
    · rw [keys_insert, if_neg hnew, List.append_assoc]
      exact hd

end Offside.Dictionary
