import Offside.Proofs.Store.Contents
import Offside.Proofs.Value.Text

/-!
# Data

Data are built in finitely many steps from values that have a form in programs. A copy of data is
built in the same steps in a store of its own, or beside the data, which it then equals.
-/

namespace Offside

/-! ## Stores that have more containers -/

/-- The containers of the first store are in the second one, and hold the same there. -/
structure Store.KeepsContainers (s t : Store) : Prop where
  list : ∀ a : ListId, a.index < s.lists.size →
    a.index < t.lists.size ∧ t.list a = s.list a
  dictionary : ∀ b : DictionaryId, b.index < s.dictionaries.size →
    b.index < t.dictionaries.size ∧ t.dictionary b = s.dictionary b

namespace Store.KeepsContainers

variable {s t t' : Store}

theorem of_eq (hlists : t.lists = s.lists) (hdictionaries : t.dictionaries = s.dictionaries) :
    s.KeepsContainers t := by
  constructor
  · intro a ha
    unfold Store.list
    rw [hlists]
    exact ⟨ha, rfl⟩
  · intro b hb
    unfold Store.dictionary
    rw [hdictionaries]
    exact ⟨hb, rfl⟩

theorem refl (s : Store) : s.KeepsContainers s := of_eq rfl rfl

theorem trans (h : s.KeepsContainers t) (h' : t.KeepsContainers t') : s.KeepsContainers t' where
  list a ha := by
    obtain ⟨ha', heq⟩ := h.list a ha
    obtain ⟨ha'', heq'⟩ := h'.list a ha'
    exact ⟨ha'', heq'.trans heq⟩
  dictionary b hb := by
    obtain ⟨hb', heq⟩ := h.dictionary b hb
    obtain ⟨hb'', heq'⟩ := h'.dictionary b hb'
    exact ⟨hb'', heq'.trans heq⟩

theorem push_list (s : Store) (items : Array Value) :
    s.KeepsContainers { s with lists := s.lists.push items } where
  list a ha := by
    refine ⟨by simpa using Nat.lt_succ_of_lt ha, ?_⟩
    unfold Store.list
    rw [getD_push, if_neg (Nat.ne_of_lt ha)]
  dictionary b hb := ⟨hb, rfl⟩

theorem push_dictionary (s : Store) (d : Dictionary) :
    s.KeepsContainers { s with dictionaries := s.dictionaries.push d } where
  list a ha := ⟨ha, rfl⟩
  dictionary b hb := by
    refine ⟨by simpa using Nat.lt_succ_of_lt hb, ?_⟩
    unfold Store.dictionary
    rw [getD_push, if_neg (Nat.ne_of_lt hb)]

end Store.KeepsContainers

namespace Store

theorem list_push (s : Store) (items : Array Value) :
    Store.list { s with lists := s.lists.push items } ⟨s.lists.size⟩ = items := by
  unfold Store.list
  rw [getD_push, if_pos rfl]

theorem dictionary_push (s : Store) (d : Dictionary) :
    Store.dictionary { s with dictionaries := s.dictionaries.push d } ⟨s.dictionaries.size⟩ = d := by
  unfold Store.dictionary
  rw [getD_push, if_pos rfl]

end Store

/-- Keys are no containers. -/
theorem Key.toValue_ne (κ : Key) (c : Container) : κ.toValue ≠ c.toValue := by
  cases κ <;> cases c <;> nofun

namespace Value

/-! ## Data and their copies -/

/-- The values that are built without cycles from `null`, booleans, integers that have a negation,
strings that fit in quotes, lists and dictionaries. -/
inductive IsData (s : Store) : Value → Prop where
  | null : IsData s .null
  | boolean (b : Bool) : IsData s (.boolean b)
  | integer {n : Int64} : Int64.minValue < n → IsData s (.integer n)
  | string {text : String} :
    '"' ∉ text.toList ∨ '\'' ∉ text.toList → IsData s (.string text)
  | list {a : ListId} :
    a.index < s.lists.size → (∀ v ∈ (s.list a).toList, IsData s v) → IsData s (.list a)
  | dictionary {b : DictionaryId} :
    b.index < s.dictionaries.size →
    (∀ e ∈ (s.dictionary b).entries.toList, IsData s e.1.toValue) →
    (∀ e ∈ (s.dictionary b).entries.toList, IsData s e.2) → IsData s (.dictionary b)

/-- The value in the second store is built like the one in the first. Elements and entries are in
the same order. -/
inductive IsCopy (s t : Store) : Value → Value → Prop where
  | null : IsCopy s t .null .null
  | boolean (b : Bool) : IsCopy s t (.boolean b) (.boolean b)
  | integer (n : Int64) : IsCopy s t (.integer n) (.integer n)
  | string (text : String) : IsCopy s t (.string text) (.string text)
  | list {a a' : ListId} :
    a.index < s.lists.size → a'.index < t.lists.size → (s.list a).size = (t.list a').size →
    (∀ p ∈ (s.list a).toList.zip (t.list a').toList, IsCopy s t p.1 p.2) →
    IsCopy s t (.list a) (.list a')
  | dictionary {b b' : DictionaryId} :
    b.index < s.dictionaries.size → b'.index < t.dictionaries.size →
    (s.dictionary b).keys = (t.dictionary b').keys →
    (∀ p ∈ (s.dictionary b).entries.toList.zip (t.dictionary b').entries.toList,
      IsCopy s t p.1.2 p.2.2) →
    IsCopy s t (.dictionary b) (.dictionary b')

section Copies

variable {s s' t t' : Store} {v w : Value}

theorem IsCopy.mono (h : IsCopy s t v w) (hs : s.KeepsContainers s') (ht : t.KeepsContainers t') :
    IsCopy s' t' v w := by
  induction h with
  | null => exact .null
  | boolean b => exact .boolean b
  | integer n => exact .integer n
  | string text => exact .string text
  | @list a a' ha ha' hsize _ ih =>
    obtain ⟨ha, heq⟩ := hs.list a ha
    obtain ⟨ha', heq'⟩ := ht.list a' ha'
    rw [← heq, ← heq'] at hsize ih
    exact .list ha ha' hsize ih
  | @dictionary b b' hb hb' hkeys _ ih =>
    obtain ⟨hb, heq⟩ := hs.dictionary b hb
    obtain ⟨hb', heq'⟩ := ht.dictionary b' hb'
    rw [← heq, ← heq'] at hkeys ih
    exact .dictionary hb hb' hkeys ih

/-- The entry of a key in one of two lists with the same keys has one beside it in the other. -/
theorem exists_entry_of_keys {entries entries' : List (Key × Value)} {k : Key} {x : Value}
    (hkeys : entries.map Prod.fst = entries'.map Prod.fst) (h : (k, x) ∈ entries) :
    ∃ y, (k, y) ∈ entries' ∧ ((k, x), (k, y)) ∈ entries.zip entries' := by
  induction entries generalizing entries' with
  | nil => cases h
  | cons e rest ih =>
    cases entries' with
    | nil => cases hkeys
    | cons e' rest' =>
      obtain ⟨hkey, hrest⟩ := List.cons.inj hkeys
      rcases List.mem_cons.mp h with rfl | h
      · obtain ⟨k', y⟩ := e'
        obtain rfl : k = k' := hkey
        exact ⟨y, List.mem_cons_self, List.mem_cons_self⟩
      · obtain ⟨y, hy, hpair⟩ := ih hrest h
        exact ⟨y, List.mem_cons_of_mem _ hy, List.mem_cons_of_mem _ hpair⟩

/-- Copies beside their originals match these. -/
theorem IsCopy.matches (h : IsCopy s s v w) : Matches s (IsCopy s s) v w := by
  cases h with
  | null => exact .null
  | boolean b => exact .boolean b
  | integer n => exact .integer n
  | string text => exact .string text
  | list _ _ hsize hitems =>
    refine .list (List.forall₂_iff_zip.mpr ⟨by simpa using hsize, fun hxy => hitems _ hxy⟩)
  | dictionary _ _ hkeys hvalues =>
    refine .dictionary ?_ fun k x hx => ?_
    · rw [← Dictionary.length_keys, ← Dictionary.length_keys, hkeys]
    · obtain ⟨y, hy, hpair⟩ := exists_entry_of_keys hkeys (Dictionary.get?_eq_some.mp hx)
      exact ⟨y, Dictionary.get?_eq_some.mpr hy, hvalues _ hpair⟩

theorem IsCopy.equals (h : IsCopy s s v w) : equals s w v = true := by
  have hbisimilar : Bisimilar s v w := ⟨IsCopy s s, fun _ _ => IsCopy.matches, h⟩
  exact equals_iff_bisimilar.mpr hbisimilar.symm

theorem IsCopy.isVoid_eq_false (h : IsCopy s t v w) : w.isVoid = false := by
  cases h <;> rfl

/-! ## No cycles -/

theorem cycleFree_of_scalar (h : ∀ c : Container, v ≠ c.toValue) : CycleFree s v :=
  fun c _ hc => absurd hc (h c)

theorem cycleFree_of_parts {c : Container} (h : ∀ p ∈ s.parts c, CycleFree s p.2) :
    CycleFree s c.toValue := by
  intro c' d hc hcd hcycle
  obtain rfl := Container.toValue_injective hc
  rcases Relation.ReflTransGen.cases_head hcd with rfl | ⟨e, ⟨p, hp, hpe⟩, hed⟩
  · -- a cycle through the container goes through one of its parts
    obtain ⟨e, ⟨p, hp, hpe⟩, hed⟩ := Relation.TransGen.head'_iff.mp hcycle
    exact h p hp e c hpe hed hcycle
  · exact h p hp e d hpe hed hcycle

theorem IsData.cycleFree (h : IsData s v) : CycleFree s v := by
  induction h with
  | null => exact cycleFree_of_scalar Key.null.toValue_ne
  | boolean b => exact cycleFree_of_scalar (Key.boolean b).toValue_ne
  | @integer n => exact cycleFree_of_scalar (Key.integer n).toValue_ne
  | @string text => exact cycleFree_of_scalar (Key.string text).toValue_ne
  | @list a _ _ ih =>
    refine cycleFree_of_parts (c := .list a) fun p hp => ?_
    obtain ⟨v, hv, rfl⟩ := List.mem_map.mp hp
    exact ih v hv
  | @dictionary b _ _ _ _ ih =>
    refine cycleFree_of_parts (c := .dictionary b) fun p hp => ?_
    obtain ⟨e, he, rfl⟩ := List.mem_map.mp hp
    exact ih e he

end Copies

end Value

end Offside
