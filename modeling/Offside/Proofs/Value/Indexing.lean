import Offside.Evaluation.Builtin
import Offside.Proofs.Store.Contents
import Offside.Proofs.Value.Dictionary

/-!
# Reading and writing by index or key

What is written at an index or under a key is read there, and nothing else is read or held
differently afterwards.
-/

namespace Offside

namespace Value

open Run

/-! ## What an index or a key means -/

/-- The place of an index in a row of so many elements. A negative one counts from the end. -/
def place (i : Int64) (length : Nat) : Int := if i.toInt < 0 then i.toInt + length else i.toInt

section Keys

variable {i : Int64} {n p : Nat} {k k' : Value} {κ : Key}

theorem position_integer : position (.integer i) n =
    if 0 ≤ place i n ∧ place i n < n then .ok (place i n).toNat
    else .error (.indexOutOfRange i n) := rfl

theorem position_eq_ok : position k n = .ok p ↔
    ∃ i, k = .integer i ∧ place i n = p ∧ p < n := by
  constructor
  · intro h
    cases k with
    | integer i =>
      rw [position_integer] at h
      split at h
      · cases h
        exact ⟨i, rfl, by omega, by omega⟩
      · cases h
    | _ => cases h
  · rintro ⟨i, rfl, hplace, hlt⟩
    rw [position_integer, hplace, if_pos ⟨by omega, by omega⟩]
    rfl

theorem key_eq_ok : key k = .ok κ ↔ k = κ.toValue := by
  unfold key
  constructor
  · intro h
    split at h
    · rename_i heq
      cases h
      exact (Key.toValue_of_ofValue? heq).symm
    · cases h
  · rintro rfl
    rw [Key.ofValue?_toValue]

theorem key_toValue (κ : Key) : key κ.toValue = .ok κ := key_eq_ok.mpr rfl

end Keys

/-- Two indices or keys that mean the same element of a container. -/
inductive SameSlot (s : Store) : Container → Value → Value → Prop where
  | list {a : ListId} {i j : Int64} :
    place i (s.list a).size = place j (s.list a).size →
    SameSlot s (.list a) (.integer i) (.integer j)
  | dictionary {a : DictionaryId} (k : Key) :
    SameSlot s (.dictionary a) k.toValue k.toValue

/-- Whether a container takes a value there. A dictionary does so under every key. -/
inductive HasSlot (s : Store) : Container → Value → Prop where
  | list {a : ListId} {i : Int64} :
    0 ≤ place i (s.list a).size → place i (s.list a).size < (s.list a).size →
    HasSlot s (.list a) (.integer i)
  | dictionary {a : DictionaryId} (k : Key) : HasSlot s (.dictionary a) k.toValue

section Slots

variable {s : Store} {a : ListId} {b : DictionaryId} {p : Nat} {k k' : Value} {κ : Key}

theorem hasSlot_list : HasSlot s (.list a) k ↔ ∃ p, position k (s.list a).size = .ok p := by
  simp only [position_eq_ok]
  constructor
  · rintro ⟨hfrom, hto⟩
    exact ⟨_, _, rfl, (Int.toNat_of_nonneg hfrom).symm, by omega⟩
  · rintro ⟨p, i, rfl, hplace, hlt⟩
    exact .list (by omega) (by omega)

theorem hasSlot_dictionary : HasSlot s (.dictionary b) k ↔ ∃ κ, key k = .ok κ := by
  simp only [key_eq_ok]
  constructor
  · intro h
    cases h with
    | dictionary κ => exact ⟨κ, rfl⟩
  · rintro ⟨κ, rfl⟩
    exact .dictionary κ

theorem sameSlot_list (h : position k (s.list a).size = .ok p) :
    SameSlot s (.list a) k k' ↔ position k' (s.list a).size = .ok p := by
  obtain ⟨i, rfl, hplace, hlt⟩ := position_eq_ok.mp h
  rw [position_eq_ok]
  constructor
  · rintro ⟨hsame⟩
    exact ⟨_, rfl, hsame ▸ hplace, hlt⟩
  · rintro ⟨j, rfl, hplace', -⟩
    exact .list (hplace.trans hplace'.symm)

theorem sameSlot_dictionary (h : key k = .ok κ) :
    SameSlot s (.dictionary b) k k' ↔ key k' = .ok κ := by
  obtain rfl := key_eq_ok.mp h
  rw [key_eq_ok]
  constructor
  · intro hsame
    generalize κ.toValue = k at hsame ⊢
    cases hsame
    rfl
  · rintro rfl
    exact .dictionary κ

end Slots

/-! ## Reading and writing each kind of container -/

section Each

variable {s s' : Store} {a : ListId} {b : DictionaryId} {k v : Value}

theorem index_list : index s (.list a) k =
    (position k (s.list a).size).map fun i => (s.list a).getD i .null := by
  show (position k (s.list a).size >>= fun i => pure ((s.list a).getD i .null)) = _
  cases position k (s.list a).size <;> rfl

theorem index_string {text : String} : index s (.string text) k =
    (position k text.toList.length).map fun i => .string (text.toList.getD i ' ').toString := by
  show (position k text.toList.length >>= fun i =>
    pure (Value.string (text.toList.getD i ' ').toString)) = _
  cases position k text.toList.length <;> rfl

theorem index_dictionary : index s (.dictionary b) k =
    match key k with
    | .error e => .error e
    | .ok κ =>
      match (s.dictionary b).get? κ with
      | some v => .ok v
      | none => .error (.missingKey (κ.toValue.scalarText true)) := by
  show (key k >>= fun κ => match (s.dictionary b).get? κ with
    | some v => .ok v
    | none => .error (.missingKey (κ.toValue.scalarText true))) = _
  cases key k <;> rfl

theorem setIndex_void (target : Value) (h : v.isVoid = true) :
    ∃ e, setIndex target k v s = .failed e s := by
  unfold setIndex
  rw [if_pos h]
  exact ⟨_, rfl⟩

theorem setIndex_list (h : v.isVoid = false) : setIndex (.list a) k v s =
    match position k (s.list a).size with
    | .ok i => .done () (s.modifyList a fun items => items.setIfInBounds i v)
    | .error e => .failed e s := by
  have hwrite : setIndex (.list a) k v = (do
      let i ← readExcept fun s => position k (s.list a).size
      Run.modify (·.modifyList a fun items => items.setIfInBounds i v)) := by
    unfold setIndex
    exact if_neg (by simp [h])
  rw [hwrite, bind_apply]
  unfold readExcept
  dsimp only
  cases position k (s.list a).size <;> rfl

theorem setIndex_dictionary (h : v.isVoid = false) : setIndex (.dictionary b) k v s =
    match key k with
    | .ok κ => .done () (s.modifyDictionary b fun d => d.insert κ v)
    | .error e => .failed e s := by
  have hwrite : setIndex (.dictionary b) k v = (do
      let κ ← Run.ofExcept (key k)
      Run.modify (·.modifyDictionary b fun d => d.insert κ v)) := by
    unfold setIndex
    exact if_neg (by simp [h])
  rw [hwrite, bind_apply]
  unfold Run.ofExcept
  cases key k <;> rfl

/-- A write is done, or it fails and leaves the store as it was. -/
theorem setIndex_done_or_failed (target : Value) :
    (∃ s', setIndex target k v s = .done () s') ∨ ∃ e, setIndex target k v s = .failed e s := by
  cases hvoid : v.isVoid with
  | true => exact .inr (setIndex_void target hvoid)
  | false =>
    cases target with
    | list a =>
      rw [setIndex_list hvoid]
      cases position k (s.list a).size with
      | ok i => exact .inl ⟨_, rfl⟩
      | error e => exact .inr ⟨e, rfl⟩
    | dictionary b =>
      rw [setIndex_dictionary hvoid]
      cases key k with
      | ok κ => exact .inl ⟨_, rfl⟩
      | error e => exact .inr ⟨e, rfl⟩
    | _ =>
      unfold setIndex
      rw [if_neg (by simp [hvoid])]
      exact .inr ⟨_, rfl⟩

theorem setIndex_list_eq_done : setIndex (.list a) k v s = .done () s' ↔
    v.isVoid = false ∧ ∃ i, position k (s.list a).size = .ok i ∧
      s' = s.modifyList a fun items => items.setIfInBounds i v := by
  cases hvoid : v.isVoid with
  | true =>
    obtain ⟨e, he⟩ := setIndex_void (s := s) (k := k) (.list a) hvoid
    simp [he]
  | false =>
    rw [setIndex_list hvoid]
    cases position k (s.list a).size <;> simp [eq_comm]

theorem setIndex_dictionary_eq_done : setIndex (.dictionary b) k v s = .done () s' ↔
    v.isVoid = false ∧ ∃ κ, key k = .ok κ ∧
      s' = s.modifyDictionary b fun d => d.insert κ v := by
  cases hvoid : v.isVoid with
  | true =>
    obtain ⟨e, he⟩ := setIndex_void (s := s) (k := k) (.dictionary b) hvoid
    simp [he]
  | false =>
    rw [setIndex_dictionary hvoid]
    cases key k <;> simp [eq_comm]

end Each

/-! ## What a write changes -/

/-- In the second store the container has the value there, and all else is as in the first one. -/
structure Puts (s s' : Store) (c : Container) (k v : Value) : Prop where
  same : ∀ k', SameSlot s c k k' → index s' c.toValue k' = .ok v
  other : ∀ k', ¬ SameSlot s c k k' → index s' c.toValue k' = index s c.toValue k'
  size : ∀ a, c = .list a → (s'.list a).size = (s.list a).size
  keys : ∀ b κ, c = .dictionary b → k = κ.toValue → (s'.dictionary b).keys =
    if κ ∈ (s.dictionary b).keys then (s.dictionary b).keys else (s.dictionary b).keys ++ [κ]
  lists : ∀ a, c ≠ .list a → s'.list a = s.list a
  dictionaries : ∀ b, c ≠ .dictionary b → s'.dictionary b = s.dictionary b
  rest : { s' with lists := s.lists, dictionaries := s.dictionaries } = s

section Writing

variable {s : Store} {a : ListId} {b : DictionaryId} {k v : Value} {i : Nat} {κ : Key}

theorem list_mem_everyContainer :
    Container.list a ∈ s.everyContainer ↔ a.index < s.lists.size := by
  obtain ⟨index⟩ := a
  simp [Store.everyContainer]

theorem dictionary_mem_everyContainer :
    Container.dictionary b ∈ s.everyContainer ↔ b.index < s.dictionaries.size := by
  obtain ⟨index⟩ := b
  simp [Store.everyContainer]

theorem puts_list (ha : a.index < s.lists.size) (hi : position k (s.list a).size = .ok i) :
    Puts s (s.modifyList a fun items => items.setIfInBounds i v) (.list a) k v := by
  have hself : (s.modifyList a fun items => items.setIfInBounds i v).list a =
      (s.list a).setIfInBounds i v := by
    rw [Store.list_modifyList, if_pos ⟨rfl, ha⟩]
  obtain ⟨-, -, -, hlt⟩ := position_eq_ok.mp hi
  constructor
  · intro k' hsame
    rw [Container.toValue, index_list, hself, Array.size_setIfInBounds, (sameSlot_list hi).mp hsame]
    simp [Except.map, Array.getD, hlt]
  · intro k' hother
    rw [sameSlot_list hi] at hother
    rw [Container.toValue, index_list, index_list, hself, Array.size_setIfInBounds]
    cases hj : position k' (s.list a).size with
    | error e => rfl
    | ok j =>
      have hne : i ≠ j := fun heq => hother (heq ▸ hj)
      simp only [Except.map, Array.getD_eq_getD_getElem?, Array.getElem?_setIfInBounds_ne hne]
  · rintro a' heq
    cases heq
    rw [hself, Array.size_setIfInBounds]
  · rintro b κ heq
    cases heq
  · intro a' hne
    rw [Store.list_modifyList, if_neg]
    rintro ⟨heq, -⟩
    obtain ⟨index⟩ := a
    exact hne (congrArg (fun n => Container.list ⟨n⟩) heq)
  · exact fun _ _ => rfl
  · rfl

theorem puts_dictionary (hb : b.index < s.dictionaries.size) (hκ : key k = .ok κ) :
    Puts s (s.modifyDictionary b fun d => d.insert κ v) (.dictionary b) k v := by
  have hself : (s.modifyDictionary b fun d => d.insert κ v).dictionary b =
      (s.dictionary b).insert κ v := by
    rw [Store.dictionary_modifyDictionary, if_pos ⟨rfl, hb⟩]
  constructor
  · intro k' hsame
    rw [Container.toValue, index_dictionary, (sameSlot_dictionary hκ).mp hsame, hself]
    simp [Dictionary.get?_insert]
  · intro k' hother
    rw [sameSlot_dictionary hκ] at hother
    rw [Container.toValue, index_dictionary, index_dictionary, hself]
    cases hk' : key k' with
    | error e => rfl
    | ok κ' =>
      have hne : κ ≠ κ' := fun heq => hother (heq ▸ hk')
      simp [Dictionary.get?_insert, hne]
  · rintro a heq
    cases heq
  · rintro b' κ' heq rfl
    cases heq
    obtain rfl : κ' = κ := by
      rw [key_toValue] at hκ
      exact Except.ok.inj hκ
    rw [hself, Dictionary.keys_insert]
  · exact fun _ _ => rfl
  · intro b' hne
    rw [Store.dictionary_modifyDictionary, if_neg]
    rintro ⟨heq, -⟩
    obtain ⟨index⟩ := b
    exact hne (congrArg (fun n => Container.dictionary ⟨n⟩) heq)
  · rfl

end Writing

/-- A write that fails leaves the store as it was, whatever it was to change. A list takes every
value but void at its indices and a dictionary under all keys. Then the value is read at what means
the same element, and nothing else is read or held differently. -/
theorem setIndex_lawful (s : Store) (k v : Value) :
    (∀ target, (∃ s', setIndex target k v s = .done () s') ∨
      ∃ e, setIndex target k v s = .failed e s) ∧
    ∀ c ∈ s.everyContainer,
      ((∃ s', setIndex c.toValue k v s = .done () s') ↔ v.isVoid = false ∧ HasSlot s c k) ∧
      ∀ s', setIndex c.toValue k v s = .done () s' → Puts s s' c k v := by
  refine ⟨setIndex_done_or_failed, fun c hc => ?_⟩
  cases c with
  | list a =>
    simp only [Container.toValue, setIndex_list_eq_done, hasSlot_list]
    refine ⟨by simp, ?_⟩
    rintro s' ⟨-, i, hi, rfl⟩
    exact puts_list (list_mem_everyContainer.mp hc) hi
  | dictionary b =>
    simp only [Container.toValue, setIndex_dictionary_eq_done, hasSlot_dictionary]
    refine ⟨by simp, ?_⟩
    rintro s' ⟨-, κ, hκ, rfl⟩
    exact puts_dictionary (dictionary_mem_everyContainer.mp hc) hκ

/-- A list of two numbers. -/
def pairStore : Store where
  frames := #[]
  lists := #[#[.integer 10, .integer 20]]
  dictionaries := #[]
  identities := 0
  output := ⟨"", none⟩

/-- The list is put into itself, in the place of its last element. -/
theorem setIndex_lawful_itself :
    Container.list ⟨0⟩ ∈ pairStore.everyContainer ∧
      ∃ s', setIndex (.list ⟨0⟩) (.integer (-1)) (.list ⟨0⟩) pairStore = .done () s' ∧
        Puts pairStore s' (.list ⟨0⟩) (.integer (-1)) (.list ⟨0⟩) := by
  have hc : Container.list ⟨0⟩ ∈ pairStore.everyContainer := by decide
  obtain ⟨hdone, hputs⟩ := (setIndex_lawful pairStore (.integer (-1)) (.list ⟨0⟩)).2 _ hc
  obtain ⟨s', hs'⟩ := hdone.mpr ⟨rfl, .list (by decide) (by decide)⟩
  exact ⟨hc, s', hs', hputs s' hs'⟩

end Value

end Offside
