import Offside.Proofs.Value.Indexing
import Offside.Proofs.Value.Number

/-!
# One sequence, three views

The length of a list or a string, its indices and what a loop over it visits all tell of one
sequence of elements. The keys that a loop over a dictionary visits are those that can be read.
-/

namespace Offside

namespace Value

/-- What `len` gives for a value with so many elements. It is an integer of 64 bits. -/
structure HasLength (s : Store) (v : Value) (n : Nat) : Prop where
  given : n < 2 ^ 63 → ∃ m : Int64, m.toInt = n ∧
    Action.call .len [v] [] s = .done (.integer m) s
  refused : 2 ^ 63 ≤ n → Action.call .len [v] [] s =
    .failed (.builtin "len" "length does not fit in an integer") s

/-- The elements that a loop visits are those that the length counts and that the indices give, from
the start and from the end. There is nothing at any other index. -/
structure Enumerates (s : Store) (v : Value) (items : List Value) : Prop where
  visited : iterate s v = .ok items
  counted : HasLength s v items.length
  front : ∀ (i : Int64) (j : Nat) (hj : j < items.length), i.toInt = j →
    index s v (.integer i) = .ok items[j]
  back : ∀ (i : Int64) (j : Nat) (hj : j < items.length), items.length + i.toInt = j →
    index s v (.integer i) = .ok items[j]
  outside : ∀ i : Int64, i.toInt < -items.length ∨ items.length ≤ i.toInt →
    index s v (.integer i) = .error (.indexOutOfRange i items.length)

/-- The keys that a loop visits are different, and they are those that the length counts and that
have a value. -/
structure EnumeratesKeys (s : Store) (b : DictionaryId) (ks : List Value) : Prop where
  visited : iterate s (.dictionary b) = .ok ks
  different : ks.Nodup
  counted : HasLength s (.dictionary b) ks.length
  found : ∀ κ : Key, (∃ v, index s (.dictionary b) κ.toValue = .ok v) ↔ κ.toValue ∈ ks

section Views

variable {s : Store} {v : Value} {items : List Value} {n : Nat}

theorem hasLength_of_length? (h : length? s v = some n) : HasLength s v n := by
  have hcall : Action.call .len [v] [] s = Run.ofExcept (Action.lengthIn s v) s := rfl
  unfold Action.lengthIn at hcall
  simp only [h] at hcall
  constructor
  · intro hn
    obtain ⟨m, hm⟩ := Number.exists_toInt (n := n) (by rw [Int64.toInt_minValue]; omega)
      (by rw [Int64.toInt_maxValue]; omega)
    rw [Number.integer?_eq_some.mpr hm] at hcall
    exact ⟨m, hm, hcall⟩
  · intro hn
    rwa [Number.integer?_eq_none.mpr (by rw [Int64.toInt_maxValue]; omega)] at hcall

/-- Elements that are read by their positions are there at the indices that mean these. -/
theorem enumerates_of_positions (read : Nat → Value) (hvisited : iterate s v = .ok items)
    (hlength : length? s v = some items.length)
    (hindex : ∀ k, index s v k = (position k items.length).map read)
    (hread : ∀ (j : Nat) (hj : j < items.length), read j = items[j]) : Enumerates s v items := by
  have hat (i : Int64) (j : Nat) (hj : j < items.length) (hplace : place i items.length = j) :
      index s v (.integer i) = .ok items[j] := by
    rw [hindex, position_eq_ok.mpr ⟨i, rfl, hplace, hj⟩, ← hread j hj]
    rfl
  refine ⟨hvisited, hasLength_of_length? hlength, fun i j hj hij => hat i j hj ?_,
    fun i j hj hij => hat i j hj ?_, fun i hi => ?_⟩
  · unfold place
    split <;> omega
  · unfold place
    split <;> omega
  · have hout : ¬ (0 ≤ place i items.length ∧ place i items.length < items.length) := by
      unfold place
      split <;> omega
    rw [hindex, position_integer, if_neg hout]
    rfl

theorem enumerates_list (a : ListId) : Enumerates s (.list a) (s.list a).toList := by
  refine enumerates_of_positions (fun j => (s.list a).getD j .null) rfl ?_ ?_ ?_
  · simp [length?]
  · intro k
    rw [index_list, Array.length_toList]
  · intro j hj
    have hsize : j < (s.list a).size := by simpa using hj
    simp [Array.getD, hsize]

/-- The characters of a text, each as a text of its own. -/
def characters (text : String) : List String := text.toList.map Char.toString

theorem join_characters (text : String) : String.join (characters text) = text := by
  apply String.toList_inj.mp
  simp [characters, List.flatMap_map, Char.toString]

theorem enumerates_string (text : String) :
    Enumerates s (.string text) ((characters text).map .string) := by
  have hlength : ((characters text).map Value.string).length = text.toList.length := by
    simp [characters]
  refine enumerates_of_positions
    (fun j => .string (text.toList.getD j ' ').toString) ?_ ?_ ?_ ?_
  · simp [iterate, characters, Function.comp_def]
  · rw [hlength, length?, String.length_toList]
  · intro k
    rw [hlength, index_string]
  · intro j hj
    rw [hlength] at hj
    simp [characters, List.getD, hj]

theorem index_dictionary_eq_ok {b : DictionaryId} {κ : Key} :
    (∃ v, index s (.dictionary b) κ.toValue = .ok v) ↔ κ ∈ (s.dictionary b).keys := by
  simp only [index_dictionary, key_toValue, Dictionary.mem_keys]
  cases (s.dictionary b).get? κ <;> simp

theorem key_toValue_injective : Function.Injective Key.toValue := by
  intro κ κ' h
  have hkey := key_toValue κ
  rw [h, key_toValue] at hkey
  exact (Except.ok.inj hkey).symm

theorem enumeratesKeys_dictionary (b : DictionaryId) :
    EnumeratesKeys s b ((s.dictionary b).keys.map Key.toValue) := by
  refine ⟨rfl, (s.dictionary b).nodup.map key_toValue_injective, ?_, fun κ => ?_⟩
  · apply hasLength_of_length?
    rw [List.length_map, Dictionary.length_keys]
    rfl
  · rw [index_dictionary_eq_ok, List.mem_map_of_injective key_toValue_injective]

end Views

/-- Loops, `len` and indices agree on the elements of a list and on the characters of a string, each
of which is a string itself. Loops, `len` and indices agree on the keys of a dictionary. -/
theorem views_agree (s : Store) :
    (∀ a, Enumerates s (.list a) (s.list a).toList) ∧
    (∀ text, Enumerates s (.string text) ((characters text).map .string) ∧
      (∀ part ∈ characters text, part.length = 1) ∧ String.join (characters text) = text) ∧
    ∀ b, EnumeratesKeys s b ((s.dictionary b).keys.map Key.toValue) := by
  refine ⟨enumerates_list, fun text => ⟨enumerates_string text, ?_, join_characters text⟩,
    enumeratesKeys_dictionary⟩
  simp [characters, Char.toString]

example (s : Store) : index s (.string "hé") (.integer (-1)) = .ok (.string "é") := by rfl

end Value

end Offside
