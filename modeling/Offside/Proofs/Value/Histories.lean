import Mathlib.Data.Finset.Card
import Offside.Proofs.Value.Dictionary

/-!
# Histories of dictionaries

What a dictionary holds follows from what was written to it, whatever was read in between: each key
stands where it was first written, with the value that was written last. Equality looks at these
values alone. It tells two dictionaries that hold the same apart by a float that is not a number,
and by nothing else.
-/

namespace Offside

namespace Dictionary

/-! ## Accesses -/

inductive Access where
  | insert (k : Key) (v : Value)
  | get (k : Key)

def Access.write? : Access → Option (Key × Value)
  | insert k v => some (k, v)
  | get _ => none

/-- What accesses write, the first write first. -/
def written (accesses : List Access) : List (Key × Value) := accesses.filterMap Access.write?

/-- Carries out accesses one by one. Gives what was read, and the dictionary in the end. -/
def perform (d : Dictionary) : List Access → List (Option Value) × Dictionary
  | [] => ([], d)
  | .insert k v :: rest => (d.insert k v).perform rest
  | .get k :: rest => (d.get? k :: (d.perform rest).1, (d.perform rest).2)

/-! ## What follows from the writes -/

def lastWritten (writes : List (Key × Value)) (k : Key) : Option Value := writes.reverse.lookup k

/-- How many writes there were before the first one under a key. -/
def firstWrite (writes : List (Key × Value)) (k : Key) : Nat := (writes.map Prod.fst).idxOf k

/-- What accesses read after some writes. -/
def readings (writes : List (Key × Value)) : List Access → List (Option Value)
  | [] => []
  | .insert k v :: rest => readings (writes ++ [(k, v)]) rest
  | .get k :: rest => lastWritten writes k :: readings writes rest

/-- What a dictionary is after some writes to an empty one. -/
structure Records (d : Dictionary) (writes : List (Key × Value)) : Prop where
  table : ∀ k i, d.indices.lookup k = some i ↔ ∃ v, d.entries[i]? = some (k, v)
  keys : ∀ k, k ∈ d.keys ↔ k ∈ writes.map Prod.fst
  distinct : d.keys.Nodup
  order : d.keys.Pairwise fun k k' => firstWrite writes k < firstWrite writes k'
  values : ∀ k, d.get? k = lastWritten writes k
  size : d.size = (writes.map Prod.fst).toFinset.card

section Writes

variable {d : Dictionary} {writes : List (Key × Value)} {k k' : Key} {v : Value}

theorem lastWritten_concat :
    lastWritten (writes ++ [(k, v)]) k' = if k = k' then some v else lastWritten writes k' := by
  unfold lastWritten
  rw [List.reverse_concat, List.lookup_cons]
  by_cases h : k = k'
  · subst h
    simp
  · have hne : (k' == k) = false := by simpa using Ne.symm h
    rw [hne, if_neg h]

theorem firstWrite_concat (h : k' ∈ writes.map Prod.fst) :
    firstWrite (writes ++ [(k, v)]) k' = firstWrite writes k' := by
  unfold firstWrite
  rw [List.map_append, List.idxOf_append_of_mem h]

theorem firstWrite_concat_new (h : k ∉ writes.map Prod.fst) :
    firstWrite (writes ++ [(k, v)]) k = writes.length := by
  simp [firstWrite, List.idxOf_append_of_notMem h]

theorem firstWrite_lt (h : k ∈ writes.map Prod.fst) : firstWrite writes k < writes.length := by
  simpa [firstWrite] using List.idxOf_lt_length_iff.mpr h

theorem size_eq_card {ks : List Key} (h : ∀ k, k ∈ d.keys ↔ k ∈ ks) :
    d.size = ks.toFinset.card := by
  rw [← length_keys, ← List.toFinset_card_of_nodup d.nodup, List.toFinset.ext_iff.mpr h]

/-! ## One write -/

theorem records_empty : Records empty [] where
  table := empty.indexes
  keys _ := Iff.rfl
  distinct := empty.nodup
  order := List.Pairwise.nil
  values _ := rfl
  size := rfl

theorem Records.mem_keys_insert (h : Records d writes) :
    k' ∈ (d.insert k v).keys ↔ k' ∈ (writes ++ [(k, v)]).map Prod.fst := by
  rw [keys_insert, List.map_append, List.mem_append, ← h.keys k']
  split <;> simp_all

/-- Keys that were there have their first writes still, and a new one has the last write. -/
theorem Records.order_insert (h : Records d writes) :
    (d.insert k v).keys.Pairwise fun k₁ k₂ =>
      firstWrite (writes ++ [(k, v)]) k₁ < firstWrite (writes ++ [(k, v)]) k₂ := by
  have hold : d.keys.Pairwise fun k₁ k₂ =>
      firstWrite (writes ++ [(k, v)]) k₁ < firstWrite (writes ++ [(k, v)]) k₂ := by
    refine h.order.imp_of_mem fun h₁ h₂ hlt => ?_
    rwa [firstWrite_concat ((h.keys _).mp h₁), firstWrite_concat ((h.keys _).mp h₂)]
  rw [keys_insert]
  split
  · exact hold
  · rename_i hnew
    refine List.pairwise_append.mpr ⟨hold, List.pairwise_singleton _ _, fun k₁ h₁ k₂ h₂ => ?_⟩
    obtain rfl := List.mem_singleton.mp h₂
    rw [firstWrite_concat ((h.keys _).mp h₁), firstWrite_concat_new (mt (h.keys _).mpr hnew)]
    exact firstWrite_lt ((h.keys _).mp h₁)

theorem Records.insert (h : Records d writes) (k : Key) (v : Value) :
    Records (d.insert k v) (writes ++ [(k, v)]) where
  table := (d.insert k v).indexes
  keys _ := h.mem_keys_insert
  distinct := (d.insert k v).nodup
  order := h.order_insert
  values k' := by rw [get?_insert, lastWritten_concat, h.values]
  size := size_eq_card fun _ => h.mem_keys_insert

/-! ## Any number of accesses -/

/-- Accesses do to a dictionary what they say about the writes before them. -/
theorem Records.perform (h : Records d writes) (accesses : List Access) :
    Records (d.perform accesses).2 (writes ++ written accesses) ∧
      (d.perform accesses).1 = readings writes accesses := by
  induction accesses generalizing d writes with
  | nil => exact ⟨by simpa [Dictionary.perform, written] using h, rfl⟩
  | cons access rest ih =>
    cases access with
    | insert k v =>
      have hrest := ih (h.insert k v)
      rw [List.append_assoc] at hrest
      exact hrest
    | get k =>
      obtain ⟨hd, hread⟩ := ih h
      exact ⟨hd, congrArg₂ List.cons (h.values k) hread⟩

end Writes

/-! ## Keys in common -/

/-- To have the same keys is to have as many and none that the other lacks. -/
theorem forall_rel_iff {d e : Dictionary} {R : Value → Value → Prop} :
    (∀ k, Option.Rel R (d.get? k) (e.get? k)) ↔
      d.size = e.size ∧ ∀ k x, d.get? k = some x → ∃ y, e.get? k = some y ∧ R x y := by
  constructor
  · intro h
    have hkeys : ∀ k, k ∈ d.keys ↔ k ∈ e.keys := by
      intro k
      have hk := h k
      rw [mem_keys, mem_keys]
      generalize d.get? k = x, e.get? k = y at hk
      cases hk <;> simp
    refine ⟨?_, fun k x hx => ?_⟩
    · rw [size_eq_card hkeys, size_eq_card fun _ => Iff.rfl]
    · have hk := h k
      rw [hx] at hk
      generalize e.get? k = y at hk
      cases hk with
      | some hxy => exact ⟨_, rfl, hxy⟩
  · rintro ⟨hsize, hall⟩ k
    cases hx : d.get? k with
    | some x =>
      obtain ⟨y, hy, hxy⟩ := hall k x hx
      rw [hy]
      exact .some hxy
    | none =>
      have hkeys := keys_subset hsize (keys_subset_of_get? hall)
      rw [get?_eq_none.mpr fun hk => get?_eq_none.mp hx (hkeys hk)]
      exact .none

end Dictionary

/-! ## Equal dictionaries -/

namespace Value

variable {s : Store} {a b : DictionaryId} {v : Value}

/-- Only a float that is not a number differs from itself. -/
theorem equals_self : equals s v v = true ↔ ∀ x, v = .float x → x.isNaN = false := by
  rw [equals_iff_bisimilar]
  constructor
  · rintro h x rfl
    cases h.matches with
    | float hx => exact Decimal.beq_self_iff.mp hx
  · intro h
    apply Bisimilar.of_matches
    cases v with
    | float x => exact .float (Decimal.beq_self_iff.mpr (h x rfl))
    | _ => constructor <;> rfl

/-- Dictionaries are equal if they are the same one, or have the same keys with equal values. -/
theorem equals_dictionary_iff : equals s (.dictionary a) (.dictionary b) = true ↔
    a = b ∨ ∀ k, Option.Rel (fun v w => equals s v w = true)
      ((s.dictionary a).get? k) ((s.dictionary b).get? k) := by
  simp only [equals_iff_bisimilar, Dictionary.forall_rel_iff]
  constructor
  · intro h
    cases h.matches with
    | sameDictionary => exact .inl rfl
    | dictionary hsize hall => exact .inr ⟨hsize, hall⟩
  · rintro (rfl | ⟨hsize, hall⟩)
    · exact .of_matches (.sameDictionary a)
    · exact .of_matches (.dictionary hsize hall)

end Value

namespace Dictionary

/-- Whatever is written to an empty dictionary and read from it, all of it follows from the writes.
Two dictionaries are equal if the values written last under each key are, in whatever order the keys
stand. Where these values are the same, only a float that is not a number tells them apart. -/
theorem insertion_ordered :
    (∀ accesses, (empty.perform accesses).2.Records (written accesses) ∧
      (empty.perform accesses).1 = readings [] accesses) ∧
    ∀ (s : Store) (a b : DictionaryId) (left right : List Access),
      s.dictionary a = (empty.perform left).2 → s.dictionary b = (empty.perform right).2 →
      (Value.equals s (.dictionary a) (.dictionary b) = true ↔
        a = b ∨ ∀ k, Option.Rel (fun v w => Value.equals s v w = true)
          (lastWritten (written left) k) (lastWritten (written right) k)) ∧
      ((∀ k, lastWritten (written left) k = lastWritten (written right) k) →
        (Value.equals s (.dictionary a) (.dictionary b) = true ↔
          a = b ∨ ∀ k x, lastWritten (written left) k = some (.float x) → x.isNaN = false)) := by
  have hperform : ∀ accesses, (empty.perform accesses).2.Records (written accesses) ∧
      (empty.perform accesses).1 = readings [] accesses := records_empty.perform
  refine ⟨hperform, fun s a b left right ha hb => ?_⟩
  have hequal := Value.equals_dictionary_iff (s := s) (a := a) (b := b)
  simp only [ha, hb, (hperform left).1.values, (hperform right).1.values] at hequal
  refine ⟨hequal, fun hsame => hequal.trans (or_congr_right (forall_congr' fun k => ?_))⟩
  rw [← hsame]
  cases lastWritten (written left) k with
  | none => exact iff_of_true .none nofun
  | some v => simp [Value.equals_self]

/-- A key that is written again keeps its place, so that the keys stand the other way around. -/
def rewritten : List Access :=
  [.insert (.integer 1) .null, .get (.integer 1), .insert (.string "b") (.list ⟨0⟩),
    .insert (.integer 1) (.boolean true), .get .null]

def reordered : List Access :=
  [.insert (.string "b") (.list ⟨0⟩), .insert (.integer 1) (.boolean true)]

def reorderedStore : Store where
  frames := #[]
  lists := #[#[]]
  dictionaries := #[(empty.perform rewritten).2, (empty.perform reordered).2]
  identities := 0
  output := ⟨"", none⟩

theorem insertion_ordered_reordered :
    (empty.perform rewritten).1 = [some .null, none] ∧
      (reorderedStore.dictionary ⟨0⟩).keys = (reorderedStore.dictionary ⟨1⟩).keys.reverse ∧
      Value.equals reorderedStore (.dictionary ⟨0⟩) (.dictionary ⟨1⟩) = true := by
  have hsame : ∀ k, lastWritten (written rewritten) k = lastWritten (written reordered) k := by
    intro k
    simp only [lastWritten, written, rewritten, reordered, List.filterMap, Access.write?,
      List.reverse_cons, List.reverse_nil, List.nil_append, List.cons_append, List.lookup_cons]
    cases k == .integer 1 <;> rfl
  have hnumbers : ∀ k x, lastWritten (written rewritten) k = some (.float x) → x.isNaN = false := by
    intro k x hx
    obtain ⟨before, after, hsplit, -⟩ := List.lookup_eq_some_iff.mp hx
    have hmem : (k, .float x) ∈ (written rewritten).reverse := by simp [hsplit]
    simp [written, rewritten, Access.write?] at hmem
  refine ⟨(insertion_ordered.1 rewritten).2.trans rfl, by decide, ?_⟩
  exact ((insertion_ordered.2 reorderedStore ⟨0⟩ ⟨1⟩ rewritten reordered rfl rfl).2 hsame).mpr
    (.inr hnumbers)

def notANumber : List Access := [.insert (.integer 1) (.float (0.0 / 0.0))]

def nanStore : Store := { reorderedStore with
  dictionaries := #[(empty.perform notANumber).2, (empty.perform notANumber).2] }

/-- The same entries do not always make equal dictionaries. -/
theorem same_entries_differ :
    ¬ ∀ (s : Store) (a b : DictionaryId) (left right : List Access),
      s.dictionary a = (empty.perform left).2 → s.dictionary b = (empty.perform right).2 →
      (∀ k, lastWritten (written left) k = lastWritten (written right) k) →
      Value.equals s (.dictionary a) (.dictionary b) = true := by
  intro h
  have hequal := h nanStore ⟨0⟩ ⟨1⟩ notANumber notANumber rfl rfl fun _ => rfl
  revert hequal
  decide +kernel

end Dictionary

end Offside
