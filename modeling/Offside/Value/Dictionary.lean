import Offside.Value

/-!
# Dictionaries

A dictionary keeps its entries in the order in which their keys were first inserted. Beside them it
keeps a table of where the entry of each key is, through which it reads and writes.
-/

namespace Offside

namespace Dictionary

/-! ## Tables of positions -/

/-- Which key is at which position. -/
abbrev Table := List (Key × Nat)

/-- The table has the keys of the entries and no others, each at its own position. -/
def Indexes (indices : Table) (entries : Array (Key × Value)) : Prop :=
  ∀ k i, indices.lookup k = some i ↔ ∃ v, entries[i]? = some (k, v)

namespace Indexes

variable {indices : Table} {entries : Array (Key × Value)} {k : Key} {i : Nat}

theorem lt_size (h : Indexes indices entries) (hi : indices.lookup k = some i) :
    i < entries.size := by
  obtain ⟨v, hv⟩ := (h k i).mp hi
  exact (Array.getElem?_eq_some_iff.mp hv).1

theorem empty : Indexes [] #[] := by
  intro k i
  simp

/-- A new value in an old place moves no entry. -/
theorem modify (h : Indexes indices entries) (i : Nat) (v : Value) :
    Indexes indices (entries.modify i fun e => (e.1, v)) := by
  intro k j
  rw [h, Array.getElem?_modify]
  split
  · cases entries[j]? <;> simp [Prod.ext_iff]
  · rfl

theorem push (h : Indexes indices entries) (hnew : indices.lookup k = none) (v : Value) :
    Indexes ((k, entries.size) :: indices) (entries.push (k, v)) := by
  intro k' i
  have hfresh : indices.lookup k' ≠ some entries.size := fun hi =>
    absurd (h.lt_size hi) (Nat.lt_irrefl _)
  have hunknown : ∀ v, entries[i]? ≠ some (k, v) := fun v hv => by
    simp [(h k i).mpr ⟨v, hv⟩] at hnew
  rw [List.lookup_cons, Array.getElem?_push]
  by_cases hk : k' = k
  · subst hk
    by_cases hi : i = entries.size
    · simp [hi]
    · simpa [hi, Ne.symm hi] using hunknown
  · have hbeq : (k' == k) = false := by simpa using hk
    by_cases hi : i = entries.size
    · simpa [hbeq, hi, Ne.symm hk] using hfresh
    · simp [hbeq, hi, h k' i]

end Indexes

end Dictionary

/-! ## Dictionaries -/

structure Dictionary where
  entries : Array (Key × Value)
  indices : Dictionary.Table
  indexes : Dictionary.Indexes indices entries

namespace Dictionary

def empty : Dictionary := ⟨#[], [], .empty⟩

def size (d : Dictionary) : Nat := d.entries.size

def keys (d : Dictionary) : List Key := d.entries.toList.map Prod.fst

def get? (d : Dictionary) (k : Key) : Option Value :=
  match h : d.indices.lookup k with
  | some i =>
    have := d.indexes.lt_size h
    some d.entries[i].2
  | none => none

theorem get?_eq_bind (d : Dictionary) (k : Key) :
    d.get? k = (d.indices.lookup k).bind fun i => d.entries[i]?.map Prod.snd := by
  unfold get?
  split
  · rename_i i hi
    simp [hi, d.indexes.lt_size hi]
  · rename_i hnone
    simp [hnone]

@[simp] theorem get?_empty (k : Key) : empty.get? k = none :=
  rfl

/-- A known key gets a new value in its old place, and a new key goes to the end. -/
def insert (d : Dictionary) (k : Key) (v : Value) : Dictionary :=
  match h : d.indices.lookup k with
  | some i => ⟨d.entries.modify i fun e => (e.1, v), d.indices, d.indexes.modify i v⟩
  | none => ⟨d.entries.push (k, v), (k, d.entries.size) :: d.indices, d.indexes.push h v⟩

def ofList (entries : List (Key × Value)) : Dictionary :=
  entries.foldl (fun d e => d.insert e.1 e.2) empty

end Dictionary

end Offside
