import Offside.Value.Number

/-!
# Integers of 64 bits

An integer that fits has one value of 64 bits, and every value of 64 bits is the one of its own
integer.
-/

namespace Offside.Number

variable {n : Int} {m : Int64}

theorem integer?_eq_some : integer? n = some m ↔ m.toInt = n := by
  unfold integer?
  rw [Int64.toInt_minValue, Int64.toInt_maxValue]
  have hlow := m.le_toInt
  have hhigh := m.toInt_lt
  split
  · rename_i hfits
    rw [Option.some.injEq]
    constructor
    · rintro rfl
      exact Int64.toInt_ofInt_of_le hfits.1 (by omega)
    · rintro rfl
      exact Int64.ofInt_toInt m
  · constructor
    · nofun
    · omega

theorem integer?_eq_none :
    integer? n = none ↔ n < Int64.minValue.toInt ∨ Int64.maxValue.toInt < n := by
  unfold integer?
  split
  · simp only [reduceCtorEq, false_iff]
    omega
  · simp only [true_iff]
    omega

@[simp] theorem integer?_toInt (m : Int64) : integer? m.toInt = some m := integer?_eq_some.mpr rfl

theorem exists_toInt (hlow : Int64.minValue.toInt ≤ n) (hhigh : n ≤ Int64.maxValue.toInt) :
    ∃ m : Int64, m.toInt = n :=
  ⟨.ofInt n, Int64.toInt_ofInt_of_le hlow (Int.lt_of_le_sub_one hhigh)⟩

end Offside.Number
