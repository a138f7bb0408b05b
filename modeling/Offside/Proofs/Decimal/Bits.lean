import Offside.Decimal.Rounding

/-!
# Floats and their bit patterns

A float is found again from its bit pattern, and equals itself unless it is not a number.
-/

namespace Offside.Decimal

open Float.Model (Format UnpackedFloat)
open Float.Model.UnpackedFloat

/-! ## Taking a pattern apart and putting it together -/

abbrev signField (b : BitVec 64) : BitVec 1 := @unpackSign .binary64 b

abbrev exponentField (b : BitVec 64) : BitVec 11 := @unpackExponent .binary64 b

abbrev mantissaField (b : BitVec 64) : BitVec 52 := @unpackMantissa .binary64 b

theorem toBitVec_ofBitVec (s : BitVec 1) : (Sign.ofBitVec s).toBitVec = s := by
  revert s
  decide

theorem toNat_exponentField (b : BitVec 64) :
    (exponentField b).toNat = b.toNat / 2 ^ 52 % 2048 := by
  simp [exponentField, unpackExponent, BitVec.extractLsb, Nat.shiftRight_eq_div_pow]

theorem toNat_mantissaField (b : BitVec 64) : (mantissaField b).toNat = b.toNat % 2 ^ 52 := by
  simp [mantissaField, unpackMantissa, BitVec.extractLsb]

theorem toNat_signField (b : BitVec 64) : (signField b).toNat = b.toNat / 2 ^ 63 % 2 := by
  show (BitVec.extractLsb 63 63 b).toNat = _
  simp [BitVec.extractLsb, Nat.shiftRight_eq_div_pow]

theorem packComponents_fields (b : BitVec 64) :
    packComponents .binary64 (.ofBitVec (signField b)) (exponentField b) (mantissaField b) = b := by
  have hb : b.toNat < 2 ^ 64 := b.isLt
  apply BitVec.eq_of_toNat_eq
  simp only [packComponents, BitVec.toNat_append, toBitVec_ofBitVec]
  rw [← Nat.shiftLeft_add_eq_or_of_lt (exponentField b).isLt,
    ← Nat.shiftLeft_add_eq_or_of_lt (mantissaField b).isLt]
  simp only [toNat_signField, toNat_exponentField, toNat_mantissaField, Nat.shiftLeft_eq]
  omega

theorem pack_subnormal {s : Sign} {m : Nat} {e : Int} (hpos : 0 < m) (hm : m < 2 ^ 52)
    (he : e = -1074) :
    pack .binary64 (.finite s m e hpos) = packComponents .binary64 s 0#_ (BitVec.ofNat _ m) := by
  have hlog : m.log2 + 1 ≠ Format.binary64.mantissaBits := by
    have hlt : m.log2 < 52 := (Nat.log2_lt (by omega)).mpr hm
    have hbits : Format.binary64.mantissaBits = 53 := rfl
    omega
  subst he
  unfold pack
  rw [if_neg (by decide), if_neg hlog]

theorem pack_normal {s : Sign} {m k : Nat} {e : Int} (hpos : 0 < m) (hlow : 2 ^ 52 ≤ m)
    (hhigh : m < 2 ^ 53) (hk : k < 2047) (he : e = k - 1075) :
    pack .binary64 (.finite s m e hpos) =
      packComponents .binary64 s (BitVec.ofNat _ k) (BitVec.ofNat _ m) := by
  have hlog : m.log2 + 1 = Format.binary64.mantissaBits := by
    have := (Nat.log2_eq_iff (k := 52) (by omega : m ≠ 0)).mpr ⟨hlow, hhigh⟩
    have hbits : Format.binary64.mantissaBits = 53 := rfl
    omega
  have hbiased : (e + (Format.binary64.exponentBias : Nat) + (52 : Nat)).toNat = k := by
    have hbias : Format.binary64.exponentBias = 1023 := rfl
    omega
  unfold pack
  dsimp only
  rw [hbiased]
  rw [if_neg (by show ¬ 2 ^ 11 ≤ k + 1; omega), if_pos hlog]

/-- Packing what a pattern unpacks to gives the pattern again. -/
theorem pack_unpack {b : BitVec 64} (hvalid : Format.binary64.Valid b) :
    pack .binary64 (unpack .binary64 b) = b := by
  have hmantissa : (mantissaField b).toNat < 2 ^ 52 := (mantissaField b).isLt
  have hexponent : (exponentField b).toNat < 2 ^ 11 := (exponentField b).isLt
  have hfields := packComponents_fields b
  have hbias : ((Format.binary64.exponentBias : Nat) : Int) = 1023 := rfl
  unfold unpack
  show pack .binary64 (if exponentField b = -1#_ then if mantissaField b = 0#_ then _ else _
    else if exponentField b = 0#_ then if h : mantissaField b = 0#_ then _ else _ else _) = b
  by_cases hones : exponentField b = -1#_
  · rw [if_pos hones]
    by_cases hzero : mantissaField b = 0#_
    · rw [if_pos hzero]
      rw [hones, hzero] at hfields
      exact hfields
    · rw [if_neg hzero]
      exact (hvalid.eq_packedNaN hones hzero).symm
  · rw [if_neg hones]
    by_cases hsubnormal : exponentField b = 0#_
    · rw [if_pos hsubnormal]
      rw [hsubnormal] at hfields
      by_cases hzero : mantissaField b = 0#_
      · rw [dif_pos hzero]
        rw [hzero] at hfields
        exact hfields
      · rw [dif_neg hzero, pack_subnormal _ hmantissa, BitVec.ofNat_toNat, BitVec.setWidth_eq]
        · exact hfields
        · have hzero : (exponentField b).toNat = 0 := by rw [hsubnormal]; rfl
          show ((exponentField b).toNat : Int) - (_ + (52 : Nat)) + 1 = _
          rw [hzero, hbias]
          rfl
    · rw [if_neg hsubnormal]
      have hlt : (exponentField b).toNat ≠ 2047 := by
        intro h
        exact hones (BitVec.eq_of_toNat_eq h)
      have hvalue : (1#1 ++ mantissaField b).toNat = 2 ^ 52 + (mantissaField b).toNat := by
        rw [BitVec.toNat_append, ← Nat.shiftLeft_add_eq_or_of_lt (mantissaField b).isLt]
        rfl
      have hpack := pack_normal (s := .ofBitVec (signField b)) (m := (1#1 ++ mantissaField b).toNat)
        (k := (exponentField b).toNat)
        (e := (exponentField b).toNat - ((Format.binary64.exponentBias : Nat) + (52 : Nat)))
        (by omega) (by omega) (by omega) (by omega) (by omega)
      have hlow : BitVec.ofNat 52 (1#1 ++ mantissaField b).toNat = mantissaField b := by
        apply BitVec.eq_of_toNat_eq
        rw [BitVec.toNat_ofNat, hvalue]
        omega
      rw [BitVec.ofNat_toNat, BitVec.setWidth_eq, hlow, hfields] at hpack
      exact hpack

/-- The bits of a float determine it. -/
theorem ofBits_toBits (x : Float) : Float.ofBits x.toBits = x := by
  obtain ⟨⟨bits, hvalid⟩⟩ := x
  show Float.ofModel (Float.Model.ofBits bits) = _
  congr 1
  show Float.Model.mk (UInt64.ofBitVec (pack .binary64 (unpack .binary64 bits.toBitVec))) _ = _
  congr 1
  exact congrArg UInt64.ofBitVec (pack_unpack hvalid)

/-- A pattern up to that of plus infinity is that of a float. -/
theorem valid_of_le {b : UInt64} (h : b.toNat ≤ infinityBits) : Format.binary64.Valid b.toBitVec := by
  refine ⟨fun hones hmantissa => absurd ?_ hmantissa⟩
  have hexponent : b.toNat / 2 ^ 52 % 2048 = 2047 := by
    rw [← UInt64.toNat_toBitVec, ← toNat_exponentField]
    exact congrArg BitVec.toNat hones
  have hzero : b.toNat % 2 ^ 52 = 0 := by
    unfold infinityBits at h
    omega
  apply BitVec.eq_of_toNat_eq
  rw [← UInt64.toNat_toBitVec, ← toNat_mantissaField] at hzero
  exact hzero

theorem toBits_ofBits {b : UInt64} (h : b.toNat ≤ infinityBits) : (Float.ofBits b).toBits = b := by
  show UInt64.ofBitVec (pack .binary64 (unpack .binary64 b.toBitVec)) = b
  rw [pack_unpack (valid_of_le h)]

theorem toNat_toBits_nearest (num den : Nat) : (nearest num den).toBits.toNat = nearestBits num den := by
  have hle : nearestBits num den ≤ infinityBits := Nat.min_le_right _ _
  have hsize : nearestBits num den < 2 ^ 64 := Nat.lt_of_le_of_lt hle (by decide)
  have hnat : (UInt64.ofNat (nearestBits num den)).toNat = nearestBits num den :=
    UInt64.toNat_ofNat_of_lt' hsize
  unfold nearest
  rw [toBits_ofBits (hnat.symm ▸ hle), hnat]

/-! ## Floats that are numbers -/

/-- A finite float without a sign. -/
def IsPlain (x : Float) : Prop := ∃ m k, parts x = .finite false m k

/-- The pattern of a finite float without a sign, from its mantissa and shift. -/
theorem toBits_of_parts {x : Float} {m k : Nat} (h : parts x = .finite false m k) :
    x.toBits.toNat = k * 2 ^ 52 + m ∧ m < 2 ^ 53 ∧ k < 2046 ∧ (2 ^ 52 ≤ m ∨ k = 0) := by
  have hbits : x.toBits.toNat < 2 ^ 64 := x.toBits.toNat_lt
  simp only [parts] at h
  split at h
  · split at h <;> simp at h
  · split at h
    · simp only [Parts.finite.injEq, decide_eq_false_iff_not] at h
      omega
    · simp only [Parts.finite.injEq, decide_eq_false_iff_not] at h
      omega

theorem unpack_ne_notANumber {b : BitVec 64} (h : exponentField b ≠ -1#_) :
    unpack .binary64 b ≠ .notANumber := by
  unfold unpack
  show (if exponentField b = -1#_ then _ else if exponentField b = 0#_ then
    if h : mantissaField b = 0#_ then _ else _ else _) ≠ _
  rw [if_neg h]
  by_cases hsubnormal : exponentField b = 0#_
  · rw [if_pos hsubnormal]
    by_cases hzero : mantissaField b = 0#_
    · rw [dif_pos hzero]
      exact UnpackedFloat.noConfusion
    · rw [dif_neg hzero]
      exact UnpackedFloat.noConfusion
  · rw [if_neg hsubnormal]
    exact UnpackedFloat.noConfusion

theorem beq_self_of_ne_notANumber {u : UnpackedFloat} (h : u ≠ .notANumber) : u.beq u = true := by
  cases u with
  | notANumber => exact absurd rfl h
  | infinity s => cases s <;> rfl
  | zero s => rfl
  | finite s m e hpos =>
    have hcompare : (compare e e).then (compare m m) = .eq := by simp
    cases s with
    | positive =>
      show (some ((compare e e).then (compare m m)) == some .eq) = true
      rw [hcompare]
      rfl
    | negative =>
      show (some ((compare e e).then (compare m m)).swap == some .eq) = true
      rw [hcompare]
      rfl

/-- Comparing the other way around turns the order around. -/
theorem compare_swap (u v : UnpackedFloat) : v.compare u = (u.compare v).map Ordering.swap := by
  rcases u with (s | s) | _ | _ | ⟨s | s, m, e, h⟩ <;>
    rcases v with (s' | s') | _ | _ | ⟨s' | s', m', e', h'⟩ <;> try rfl
  all_goals
    dsimp only [UnpackedFloat.compare]
    simp only [Option.map_some, Ordering.swap_then, ← Std.OrientedCmp.eq_swap]

theorem beq_comm (x y : Float) : (x == y) = (y == x) := by
  show (x.toModel.unpack.compare y.toModel.unpack == some .eq) =
    (y.toModel.unpack.compare x.toModel.unpack == some .eq)
  rw [compare_swap x.toModel.unpack y.toModel.unpack]
  cases x.toModel.unpack.compare y.toModel.unpack with
  | none => rfl
  | some o => cases o <;> rfl

theorem beq_self_iff {x : Float} : (x == x) = true ↔ x.isNaN = false := by
  show x.toModel.unpack.beq x.toModel.unpack = true ↔ x.toModel.unpack.isNaN = false
  by_cases h : x.toModel.unpack = .notANumber
  · rw [h]
    exact iff_of_false nofun nofun
  · have hnumber : x.toModel.unpack.isNaN = false := by
      cases hx : x.toModel.unpack with
      | notANumber => exact absurd hx h
      | _ => rfl
    exact iff_of_true (beq_self_of_ne_notANumber h) hnumber

theorem IsPlain.beq_self {x : Float} (h : IsPlain x) : (x == x) = true := by
  obtain ⟨m, k, h⟩ := h
  obtain ⟨hbits, hm, hk, -⟩ := toBits_of_parts h
  apply beq_self_of_ne_notANumber
  apply unpack_ne_notANumber
  intro hones
  have hexponent := congrArg BitVec.toNat hones
  rw [toNat_exponentField] at hexponent
  have : x.toBits.toNat / 2 ^ 52 % 2048 = 2047 := hexponent
  omega

/-- The nearest float has no sign, and is infinite if the fraction is too large. -/
theorem isPlain_nearest (num den : Nat) (h : parts (nearest num den) ≠ .infinite false) :
    IsPlain (nearest num den) := by
  have hle : nearestBits num den ≤ infinityBits := Nat.min_le_right _ _
  unfold infinityBits at hle
  unfold IsPlain
  unfold parts at h ⊢
  rw [toNat_toBits_nearest] at h ⊢
  have hpositive : decide (2 ^ 63 ≤ nearestBits num den) = false := by
    rw [decide_eq_false_iff_not]
    omega
  dsimp only at h ⊢
  rw [hpositive] at h ⊢
  split
  · rename_i hones
    have hzero : nearestBits num den % 2 ^ 52 = 0 := by omega
    rw [if_pos hones, if_pos hzero] at h
    exact absurd rfl h
  · split
    · exact ⟨_, _, rfl⟩
    · exact ⟨_, _, rfl⟩
end Offside.Decimal
