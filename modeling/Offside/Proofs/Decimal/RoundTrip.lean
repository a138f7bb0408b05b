import Offside.Decimal.Notation
import Offside.Proofs.Decimal.Bits
import Offside.Text.Letter

/-!
# Floats are read back from their notation

The digits that are chosen for a float denote a fraction whose nearest float it is. The notation
has those digits and the point in its place, so that it denotes the same fraction.
-/

namespace Offside.Decimal

/-! ## Rounding a fraction -/

theorem roundHalfEven_mul (num den : Nat) {c : Nat} (hc : 0 < c) :
    roundHalfEven (num * c) (den * c) = roundHalfEven num den := by
  unfold roundHalfEven
  rw [Nat.mul_div_mul_right _ _ hc, Nat.mul_mod_mul_right, ← Nat.mul_assoc]
  simp only [Nat.mul_lt_mul_right hc]

theorem roundHalfEven_exact (n : Nat) {den : Nat} (hden : 0 < den) :
    roundHalfEven (n * den) den = n := by
  unfold roundHalfEven
  rw [Nat.mul_div_cancel _ hden, Nat.mul_mod_left]
  simp only [Nat.mul_zero]
  rw [if_pos hden]

/-- The nearest float depends on the fraction only. -/
theorem nearestBits_mul (num den : Nat) {c : Nat} (hc : 0 < c) :
    nearestBits (num * c) (den * c) = nearestBits num den := by
  unfold nearestBits
  generalize 2 ^ 1074 = scale
  have hscaled : num * c * scale = num * scale * c := Nat.mul_right_comm num c scale
  have hround : ∀ shift, roundHalfEven (num * scale * c) (den * c * 2 ^ shift) =
      roundHalfEven (num * scale) (den * 2 ^ shift) := by
    intro shift
    rw [Nat.mul_right_comm den c, roundHalfEven_mul _ _ hc]
  simp only [hscaled, Nat.mul_div_mul_right _ _ hc, hround]

theorem nearestBits_ten_pow (num n : Nat) :
    nearestBits (num * 5 ^ n) (10 ^ n) = nearestBits num (2 ^ n) := by
  rw [show 10 ^ n = 2 ^ n * 5 ^ n from Nat.mul_pow 2 5 n, nearestBits_mul _ _ (Nat.pow_pos (by decide))]

theorem nearestBits_zero (den : Nat) : nearestBits 0 den = 0 := by
  unfold nearestBits
  generalize 2 ^ 1074 = scale
  simp [roundHalfEven]

theorem log2_mul_two_pow {m : Nat} (hm : m ≠ 0) (k : Nat) : (m * 2 ^ k).log2 = m.log2 + k := by
  have hpow : 0 < 2 ^ k := Nat.two_pow_pos k
  rw [Nat.log2_eq_iff (Nat.mul_ne_zero hm (Nat.ne_of_gt hpow))]
  have hlow := Nat.log2_self_le hm
  have hhigh := Nat.lt_log2_self (n := m)
  constructor
  · rw [Nat.pow_add]
    exact Nat.mul_le_mul_right _ hlow
  · rw [Nat.add_right_comm, Nat.pow_add]
    exact Nat.mul_lt_mul_of_pos_right hhigh hpow

/-- A float is nearest to the number that it is. -/
theorem nearestBits_self {m k : Nat} (hm : m < 2 ^ 53) (hk : k < 2046) (hpos : 0 < m)
    (hnormal : 2 ^ 52 ≤ m ∨ k = 0) : nearestBits (m * 2 ^ k) (2 ^ 1074) = k * 2 ^ 52 + m := by
  have hshift : (m * 2 ^ k).log2 - 52 = k := by
    rw [log2_mul_two_pow (by omega)]
    rcases hnormal with h | rfl
    · have := (Nat.log2_eq_iff (k := 52) (by omega : m ≠ 0)).mpr ⟨h, hm⟩
      omega
    · have : m.log2 < 53 := (Nat.log2_lt (by omega)).mpr hm
      omega
  unfold nearestBits infinityBits
  have hpowers : ∀ n, 0 < 2 ^ n := Nat.two_pow_pos
  have hscale : 0 < 2 ^ 1074 := hpowers 1074
  generalize 2 ^ 1074 = scale at hscale
  have hround : roundHalfEven (m * 2 ^ k * scale) (scale * 2 ^ k) = m := by
    rw [Nat.mul_assoc, Nat.mul_comm scale]
    exact roundHalfEven_exact m (Nat.mul_pos (Nat.two_pow_pos k) hscale)
  simp only [Nat.mul_div_cancel _ hscale, hshift, hround]
  omega

/-! ## The digits chosen -/

/-- The number `digits * 10 ^ exponent` is read as the float with the pattern. -/
def Denotes (bits digits : Nat) (exponent : Int) : Prop := readsBack bits digits exponent = true

theorem denotes_of_gridPoint? {m k digits : Nat} {exponent : Int}
    (h : gridPoint? m k exponent = some digits) : Denotes (k * 2 ^ 52 + m) digits exponent := by
  unfold gridPoint? at h
  dsimp only at h
  split at h
  · rename_i hlower
    cases h
    exact (Bool.and_eq_true_iff.mp hlower).1
  · split at h
    · rename_i hupper
      cases h
      exact hupper
    · cases h

theorem denotes_self {m k : Nat} (hm : m < 2 ^ 53) (hk : k < 2046) (hpos : 0 < m)
    (hnormal : 2 ^ 52 ≤ m ∨ k = 0) :
    Denotes (k * 2 ^ 52 + m) (m * 2 ^ k * 5 ^ 1074) (-1074) := by
  have hexponent : (-(-1074 : Int)).toNat = 1074 := rfl
  unfold Denotes readsBack
  rw [if_neg (by decide), decide_eq_true_eq, hexponent, nearestBits_ten_pow (m * 2 ^ k) 1074,
    nearestBits_self hm hk hpos hnormal]

theorem searchDigits_denotes {m k : Nat} (hself : Denotes (k * 2 ^ 52 + m) (m * 2 ^ k * 5 ^ 1074) (-1074))
    (tries : Nat) (start : Int) {digits : Nat} {exponent : Int}
    (h : searchDigits m k tries start = (digits, exponent)) :
    Denotes (k * 2 ^ 52 + m) digits exponent := by
  induction tries generalizing start with
  | zero =>
    rw [searchDigits, Prod.mk.injEq] at h
    obtain ⟨rfl, rfl⟩ := h
    exact hself
  | succ tries ih =>
    unfold searchDigits at h
    split at h
    · rename_i hgrid
      cases h
      exact denotes_of_gridPoint? hgrid
    · exact ih _ h

/-! ## The notation -/

open Text (isAsciiDigit)

/-- A row of digits that is not empty. -/
def IsDigits (row : List Char) : Prop := row ≠ [] ∧ ∀ c ∈ row, isAsciiDigit c = true

theorem isAsciiDigit_of_isDigit {c : Char} (h : c.isDigit = true) : isAsciiDigit c = true := by
  simpa [Char.isDigit, isAsciiDigit, Char.le_def] using h

theorem isDigits_toDigits (n : Nat) : IsDigits (Nat.toDigits 10 n) := by
  refine ⟨Nat.toDigits_ne_nil, fun c hc => isAsciiDigit_of_isDigit ?_⟩
  exact Nat.isDigit_of_mem_toDigits (by decide) (by decide) hc

theorem digitsValue_toDigits (n : Nat) : digitsValue (Nat.toDigits 10 n) = n :=
  Nat.ofDigitChars_ten_toDigits

theorem digitsValue_append (a b : List Char) :
    digitsValue (a ++ b) = digitsValue a * 10 ^ b.length + digitsValue b := by
  show Nat.ofDigitChars 10 (a ++ b) 0 = Nat.ofDigitChars 10 a 0 * _ + Nat.ofDigitChars 10 b 0
  rw [Nat.ofDigitChars_append, Nat.ofDigitChars_eq_ofDigitChars_zero, Nat.mul_comm]

theorem padded_spec {width n : Nat} (hwidth : 0 < width) (hn : n < 10 ^ width) :
    IsDigits (padded width n) ∧ (padded width n).length = width ∧ digitsValue (padded width n) = n := by
  have hlength : (Nat.toDigits 10 n).length ≤ width :=
    (Nat.length_toDigits_le_iff (by decide) hwidth).mpr hn
  obtain ⟨hne, hdigits⟩ := isDigits_toDigits n
  unfold padded
  refine ⟨⟨?_, ?_⟩, ?_, ?_⟩
  · exact List.append_ne_nil_of_right_ne_nil _ hne
  · intro c hc
    rcases List.mem_append.mp hc with hc | hc
    · rw [List.eq_of_mem_replicate hc]
      rfl
    · exact hdigits c hc
  · rw [List.length_append, List.length_replicate]
    omega
  · show Nat.ofDigitChars 10 _ 0 = n
    rw [Nat.ofDigitChars_append, Nat.ofDigitChars_replicate_zero]
    exact digitsValue_toDigits n

/-- A number is written as digits, a point and digits, which denote the same number. -/
theorem positional_spec (digits : Nat) (exponent : Int) :
    ∃ whole fraction, (positional digits exponent).toList = whole ++ '.' :: fraction ∧
      IsDigits whole ∧ IsDigits fraction ∧
      ∀ {bits}, Denotes bits digits exponent →
        nearestBits (digitsValue (whole ++ fraction)) (10 ^ fraction.length) = bits := by
  unfold positional Denotes readsBack
  split
  · refine ⟨Nat.toDigits 10 (digits * 10 ^ exponent.toNat), ['0'], by simp, isDigits_toDigits _,
      ⟨nofun, by simp [isAsciiDigit]⟩, ?_⟩
    intro bits h
    rw [digitsValue_append, digitsValue_toDigits]
    show nearestBits (digits * 10 ^ exponent.toNat * 10) (1 * 10) = bits
    rw [nearestBits_mul _ _ (by decide)]
    exact of_decide_eq_true h
  · rename_i hexponent
    have hplaces : 0 < (-exponent).toNat := by omega
    generalize (-exponent).toNat = places at hplaces
    obtain ⟨hpadded, hlength, hvalue⟩ := padded_spec hplaces (Nat.mod_lt digits (Nat.pow_pos (by decide)))
    refine ⟨Nat.toDigits 10 (digits / 10 ^ places), padded places (digits % 10 ^ places), ?_,
      isDigits_toDigits _, hpadded, ?_⟩
    · simp
    · intro bits h
      rw [digitsValue_append, digitsValue_toDigits, hvalue, hlength, Nat.div_add_mod']
      exact of_decide_eq_true h

theorem shortestDigits_denotes {m k : Nat} (hm : m < 2 ^ 53) (hk : k < 2046)
    (hnormal : 2 ^ 52 ≤ m ∨ k = 0) :
    Denotes (k * 2 ^ 52 + m) (shortestDigits m k).1 (shortestDigits m k).2 := by
  unfold shortestDigits
  split
  · rename_i hzero
    obtain rfl : k = 0 := by omega
    subst hzero
    simp [Denotes, readsBack, nearestBits_zero]
  · rename_i hzero
    exact searchDigits_denotes (denotes_self hm hk (Nat.pos_of_ne_zero hzero) hnormal) _ _ rfl

/-- A finite float without a sign is written as digits, a point and digits, and these are read as
the float. -/
theorem floatText_spec {x : Float} (h : IsPlain x) :
    ∃ whole fraction, (floatText x).toList = whole ++ '.' :: fraction ∧ IsDigits whole ∧
      IsDigits fraction ∧ toFloat (digitsValue (whole ++ fraction)) (-(fraction.length : Int)) = x := by
  obtain ⟨m, k, hparts⟩ := h
  obtain ⟨hbits, hm, hk, hnormal⟩ := toBits_of_parts hparts
  obtain ⟨whole, fraction, htext, hwhole, hfraction, hdenotes⟩ :=
    positional_spec (shortestDigits m k).1 (shortestDigits m k).2
  refine ⟨whole, fraction, ?_, hwhole, hfraction, ?_⟩
  · unfold floatText
    rw [hparts]
    simpa [sign] using htext
  · have hpattern := hdenotes (shortestDigits_denotes hm hk hnormal)
    have hlength : 0 < fraction.length := List.length_pos_iff.mpr hfraction.1
    unfold toFloat
    rw [if_neg (by omega), Int.neg_neg, Int.toNat_natCast, nearest, hpattern, ← hbits,
      UInt64.ofNat_toNat, ofBits_toBits]

end Offside.Decimal
