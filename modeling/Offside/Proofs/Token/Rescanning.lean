import Offside.Proofs.Token.Lexemes
import Offside.Proofs.Token.Locality

/-!
# Lexemes on their own

The longest lexeme at the start of a text is also the longest one of its own characters, and stays
so before a space and at the end of a line.
-/

namespace Offside.Lexeme

open Text
open Decimal (IsDigits)

variable {text : List Char} {kind : TokenKind} {n : Nat}

theorem symbol?_take (h : symbol? text = some (kind, n)) :
    symbol? (text.take n) = some (kind, n) := by
  unfold symbol? at h
  split at h
  iterate 4
    cases h
    rfl
  · split at h <;> cases h <;> rfl
  · cases h

theorem word?_take (h : word? text = some (kind, n)) :
    (∃ c tail, text.take n = c :: tail ∧ isNameStart c = true) ∧
      word? (text.take n) = some (kind, n) := by
  unfold word? at h
  split at h
  · cases h
  rename_i c tail
  split at h
  · rename_i hstart
    cases h
    have hcons := List.takeWhile_cons_of_pos (l := tail) (isNamePart_of_isNameStart c hstart)
    rw [take_length_takeWhile]
    refine ⟨⟨c, _, hcons, hstart⟩, ?_⟩
    unfold word?
    rw [hcons]
    simp only [hstart, if_true]
    rw [← hcons, List.takeWhile_idem]
  · cases h

theorem isDigits_takeWhile (h : (text.takeWhile isAsciiDigit).length ≠ 0) :
    IsDigits (text.takeWhile isAsciiDigit) :=
  ⟨fun hnil => h (congrArg List.length hnil), fun _ hc => List.mem_takeWhile_imp hc⟩

/-- A number is digits, with a point and more digits behind them if it is a float. -/
theorem number?_eq_some (h : number? text = some (kind, n)) :
    (kind = .int ∧ IsDigits (text.take n)) ∨
    ∃ whole fraction, kind = .float ∧ IsDigits whole ∧ IsDigits fraction ∧
      text.take n = whole ++ '.' :: fraction := by
  unfold number? at h
  dsimp only at h
  split at h
  · cases h
  rename_i hwhole
  split at h
  · rename_i rest hrest
    split at h
    · cases h
      rw [take_length_takeWhile]
      exact .inl ⟨rfl, isDigits_takeWhile hwhole⟩
    · rename_i hfraction
      cases h
      refine .inr ⟨_, rest.takeWhile isAsciiDigit, rfl, isDigits_takeWhile hwhole,
        isDigits_takeWhile hfraction, ?_⟩
      rw [Nat.add_assoc, List.take_add, hrest, take_length_takeWhile, Nat.add_comm 1,
        List.take_succ_cons, take_length_takeWhile]
  · cases h
    rw [take_length_takeWhile]
    exact .inl ⟨rfl, isDigits_takeWhile hwhole⟩

theorem number?_take (h : number? text = some (kind, n)) :
    (∃ c tail, text.take n = c :: tail ∧ isAsciiDigit c = true) ∧
      number? (text.take n) = some (kind, n) := by
  have hlength := List.length_take_of_le (length_le_of_number? h)
  obtain ⟨rfl, hdigits⟩ | ⟨whole, fraction, rfl, hwhole, hfraction, htake⟩ := number?_eq_some h
  · obtain ⟨c, hc, hdigit⟩ := hdigits.head
    obtain ⟨tail, hcons⟩ := List.head?_eq_some_iff.mp hc
    refine ⟨⟨c, tail, hcons, hdigit⟩, ?_⟩
    have hnumber := number?_digits hdigits .nil
    rwa [List.append_nil, hlength] at hnumber
  · obtain ⟨c, hc, hdigit⟩ := hwhole.head
    obtain ⟨tail, rfl⟩ := List.head?_eq_some_iff.mp hc
    refine ⟨⟨c, tail ++ '.' :: fraction, htake, hdigit⟩, ?_⟩
    have hnumber := number?_point hwhole hfraction Separates.nil.digit
    rw [List.append_nil, ← htake] at hnumber
    rw [hnumber, ← hlength, htake]
    simp [Nat.add_comm, Nat.add_left_comm]

/-- The longest lexeme is cut off as a whole once more. -/
theorem longest?_take (h : longest? text = some (kind, n)) :
    longest? (text.take n) = some (kind, n) := by
  obtain h | h | h := longest?_eq_some h
  · unfold longest?
    rw [symbol?_take h]
    rfl
  · obtain ⟨⟨c, tail, hcons, hstart⟩, hword⟩ := word?_take h
    unfold longest?
    rw [hword, hcons, symbol?_eq_none (.inl hstart)]
    rfl
  · obtain ⟨⟨c, tail, hcons, hdigit⟩, hnumber⟩ := number?_take h
    unfold longest?
    rw [hnumber, hcons, symbol?_eq_none (.inr hdigit)]
    simp [word?, isNameStart_of_isAsciiDigit hdigit]

end Offside.Lexeme
