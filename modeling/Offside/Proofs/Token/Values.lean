import Offside.Proofs.Token.Lexemes
import Offside.Proofs.Token.Steps

/-!
# The values of tokens

A token of a text has a value that can be written again, unless it is a float literal that is too
large and has become infinite.
-/

namespace Offside

open Decimal (IsPlain)

/-- The value has a source form that is read as the value. -/
def TokenValue.Printable : TokenValue → Prop
  | .none => True
  | .name n => IsName n
  | .int n => 0 ≤ n.toInt
  | .float x => IsPlain x
  | .string text => '"' ∉ text.toList ∨ '\'' ∉ text.toList

def TokenValue.IsInfinite : TokenValue → Prop
  | .float x => Decimal.parts x = .infinite false
  | _ => False

namespace Lexeme

variable {text lexeme : List Char} {kind : TokenKind} {value : TokenValue} {n : Nat}

theorem printable_of_symbol? (h : symbol? text = some (kind, n))
    (hvalue : value? kind lexeme = some value) : value.Printable := by
  unfold symbol? at h
  split at h
  iterate 4
    cases h
    cases hvalue
    trivial
  · split at h
    all_goals cases h
    all_goals
      cases hvalue
      trivial
  · cases h

theorem printable_of_keyword? {word : String} (h : keyword? word = some kind)
    (hvalue : value? kind lexeme = some value) : value.Printable := by
  unfold keyword? at h
  split at h
  all_goals cases h
  all_goals
    cases hvalue
    trivial

theorem isName_takeWhile {c : Char} {rest : List Char} (hstart : Text.isNameStart c = true)
    (hkeyword : keyword? (String.ofList ((c :: rest).takeWhile Text.isNamePart)) = none) :
    IsName (String.ofList ((c :: rest).takeWhile Text.isNamePart)) := by
  have hpart := Text.isNamePart_of_isNameStart c hstart
  have hcons : (c :: rest).takeWhile Text.isNamePart = c :: rest.takeWhile Text.isNamePart :=
    List.takeWhile_cons_of_pos hpart
  have hall : (c :: rest.takeWhile Text.isNamePart).takeWhile Text.isNamePart =
      c :: rest.takeWhile Text.isNamePart := by
    rw [← hcons, List.takeWhile_eq_self_iff]
    exact fun a ha => List.mem_takeWhile_imp ha
  rw [hcons] at hkeyword ⊢
  unfold IsName word?
  rw [String.toList_ofList]
  simp only [hstart, if_true, hall, hkeyword, Option.getD_none]

theorem printable_of_word? (h : word? text = some (kind, n))
    (hvalue : value? kind (text.take n) = some value) : value.Printable := by
  unfold word? at h
  split at h
  · cases h
  rename_i c rest
  split at h
  · rename_i hstart
    cases h
    cases hkeyword : keyword? (String.ofList ((c :: rest).takeWhile Text.isNamePart)) with
    | some kind =>
      rw [hkeyword] at hvalue
      exact printable_of_keyword? hkeyword hvalue
    | none =>
      rw [hkeyword] at hvalue
      cases hvalue
      rw [take_length_takeWhile]
      exact isName_takeWhile hstart hkeyword
  · cases h

theorem kind_of_number? (h : number? text = some (kind, n)) : kind = .int ∨ kind = .float := by
  unfold number? at h
  dsimp only at h
  split at h
  · cases h
  split at h
  · split at h
    · cases h
      exact .inl rfl
    · cases h
      exact .inr rfl
  · cases h
    exact .inl rfl

theorem isPlain_toFloat (digits : Nat) (exponent : Int)
    (h : Decimal.parts (Decimal.toFloat digits exponent) ≠ .infinite false) :
    IsPlain (Decimal.toFloat digits exponent) := by
  unfold Decimal.toFloat at h ⊢
  split
  · rename_i hexponent
    rw [if_pos hexponent] at h
    exact Decimal.isPlain_nearest _ _ h
  · rename_i hexponent
    rw [if_neg hexponent] at h
    exact Decimal.isPlain_nearest _ _ h

theorem printable_of_number? (h : number? text = some (kind, n))
    (hvalue : value? kind lexeme = some value) (hfinite : ¬ value.IsInfinite) :
    value.Printable := by
  obtain rfl | rfl := kind_of_number? h
  · obtain ⟨k, hk, rfl⟩ := Option.map_eq_some_iff.mp hvalue
    show 0 ≤ k.toInt
    rw [toInt_of_integer? hk]
    exact Int.natCast_nonneg _
  · cases hvalue
    exact isPlain_toFloat _ _ hfinite

theorem printable_of_longest? (h : longest? text = some (kind, n))
    (hvalue : value? kind (text.take n) = some value) (hfinite : ¬ value.IsInfinite) :
    value.Printable := by
  obtain h | h | h := longest?_eq_some h
  · exact printable_of_symbol? h hvalue
  · exact printable_of_word? h hvalue
  · exact printable_of_number? h hvalue hfinite

end Lexeme

namespace Cursor

variable {c next last : Cursor} {first : Char} {tail : List Char} {ts : List Token}

theorem Moves.printable (h : c.Moves first tail ts next) {t : Token} (ht : t ∈ ts)
    (hfinite : ¬ t.value.IsInfinite) : t.value.Printable := by
  obtain ⟨⟨hnone, -⟩, -⟩ | ⟨content, -, hvalue, hcontent⟩ | ⟨n, hlongest, hvalue⟩ := h.token_cases ht
  · rw [hnone]
    trivial
  · rw [hvalue]
    show _ ∉ _ ∨ _ ∉ _
    rwa [String.toList_ofList]
  · exact Lexeme.printable_of_longest? hlongest hvalue hfinite

theorem Scans.printable (h : c.Scans ts last) {t : Token} (ht : t ∈ ts)
    (hfinite : ¬ t.value.IsInfinite) : t.value.Printable := by
  induction h with
  | refl => cases ht
  | step _ hstep _ ih =>
    obtain ht | ht := List.mem_append.mp ht
    · exact (moves_of_step hstep).printable ht hfinite
    · exact ih ht

end Cursor

theorem tokens_printable {text : String} {ts : List Token} (h : tokens text = .ok ts) {t : Token}
    (ht : t ∈ ts) (hfinite : ¬ t.value.IsInfinite) : t.value.Printable := by
  obtain ⟨us, last, hscans, -, rfl⟩ := scans_of_tokens h
  obtain ht | ht := List.mem_append.mp ht
  · exact hscans.printable ht hfinite
  · rw [(Cursor.mem_closing ht).1.1]
    trivial

end Offside
