import Mathlib.Data.Int.Range
import Offside.Evaluation.Builtin
import Offside.Proofs.Value.Number

/-!
# Sequences that operations build

Sums, products and ranges give the whole sequence or refuse it for its length, which is told before
the sequence is built.
-/

namespace Offside

namespace Value

open Store

/-- The run makes a list of the items, unless these are too many. -/
structure GivesList (r : Run Value) (s : Store) (length : Nat) (items : List Value) : Prop where
  counted : items.length = length
  given : length ≤ 2 ^ 24 →
    r s = .done (.list ⟨s.lists.size⟩) { s with lists := s.lists.push items.toArray }
  refused : 2 ^ 24 < length → r s = .failed .sequenceTooLong s

/-- The run gives the text, unless this has too many bytes. -/
structure GivesString (r : Run Value) (s : Store) (length : Nat) (text : String) : Prop where
  counted : text.utf8ByteSize = length
  given : length ≤ 2 ^ 24 → r s = .done (.string text) s
  refused : 2 ^ 24 < length → r s = .failed .sequenceTooLong s

/-- The product refuses a negative number of times and is what is said for any other one. The order
of its operands does not matter. -/
structure Repeats (v : Value) (n : Int64) (s : Store) (Gives : Run Value → Nat → Prop) : Prop where
  negative : n.toInt < 0 → arithmetic .multiply v (.integer n) s = .failed (.negativeRepeat n) s
  times : ∀ count : Nat, n.toInt = count → Gives (arithmetic .multiply v (.integer n)) count
  swapped : arithmetic .multiply (.integer n) v = arithmetic .multiply v (.integer n)

section Building

variable {s : Store} {length : Nat}

/-! ## The length comes first -/

theorem givesList_of_checked {r : Run Value} {items : Array Value}
    (hr : r s = (do Run.ofExcept (checkLength length); newList items) s)
    (hcounted : items.size = length) : GivesList r s length items.toList := by
  refine ⟨by simpa using hcounted, fun hle => ?_, fun hlt => ?_⟩
  · have hcheck : checkLength length = .ok () := if_pos hle
    rw [hr, hcheck]
    rfl
  · have hcheck : checkLength length = .error .sequenceTooLong := if_neg (Nat.not_le.mpr hlt)
    rw [hr, hcheck]
    rfl

theorem givesString_of_checked {r : Run Value} {text : String}
    (hr : r s = (do Run.ofExcept (checkLength length); return .string text : Run Value) s)
    (hcounted : text.utf8ByteSize = length) : GivesString r s length text := by
  refine ⟨hcounted, fun hle => ?_, fun hlt => ?_⟩
  · have hcheck : checkLength length = .ok () := if_pos hle
    rw [hr, hcheck]
    rfl
  · have hcheck : checkLength length = .error .sequenceTooLong := if_neg (Nat.not_le.mpr hlt)
    rw [hr, hcheck]
    rfl

/-! ## Sums -/

theorem add_lists (a b : ListId) : GivesList (arithmetic .add (.list a) (.list b)) s
    ((s.list a).size + (s.list b).size) ((s.list a).toList ++ (s.list b).toList) := by
  rw [← Array.toList_append]
  exact givesList_of_checked rfl Array.size_append

theorem add_strings (x y : String) : GivesString (arithmetic .add (.string x) (.string y)) s
    (x.utf8ByteSize + y.utf8ByteSize) (x ++ y) := by
  refine givesString_of_checked ?_ String.utf8ByteSize_append
  show Run.ofExcept (do checkLength (x.utf8ByteSize + y.utf8ByteSize); return _) s = _
  cases checkLength (x.utf8ByteSize + y.utf8ByteSize) <;> rfl

/-! ## Products -/

theorem repeatCount_of_nonneg {n : Int64} {count : Nat} (h : n.toInt = count) :
    repeatCount n = .ok count := by
  unfold repeatCount
  rw [h, if_pos (by omega), Int.toNat_natCast]

theorem repeatCount_of_neg {n : Int64} (h : n.toInt < 0) :
    repeatCount n = .error (.negativeRepeat n) := if_neg (by omega)

theorem toList_cycled (items : Array Value) (count : Nat) :
    (cycled items count).toList = (List.replicate count items.toList).flatten := by
  induction count with
  | zero => rfl
  | succ count ih =>
    have hsucc : cycled items (count + 1) = cycled items count ++ items := rfl
    rw [hsucc, Array.toList_append, ih, List.replicate_succ', List.flatten_append]
    simp

theorem repeated_eq_join (text : String) (count : Nat) :
    repeated text count = String.join (List.replicate count text) := by
  induction count with
  | zero => rfl
  | succ count ih =>
    have hsucc : repeated text (count + 1) = repeated text count ++ text := rfl
    apply String.toList_inj.mp
    rw [hsucc, ih, List.replicate_succ']
    simp

theorem utf8ByteSize_repeated (text : String) (count : Nat) :
    (repeated text count).utf8ByteSize = text.utf8ByteSize * count := by
  induction count with
  | zero => rfl
  | succ count ih =>
    have hsucc : repeated text (count + 1) = repeated text count ++ text := rfl
    rw [hsucc, String.utf8ByteSize_append, ih, Nat.mul_succ]

theorem list_repeats (a : ListId) (n : Int64) : Repeats (.list a) n s fun r count =>
    GivesList r s ((s.list a).size * count) (List.replicate count (s.list a).toList).flatten := by
  refine ⟨fun hneg => ?_, fun count hcount => ?_, rfl⟩
  · show repeatList a n s = _
    unfold repeatList
    rw [repeatCount_of_neg hneg]
    rfl
  · have hcycled : (if (s.list a).isEmpty then s.list a else cycled (s.list a) count).toList =
        (List.replicate count (s.list a).toList).flatten := by
      split
      · rename_i hempty
        rw [Array.isEmpty_iff.mp hempty]
        simp
      · exact toList_cycled _ _
    rw [← hcycled]
    apply givesList_of_checked
    · show repeatList a n s = _
      unfold repeatList
      rw [repeatCount_of_nonneg hcount]
      rfl
    · rw [← Array.length_toList, hcycled]
      simp [List.length_flatten, Nat.mul_comm]

theorem string_repeats (text : String) (n : Int64) : Repeats (.string text) n s fun r count =>
    GivesString r s (text.utf8ByteSize * count) (String.join (List.replicate count text)) := by
  refine ⟨fun hneg => ?_, fun count hcount => ?_, rfl⟩
  · show Run.ofExcept (repeatString text n) s = _
    unfold repeatString
    rw [repeatCount_of_neg hneg]
    rfl
  · have hrepeated : (if text.isEmpty then text else repeated text count) =
        String.join (List.replicate count text) := by
      rw [repeated_eq_join]
      split
      · rename_i hempty
        rw [String.isEmpty_iff.mp hempty]
        apply String.toList_inj.mp
        simp
      · rfl
    apply givesString_of_checked
    · show Run.ofExcept (repeatString text n) s = _
      unfold repeatString
      rw [repeatCount_of_nonneg hcount, ← hrepeated]
      show Run.ofExcept (do
        checkLength (text.utf8ByteSize * count)
        if text.isEmpty then return string text else return string (repeated text count)) s = _
      split <;> cases checkLength (text.utf8ByteSize * count) <;> rfl
    · rw [← repeated_eq_join, utf8ByteSize_repeated]

/-! ## Ranges -/

theorem integersBetween_eq_map (a b : Int64) : ∃ ns : List Int64,
    ns.map Int64.toInt = Int.range a.toInt b.toInt ∧
      Action.integersBetween a.toInt b.toInt = ns.map .integer := by
  refine ⟨(Int.range a.toInt b.toInt).map Int64.ofInt, ?_, ?_⟩
  · rw [List.map_map]
    refine (List.map_congr_left fun i hi => ?_).trans (List.map_id _)
    obtain ⟨hlow, hhigh⟩ := Int.mem_range_iff.mp hi
    have ha := a.le_toInt
    have hb := b.toInt_lt
    exact Int64.toInt_ofInt_of_le (by omega) (by omega)
  · simp [Action.integersBetween, Int.range, Function.comp_def]

theorem range_of_bounds (a b : Int64) : GivesList (Action.call .range [.integer a, .integer b] []) s
    (b.toInt - a.toInt).toNat (Action.integersBetween a.toInt b.toInt) := by
  show GivesList _ s _ (Action.integersBetween a.toInt b.toInt).toArray.toList
  exact givesList_of_checked rfl (by simp [Action.integersBetween])

end Building

/-- Sums, products and ranges give the exact sequence, a list always as a new one, if it has no more
than `2 ^ 24` elements or bytes. If it has more, they refuse it, and nothing is changed. -/
theorem sequences_bounded (s : Store) :
    (∀ a b, GivesList (arithmetic .add (.list a) (.list b)) s
      ((s.list a).size + (s.list b).size) ((s.list a).toList ++ (s.list b).toList)) ∧
    (∀ x y, GivesString (arithmetic .add (.string x) (.string y)) s
      (x.utf8ByteSize + y.utf8ByteSize) (x ++ y)) ∧
    (∀ a n, Repeats (.list a) n s fun r count => GivesList r s
      ((s.list a).size * count) (List.replicate count (s.list a).toList).flatten) ∧
    (∀ x n, Repeats (.string x) n s fun r count => GivesString r s
      (x.utf8ByteSize * count) (String.join (List.replicate count x))) ∧
    (∀ a b : Int64, ∃ ns : List Int64, ns.map Int64.toInt = Int.range a.toInt b.toInt ∧
      GivesList (Action.call .range [.integer a, .integer b] []) s
        (b.toInt - a.toInt).toNat (ns.map .integer)) ∧
    ∀ b : Int64, ∃ ns : List Int64, ns.map Int64.toInt = Int.range 0 b.toInt ∧
      GivesList (Action.call .range [.integer b] []) s b.toInt.toNat (ns.map .integer) := by
  refine ⟨add_lists, add_strings, list_repeats, string_repeats, fun a b => ?_, fun b => ?_⟩
  · obtain ⟨ns, hns, hitems⟩ := integersBetween_eq_map a b
    exact ⟨ns, hns, hitems ▸ range_of_bounds a b⟩
  · obtain ⟨ns, hns, hitems⟩ := integersBetween_eq_map 0 b
    have hrange := range_of_bounds (s := s) 0 b
    rw [hitems, Int64.toInt_zero, Int.sub_zero] at hrange
    exact ⟨ns, hns, hrange⟩

end Value

end Offside
