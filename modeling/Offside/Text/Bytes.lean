/-!
# Bytes of a text

Lengths, cuts and places in a text, counted in bytes of its encoding. A text can only be cut between
two characters.
-/

namespace Offside.Text

variable {c : Char} {text a b : List Char} {n : Nat}

/-! ## Lengths -/

def byteSize (text : List Char) : Nat := text.foldl (fun n c => n + c.utf8Size) 0

@[simp] theorem byteSize_nil : byteSize [] = 0 := rfl

theorem foldl_utf8Size (text : List Char) (n : Nat) :
    text.foldl (fun n c => n + c.utf8Size) n = n + byteSize text := by
  induction text generalizing n with
  | nil => rfl
  | cons c text ih =>
    unfold byteSize
    rw [List.foldl_cons, List.foldl_cons, ih, ih (0 + _), Nat.zero_add, Nat.add_assoc]

@[simp] theorem byteSize_cons : byteSize (c :: text) = c.utf8Size + byteSize text := by
  rw [byteSize, List.foldl_cons, foldl_utf8Size, Nat.zero_add]

@[simp] theorem byteSize_append : byteSize (a ++ b) = byteSize a + byteSize b := by
  rw [byteSize, List.foldl_append, foldl_utf8Size]
  rfl

theorem byteSize_drop_le (text : List Char) (n : Nat) : byteSize (text.drop n) ≤ byteSize text := by
  have h : byteSize (text.take n ++ text.drop n) = _ := byteSize_append
  rw [List.take_append_drop] at h
  omega

theorem byteSize_pos (h : text ≠ []) : 0 < byteSize text := by
  cases text with
  | nil => exact absurd rfl h
  | cons c text =>
    have := c.utf8Size_pos
    simp
    omega

theorem byteSize_eq_length (h : ∀ c ∈ text, c.utf8Size = 1) : byteSize text = text.length := by
  induction text with
  | nil => rfl
  | cons c text ih =>
    rw [byteSize_cons, h c List.mem_cons_self, ih fun d hd => h d (List.mem_cons_of_mem c hd),
      List.length_cons, Nat.add_comm]

/-! ## Cuts -/

/-- Cuts a text after its first `n` bytes. There is no such place within a character or behind the
end. -/
def cut? : List Char → Nat → Option (List Char × List Char)
  | text, 0 => some ([], text)
  | [], _ + 1 => none
  | c :: text, n + 1 =>
    if c.utf8Size ≤ n + 1 then
      (cut? text (n + 1 - c.utf8Size)).map fun (a, b) => (c :: a, b)
    else none

theorem cut?_append (a b : List Char) : cut? (a ++ b) (byteSize a) = some (a, b) := by
  induction a with
  | nil => simp [cut?]
  | cons c a ih =>
    obtain ⟨n, hn⟩ : ∃ n, byteSize (c :: a) = n + 1 :=
      Nat.exists_eq_add_one.mpr (byteSize_pos (List.cons_ne_nil c a))
    have hrest : n + 1 - c.utf8Size = byteSize a := by
      rw [← hn, byteSize_cons, Nat.add_sub_cancel_left]
    have hle : c.utf8Size ≤ n + 1 := by
      rw [← hn, byteSize_cons]
      exact Nat.le_add_right _ _
    rw [hn, List.cons_append, cut?, if_pos hle, hrest, ih]
    rfl

theorem cut?_takeWhile (p : Char → Bool) (text : List Char) :
    cut? text (byteSize (text.takeWhile p)) = some (text.takeWhile p, text.dropWhile p) := by
  have h := cut?_append (text.takeWhile p) (text.dropWhile p)
  rwa [List.takeWhile_append_dropWhile] at h

theorem cut?_eq_some (h : cut? text n = some (a, b)) : text = a ++ b ∧ byteSize a = n := by
  induction text generalizing n a b with
  | nil =>
    cases n with
    | zero =>
      cases h
      exact ⟨rfl, rfl⟩
    | succ n => cases h
  | cons c text ih =>
    cases n with
    | zero =>
      cases h
      exact ⟨rfl, rfl⟩
    | succ n =>
      unfold cut? at h
      split at h
      · obtain ⟨⟨a', b'⟩, hcut, hpair⟩ := Option.map_eq_some_iff.mp h
        cases hpair
        obtain ⟨rfl, hsize⟩ := ih hcut
        refine ⟨rfl, ?_⟩
        rw [byteSize_cons]
        omega
      · cases h

/-! ## Places of a character -/

/-- How many bytes stand before the first `c`. -/
def find? (c : Char) : List Char → Option Nat
  | [] => none
  | d :: text => if d = c then some 0 else (find? c text).map (d.utf8Size + ·)

/-- How many bytes stand before the last `c`. -/
def findLast? (c : Char) : List Char → Option Nat
  | [] => none
  | d :: text =>
    match findLast? c text with
    | some n => some (d.utf8Size + n)
    | none => if d = c then some 0 else none

theorem find?_append (h : c ∉ a) (b : List Char) : find? c (a ++ c :: b) = some (byteSize a) := by
  induction a with
  | nil => simp [find?]
  | cons d a ih =>
    rw [List.mem_cons, not_or] at h
    simp [find?, Ne.symm h.1, ih h.2]

theorem exists_last (h : c ∈ text) : ∃ a b, text = a ++ c :: b ∧ c ∉ b := by
  induction text with
  | nil => cases h
  | cons d text ih =>
    by_cases hc : c ∈ text
    · obtain ⟨a, b, rfl, hb⟩ := ih hc
      exact ⟨d :: a, b, rfl, hb⟩
    · obtain rfl | h := List.mem_cons.mp h
      · exact ⟨[], text, rfl, hc⟩
      · exact absurd h hc

theorem find?_eq_none (h : c ∉ text) : find? c text = none := by
  induction text with
  | nil => rfl
  | cons d text ih =>
    rw [List.mem_cons, not_or] at h
    simp [find?, Ne.symm h.1, ih h.2]

theorem findLast?_eq_none (h : c ∉ text) : findLast? c text = none := by
  induction text with
  | nil => rfl
  | cons d text ih =>
    rw [List.mem_cons, not_or] at h
    simp [findLast?, Ne.symm h.1, ih h.2]

theorem findLast?_append (h : c ∉ b) (a : List Char) :
    findLast? c (a ++ c :: b) = some (byteSize a) := by
  induction a with
  | nil => simp [findLast?, findLast?_eq_none h]
  | cons d a ih => simp [findLast?, ih]

end Offside.Text
