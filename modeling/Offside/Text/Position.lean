import Offside.Text.Bytes

/-!
# Positions in a text

Lines and columns count from one, and a column counts bytes of the encoding, so that a position
can be found again in the file.
-/

namespace Offside.Text

structure Position where
  line : Nat
  column : Nat
deriving DecidableEq, Repr

namespace Position

def start : Position := ⟨1, 1⟩

/-- The position after a character that stands at `p`. -/
def step (p : Position) (c : Char) : Position :=
  if c = '\n' then ⟨p.line + 1, 1⟩ else ⟨p.line, p.column + c.utf8Size⟩

/-- The position after a text that starts at `p`. -/
def advance (p : Position) (text : List Char) : Position := text.foldl step p

@[simp] theorem advance_nil (p : Position) : p.advance [] = p := rfl

@[simp] theorem advance_cons (p : Position) (c : Char) (text : List Char) :
    p.advance (c :: text) = (p.step c).advance text := rfl

theorem advance_append (p : Position) (a b : List Char) :
    p.advance (a ++ b) = (p.advance a).advance b := by
  simp [advance, List.foldl_append]

theorem advance_of_notMem {text : List Char} (h : '\n' ∉ text) (p : Position) :
    p.advance text = ⟨p.line, p.column + byteSize text⟩ := by
  induction text generalizing p with
  | nil => rfl
  | cons c text ih =>
    rw [List.mem_cons, not_or] at h
    rw [advance_cons, ih h.2, step, if_neg (Ne.symm h.1), byteSize_cons, Nat.add_assoc]

/-- The column counts from the last line end on. -/
theorem advance_newline {b : List Char} (h : '\n' ∉ b) (p : Position) (a : List Char) :
    p.advance (a ++ '\n' :: b) = ⟨p.line + a.count '\n' + 1, byteSize b + 1⟩ := by
  induction a generalizing p with
  | nil =>
    rw [List.nil_append, advance_cons, advance_of_notMem h, step, if_pos rfl, Nat.add_comm 1]
    rfl
  | cons c a ih =>
    rw [List.cons_append, advance_cons, ih, List.count_cons]
    unfold step
    split
    · rename_i hc
      subst hc
      simp
      omega
    · rename_i hc
      simp [hc]

def text (p : Position) : String := toString p.line ++ ":" ++ toString p.column

end Position

end Offside.Text
