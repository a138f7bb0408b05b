import Offside.Proofs.Grammar.ExtraLines

/-!
# Programs one after the other

Items followed by items are items. For programs, the layout at the end of the first one has to give
way: of the two line ends there one is of no use, and blocks are closed only where the first line of
the second program stands.
-/

namespace Offside.Grammar

open Terminal (word)

variable {u v w : List Terminal}

theorem items_append {b c : Block} (h : Derives (.items b) u) (h' : Derives (.items c) v) :
    Derives (.items (b ++ c)) (u ++ v) := by
  induction h using Derives.itemsInduction with
  | nil => exact h'
  | line _ _ _ ih => exact .itemsLine ih
  | statement _ _ _ _ hs _ ih =>
    rw [List.append_assoc, List.append_assoc]
    exact .itemsStatement hs ih

/-! ## One line end less -/

theorem items_of_line {b : Block} (h : Derives (.items b) (word .newline :: u)) :
    Derives (.items b) u := by
  generalize hv : word .newline :: u = v at h
  cases h with
  | itemsNil => cases hv
  | itemsLine h =>
    cases hv
    exact h
  | itemsStatement hs _ =>
    obtain ⟨a, v, rfl, ha⟩ := derives_statement hs
    obtain ⟨rfl, -⟩ := List.cons.inj hv
    cases ha

theorem members_of_line {ms : List (Option FunctionDef)}
    (h : Derives (.members ms) (word .newline :: u)) : Derives (.members ms) u := by
  generalize hv : word .newline :: u = v at h
  cases h with
  | membersNil => cases hv
  | membersLine h =>
    cases hv
    exact h
  | membersPass => cases hv
  | membersMethod hf =>
    cases hf
    cases hv

theorem items_of_lines {b : Block} {n : Nat}
    (h : Derives (.items b) (List.replicate n (word .newline) ++ u)) : Derives (.items b) u := by
  induction n with
  | zero => exact h
  | succ n ih => exact ih (items_of_line h)

def SparesLine (u w : List Terminal) : Prop := u = word .newline :: w

theorem sparesLine_behindLine : BehindLine SparesLine where
  ne_nil := nofun
  ne_indent := nofun
  append := by
    rintro a u v w h
    obtain ⟨rfl, rfl⟩ := List.cons.inj h
    exact ⟨u, rfl, rfl⟩
  last ha h := absurd (List.cons.inj h).1 ha
  items := by
    rintro b u w rfl h
    exact items_of_line h
  members := by
    rintro ms u w rfl h
    exact members_of_line h

/-- Of two line ends one is enough. -/
theorem program_spare {p : Program}
    (h : Derives (.program p) (u ++ word .newline :: word .newline :: v)) :
    Derives (.program p) (u ++ word .newline :: v) := by
  have hline : Reline SparesLine (u ++ word .newline :: word .newline :: v)
      (u ++ word .newline :: v) := by
    clear h
    induction u with
    | nil => exact .here rfl
    | cons a u ih => exact .there ih
  exact derives_reline sparesLine_behindLine h trivial hline

/-! ## Before the first item -/

/-- What comes first, but for line ends, is no indent. -/
def Unindented (u : List Terminal) : Prop :=
  ∀ lines v, u ≠ List.replicate lines (word .newline) ++ word .indent :: v

theorem Unindented.of_lines {n : Nat} (h : Unindented (List.replicate n (word .newline) ++ u)) :
    Unindented u := by
  rintro lines v rfl
  refine h (n + lines) v ?_
  rw [List.replicate_add, List.append_assoc]

theorem not_headed_first (n : Nat) (v : List Terminal) :
    ¬ Headed (word .newline) (word .newline)
      (List.replicate n (word .newline) ++ word .indent :: v) := by
  intro h
  induction n with
  | zero => exact absurd (h.1 rfl).1 (by decide)
  | succ n ih => exact ih h.2

theorem unindented_of_program {p : Program} (h : Derives (.program p) u) : Unindented u := by
  rintro lines v rfl
  exact not_headed_first lines v
    (derives_headed h trivial (word .newline) (word .newline) nofun)

/-! ## Two programs -/

theorem items_of_program {p : Program} (h : Derives (.program p) (u ++ [word .endOfFile])) :
    Derives (.items p) u := by
  generalize hv : u ++ [word .endOfFile] = v at h
  cases h with
  | program h =>
    obtain ⟨rfl, -⟩ := List.append_inj' hv rfl
    exact h

theorem program_lines {p : Program} (n : Nat) (h : Derives (.program p) (u ++ word .newline :: v))
    (hv : v.head? ≠ some (word .indent)) :
    Derives (.program p) (u ++ word .newline :: List.replicate n (word .newline) ++ v) := by
  induction n with
  | zero => simpa using h
  | succ n ih =>
    cases n with
    | zero => simpa using (program_newline h).1 hv
    | succ n =>
      rw [List.append_assoc, List.cons_append] at ih ⊢
      exact (program_newline ih).1 nofun

/-- The second program may follow, with all dedents of the first one behind the line ends that it
begins with. -/
theorem program_append {p q : Program} {dedents lines : Nat}
    (hp : Derives (.program p) (u ++ word .newline :: word .newline ::
      (List.replicate dedents (word .dedent) ++ [word .endOfFile])))
    (hq : Derives (.program q) (List.replicate lines (word .newline) ++ v ++ [word .endOfFile])) :
    Derives (.program (p ++ q)) (u ++ word .newline :: List.replicate lines (word .newline) ++
      List.replicate dedents (word .dedent) ++ v ++ [word .endOfFile]) := by
  have hhead : (List.replicate dedents (word .dedent) ++ [word .endOfFile]).head? ≠
      some (word .indent) := by
    cases dedents <;> nofun
  have hfirst := program_lines lines (program_spare hp) hhead
  rw [← List.append_assoc] at hfirst
  exact .program (items_append (items_of_program hfirst) (items_of_lines (items_of_program hq)))

end Offside.Grammar
