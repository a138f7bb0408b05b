import Offside.Proofs.Token.Bookkeeping

/-!
# Lexers and cursors make progress

A step takes a byte of the text, or else it leaves the start of a line that begins with no spaces,
and the next step takes one. So the steps come to an end: at the end of the text, or at a place
where a step fails.
-/

namespace Offside

/-! ## Steps of the loop -/

namespace Lexer

open Text (byteSize byteSize_append)

variable {s mid s' : Lexer × Bool}

/-- Bytes are taken from the front, at least one. At the start of a line none may be taken, and then
it is its start no longer. -/
def MovesOn (s s' : Lexer × Bool) : Prop :=
  ∃ n, s.1.Takes n s'.1 ∧ (0 < n ∨ s.2 = true ∧ s'.2 = false)

theorem StepsTo.movesOn (h : StepsTo s s') : MovesOn s s' := by
  obtain ⟨first, tail, hrest, hstep⟩ := h
  exact takes_step hrest hstep

theorem Takes.byteSize_eq {t next : Lexer} {n : Nat} (h : t.Takes n next) :
    byteSize t.rest = n + byteSize next.rest := by
  obtain ⟨lexeme, hrest, rfl⟩ := h
  rw [hrest, byteSize_append]

/-- Of two steps in a row one takes a byte. -/
theorem byteSize_lt_of_twice (h : StepsTo s mid) (h' : StepsTo mid s') :
    byteSize s'.1.rest < byteSize s.1.rest := by
  obtain ⟨m, htakes, hm⟩ := h.movesOn
  obtain ⟨n, htakes', hn⟩ := h'.movesOn
  have hsize := htakes.byteSize_eq
  have hsize' := htakes'.byteSize_eq
  have hpos : 0 < m + n := by
    obtain hm | ⟨-, hinside⟩ := hm
    · omega
    obtain hn | ⟨hstart, -⟩ := hn
    · omega
    · rw [hinside] at hstart
      cases hstart
  omega

end Lexer

namespace Cursor

variable {c next mid last : Cursor} {first : Char} {tail : List Char} {ts : List Token} {n : Nat}

/-! ## Single steps -/

/-- The cursor does not stand at the end of the text, and a step leads from it to the other one. -/
def StepsTo (c next : Cursor) : Prop :=
  ∃ first tail ts, c.rest = first :: tail ∧ c.step first tail = .ok (ts, next)

/-- The bytes still to read. -/
def bytes (c : Cursor) : Nat := (String.ofList c.rest).utf8ByteSize

/-- Bytes are taken from the front, at least one. At the start of a line none may be taken, and then
it is its start no longer. -/
def MovesOn (c next : Cursor) : Prop :=
  next.rest <:+ c.rest ∧
    (next.bytes < c.bytes ∨
      next.rest = c.rest ∧ c.atLineStart = true ∧ next.atLineStart = false)

theorem bytes_lt {lexeme : List Char} (hrest : c.rest = lexeme ++ next.rest) (hne : lexeme ≠ []) :
    next.bytes < c.bytes := by
  have hpos : (String.ofList lexeme).utf8ByteSize ≠ 0 := by
    rwa [Ne, String.utf8ByteSize_eq_zero_iff, String.ofList_eq_empty_iff]
  unfold bytes
  rw [hrest, String.ofList_append, String.utf8ByteSize_append]
  omega

theorem StepsTo.movesOn (h : c.StepsTo next) : c.MovesOn next := by
  obtain ⟨first, tail, ts, hrest, hstep⟩ := h
  obtain ⟨lexeme, hpasses⟩ := passes_of_moves hrest (moves_of_step hstep)
  refine ⟨⟨lexeme, hpasses.rest.symm⟩, ?_⟩
  cases lexeme with
  | cons d lexeme => exact Or.inl (bytes_lt hpasses.rest (List.cons_ne_nil d lexeme))
  | nil =>
    -- what is left to read has not changed, so it is the start of the line that has
    have hsame : c.rest = next.rest := hpasses.rest
    have hlt := step_remaining_lt hrest hstep
    unfold remaining at hlt
    rw [hsame] at hlt
    refine Or.inr ⟨hsame.symm, ?_⟩
    cases hc : c.atLineStart with
    | true =>
      refine ⟨rfl, Bool.eq_false_iff.mpr fun hnext => ?_⟩
      rw [hc, hnext] at hlt
      exact Nat.lt_irrefl _ hlt
    | false =>
      rw [hc, Bool.toNat_false] at hlt
      omega

/-- Of two steps in a row one takes a byte. -/
theorem bytes_lt_of_twice (h : c.StepsTo mid) (h' : mid.StepsTo next) : next.bytes < c.bytes := by
  obtain ⟨-, hlt | ⟨hsame, -, hinside⟩⟩ := h.movesOn
  · obtain ⟨-, hlt' | ⟨hsame', -, -⟩⟩ := h'.movesOn
    · omega
    · rwa [bytes, hsame']
  · obtain ⟨-, hlt' | ⟨-, hstart, -⟩⟩ := h'.movesOn
    · unfold bytes at hlt' ⊢
      rwa [hsame] at hlt'
    · rw [hinside] at hstart
      cases hstart

/-! ## Runs -/

/-- The cursor gets to the other one by `n` whole steps, with these tokens. -/
inductive Iterates : Nat → Cursor → List Token → Cursor → Prop where
  | refl (c : Cursor) : Iterates 0 c [] c
  | step {n : Nat} {c mid last : Cursor} {first : Char} {tail : List Char} {ts us : List Token} :
    c.rest = first :: tail → c.step first tail = .ok (ts, mid) → Iterates n mid us last →
    Iterates (n + 1) c (ts ++ us) last

theorem Iterates.scans (h : Iterates n c ts last) : c.Scans ts last := by
  induction h with
  | refl c => exact .refl c
  | step hrest hstep _ ih => exact .step hrest hstep ih

theorem Iterates.remaining_le (h : Iterates n c ts last) : n + last.remaining ≤ c.remaining := by
  induction h with
  | refl c => omega
  | step hrest hstep _ ih =>
    have hlt := step_remaining_lt hrest hstep
    omega

/-- No step is possible: the text ends and its last tokens are found, or a step fails. -/
inductive Stops (c : Cursor) : Except LexicalError (List Token) → Prop where
  | finished : c.rest = [] → Stops c (.ok c.closing)
  | failed {first : Char} {tail : List Char} {e : LexicalError} :
    c.rest = first :: tail → c.step first tail = .error e → Stops c (.error e)

/-- Steps go on until none is possible. -/
theorem exists_stop (c : Cursor) :
    ∃ n ts last outcome, Iterates n c ts last ∧ last.Stops outcome := by
  induction hm : c.remaining using Nat.strong_induction_on generalizing c with
  | _ m ih =>
    cases hrest : c.rest with
    | nil => exact ⟨0, [], c, _, .refl c, .finished hrest⟩
    | cons first tail =>
      cases hstep : c.step first tail with
      | error e => exact ⟨0, [], c, _, .refl c, .failed hrest hstep⟩
      | ok reached =>
        obtain ⟨ts, next⟩ := reached
        have hlt := step_remaining_lt hrest hstep
        obtain ⟨n, us, last, outcome, hrun, hstop⟩ := ih _ (hm ▸ hlt) next rfl
        exact ⟨n + 1, ts ++ us, last, outcome, .step hrest hstep hrun, hstop⟩

theorem scan_of_failure {found : Array Token} {e : LexicalError} (h : c.Scans ts last)
    {first : Char} {tail : List Char} (hrest : last.rest = first :: tail)
    (hstep : last.step first tail = .error e) : c.scan found = .error e := by
  rw [h.scan_eq, scan_of_error hrest hstep]

end Cursor

/-- Every text is cut into tokens, or refused, in so many steps. -/
theorem tokens_end (text : String) :
    ∃ n ts last outcome, n ≤ 2 * text.length + 1 ∧
      Cursor.Iterates n (Cursor.ofText text.toList) ts last ∧ last.Stops outcome ∧
      tokens text = outcome.map (ts ++ ·) := by
  obtain ⟨n, ts, last, outcome, hrun, hstop⟩ := (Cursor.ofText text.toList).exists_stop
  refine ⟨n, ts, last, outcome, ?_, hrun, hstop, ?_⟩
  · have hle := hrun.remaining_le
    have hstart : (Cursor.ofText text.toList).remaining = 2 * text.length + 1 := by
      rw [← String.length_toList]
      rfl
    omega
  · rw [tokens_eq_scan]
    cases hstop with
    | finished hend => simp [Cursor.scan_of_scans hrun.scans hend, Except.map]
    | failed hrest hstep => simp [Cursor.scan_of_failure hrun.scans hrest hstep, Except.map]

end Offside
