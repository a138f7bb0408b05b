import Mathlib.Data.List.DropRight
import Mathlib.Logic.Relation
import Offside.Proofs.Token.Steps

/-!
# The bookkeeping of the lexer

At the head of its loop the lexer stands where a cursor gets to by whole steps. So the line and the
place where it begins are those of the text that has been read, and the column is never counted from
behind the lexer.
-/

namespace Offside

/-! ## Lines and columns -/

namespace Text.Position

/-- The position after a text that begins a file. The column counts the bytes since the last line
end. -/
def after (text : List Char) : Position where
  line := 1 + text.count '\n'
  column := 1 + (String.ofList (text.rtakeWhile (· != '\n'))).utf8ByteSize

theorem step_after (text : List Char) (c : Char) : (after text).step c = after (text ++ [c]) := by
  unfold step after
  by_cases hc : c = '\n'
  · simp [hc]
    omega
  · simp [hc, List.count_append]
    omega

theorem advance_after (text lexeme : List Char) :
    (after text).advance lexeme = after (text ++ lexeme) := by
  induction lexeme generalizing text with
  | nil => simp
  | cons c lexeme ih => rw [advance_cons, step_after, ih, List.append_assoc, List.singleton_append]

end Text.Position

open Text

theorem Text.byteSize_eq_utf8ByteSize (text : List Char) :
    byteSize text = (String.ofList text).utf8ByteSize := by
  induction text with
  | nil => rfl
  | cons c text ih => simp [ih, String.ofList_cons]

/-! ## The head of the loop -/

namespace Lexer

variable {t : Lexer} {atLineStart : Bool} {s : Lexer × Bool} {text : List Char}

/-- The text does not end at the place of the lexer, and a step leads from it to the other one. With
each lexer stands whether it is at the start of a line. -/
def StepsTo (s s' : Lexer × Bool) : Prop :=
  ∃ first tail, s.1.rest = first :: tail ∧ s.1.step s.2 first = .ok s'

/-- The lexer of the text comes to the head of its loop in this state. -/
def Reaches (text : List Char) : Lexer × Bool → Prop :=
  Relation.ReflTransGen StepsTo (ofText text, true)

/-- The lexer has read `before` of the text, and knows the line and where it begins. -/
structure Tracks (t : Lexer) (text before : List Char) : Prop where
  whole : t.text = text
  rest : text = before ++ t.rest
  offset : t.offset = .ok (byteSize before)
  line : t.line = 1 + before.count '\n'
  lineStart : t.lineStart = byteSize (before.rdropWhile (· != '\n'))
  span : t.span = .ok (.after before)

theorem Reaches.scans (h : Reaches text s) :
    s.1.text = text ∧ s.1.Bounded ∧
      (Cursor.ofText text).Scans s.1.found.toList (s.1.cursor s.2) := by
  induction h with
  | refl => exact ⟨rfl, bounded_ofText text, cursor_ofText text ▸ .refl _⟩
  | @tail mid last _ hstep ih =>
    obtain ⟨htext, hbounded, hscans⟩ := ih
    obtain ⟨first, tail, hrest, hstep⟩ := hstep
    obtain ⟨ts, hscan, hkept, hbounded', hfound⟩ := step_eq_ok hbounded hrest hstep
    refine ⟨hkept.trans htext, hbounded', ?_⟩
    have hlast := hscans.trans (.step hrest hscan (.refl _))
    rwa [List.append_nil, ← Array.toList_appendList, ← hfound] at hlast

theorem Reaches.tracks (h : Reaches text s) : ∃ before, s.1.Tracks text before := by
  obtain ⟨htext, hbounded, hscans⟩ := h.scans
  obtain ⟨before, hrest, hmoved⟩ := hscans.passes
  have hsplit : text = before ++ s.1.rest := hrest
  have hafter : s.1.position = .after before := hmoved.trans (Position.advance_after [] before)
  have hread : byteSize s.1.text - byteSize s.1.rest = byteSize before := by
    rw [htext, hsplit, byteSize_append, Nat.add_sub_cancel]
  refine ⟨before, htext, hsplit, hread ▸ offset_eq hbounded, congrArg Position.line hafter, ?_,
    hafter ▸ span_eq hbounded⟩
  have hcolumn : byteSize s.1.text - byteSize s.1.rest - s.1.lineStart + 1 =
      1 + byteSize (before.rtakeWhile (· != '\n')) := by
    rw [byteSize_eq_utf8ByteSize (before.rtakeWhile _)]
    exact congrArg Position.column hafter
  have hline : byteSize before = byteSize (before.rdropWhile (· != '\n')) +
      byteSize (before.rtakeWhile (· != '\n')) := by
    rw [← byteSize_append, List.rdropWhile_append_rtakeWhile]
  unfold Bounded at hbounded
  omega

theorem loop_reaches {last : Lexer} (h : t.loop atLineStart = .ok last) :
    ∃ now, Relation.ReflTransGen StepsTo (t, atLineStart) (last, now) ∧ last.rest = [] := by
  fun_induction loop t atLineStart with
  | case1 t b hrest =>
    cases h
    exact ⟨b, .refl, hrest⟩
  | case2 t b first tail hrest e hstep => cases h
  | case3 t b first tail hrest next b' hstep ih =>
    obtain ⟨now, hreaches, hend⟩ := ih h
    exact ⟨now, .head ⟨first, tail, hrest, hstep⟩ hreaches, hend⟩

/-- A run goes through the head of the loop to the end of the text. -/
theorem run_reaches {closed : Lexer} (h : run text = .ok closed) :
    ∃ last now, Reaches text (last, now) ∧ last.rest = [] ∧ last.close = .ok closed := by
  obtain ⟨last, hloop, hclose⟩ := bind_eq_ok.mp h
  obtain ⟨now, hreaches, hend⟩ := loop_reaches hloop
  exact ⟨last, now, hreaches, hend, hclose⟩

end Lexer

/-- The tokens are those that the lexer has found at the end of its run. -/
theorem run_of_tokens {text : String} {ts : List Token} (h : tokens text = .ok ts) :
    ∃ closed, Lexer.run text.toList = .ok closed ∧ closed.found.toList = ts := by
  unfold tokens at h
  split at h
  · rename_i closed hrun
    cases h
    exact ⟨closed, hrun, rfl⟩
  · cases h
  · rename_i hrun
    exact absurd hrun (Lexer.run_ne_outOfBounds text.toList)

end Offside
