import Offside.Proofs.Bindings.Stability
import Offside.Proofs.Output.Printing

/-!
# A full sink only cuts the run short

With room for only so many bytes a program does what it does with unlimited room, up to the first
write that does not fit. There it stops, having written a part of the same output.
-/

namespace Offside

/-! ## Parts of runs -/

/-- The part ends with this output, if it ends. -/
def Outcome.EndsWith {α : Type} (o : Output) : Outcome α → Prop
  | .done _ s | .failed _ s => s.output = o
  | .outOfFuel => True

/-- How a part ends with unlimited room and with room for so many bytes, after the same text. Where
the first has no end, nothing is said of the second. -/
inductive Outcome.CutShort {α : Type} (text : String) (room : Nat) :
    Outcome α → Outcome α → Prop where
  | done {a : α} {s : Store} {new : String} : new.utf8ByteSize ≤ room →
    CutShort text room (.done a (s.withOutput ⟨text ++ new, none⟩))
      (.done a (s.withOutput ⟨text ++ new, some (room - new.utf8ByteSize)⟩))
  | failed {e : Fault} {s : Store} {new : String} : new.utf8ByteSize ≤ room →
    CutShort text room (.failed e (s.withOutput ⟨text ++ new, none⟩))
      (.failed e (s.withOutput ⟨text ++ new, some (room - new.utf8ByteSize)⟩))
  | full {free : Outcome α} {s : Store} {new rest : String} : new.utf8ByteSize ≤ room →
    free.EndsWith ⟨text ++ new ++ rest, none⟩ → s.output.text = text ++ new →
    CutShort text room free (.failed .sinkFull s)
  | endless {limited : Outcome α} : CutShort text room .outOfFuel limited

/-- What comes later is cut short after what has been written before it. -/
theorem Outcome.CutShort.after {α : Type} {text : String} {room : Nat} {new : String}
    {free limited : Outcome α} (hnew : new.utf8ByteSize ≤ room)
    (h : free.CutShort (text ++ new) (room - new.utf8ByteSize) limited) :
    free.CutShort text room limited := by
  have hsize (later : String) (h : later.utf8ByteSize ≤ room - new.utf8ByteSize) :
      (new ++ later).utf8ByteSize ≤ room ∧
        room - new.utf8ByteSize - later.utf8ByteSize = room - (new ++ later).utf8ByteSize := by
    rw [String.utf8ByteSize_append]
    omega
  cases h with
  | @done a s later hlater =>
    obtain ⟨hle, hroom⟩ := hsize later hlater
    rw [hroom, String.append_assoc]
    exact .done hle
  | @failed e s later hlater =>
    obtain ⟨hle, hroom⟩ := hsize later hlater
    rw [hroom, String.append_assoc]
    exact .failed hle
  | @full _ s later rest hlater hends htext =>
    rw [@String.append_assoc text] at hends htext
    exact .full (hsize later hlater).1 hends htext
  | endless => exact .endless

namespace Run

variable {α β : Type} {r : Run α} {f : α → Run β} {text : String} {room : Nat}

/-- With limited room, the part does the same up to the first write that does not fit. -/
def CutsShort (r : Run α) : Prop :=
  ∀ (s : Store) text room, (r (s.withOutput ⟨text, none⟩)).CutShort text room
    (r (s.withOutput ⟨text, some room⟩))

/-- With unlimited room, output is only added. -/
theorem CutsShort.endsWith (h : r.CutsShort) (s : Store) (text : String) :
    ∃ new, (r (s.withOutput ⟨text, none⟩)).EndsWith ⟨text ++ new, none⟩ := by
  have hcut := h s text 0
  generalize r (s.withOutput ⟨text, none⟩) = free, r (s.withOutput ⟨text, some 0⟩) = limited at hcut
  cases hcut with
  | @done _ _ new _ => exact ⟨new, rfl⟩
  | @failed _ _ new _ => exact ⟨new, rfl⟩
  | @full _ _ new rest _ hends _ => exact ⟨new ++ rest, by rwa [← String.append_assoc]⟩
  | endless => exact ⟨"", trivial⟩

theorem Quiet.cutsShort (h : r.Quiet) : r.CutsShort := by
  intro s text room
  have hdone {a : α} {s' : Store} := @Outcome.CutShort.done α text room a s' "" (Nat.zero_le room)
  have hfailed {e : Fault} {s' : Store} :=
    @Outcome.CutShort.failed α text room e s' "" (Nat.zero_le room)
  rw [String.append_empty] at hdone hfailed
  rw [h, h]
  cases r s with
  | done a s' => exact hdone
  | failed e s' => exact hfailed
  | outOfFuel => exact .endless

theorem write_cutsShort (new : String) : (Store.write new).CutsShort := by
  intro s text room
  have hfree : Store.write new (s.withOutput ⟨text, none⟩) =
      .done () (s.withOutput ⟨text ++ new, none⟩) := rfl
  rw [hfree]
  by_cases hfits : new.utf8ByteSize ≤ room
  · have hlimited : Store.write new (s.withOutput ⟨text, some room⟩) =
        .done () (s.withOutput ⟨text ++ new, some (room - new.utf8ByteSize)⟩) :=
      if_pos (by simpa [Store.withOutput, Output.fits] using hfits)
    rw [hlimited]
    exact .done hfits
  · have hlimited : Store.write new (s.withOutput ⟨text, some room⟩) =
        .failed .sinkFull (s.withOutput ⟨text, some room⟩) :=
      if_neg (by simpa [Store.withOutput, Output.fits] using hfits)
    rw [hlimited]
    have hall : Store.output (s.withOutput ⟨text ++ new, none⟩) = ⟨text ++ "" ++ new, none⟩ := by
      rw [String.append_empty]
      rfl
    have hnothing : "".utf8ByteSize ≤ room := Nat.zero_le room
    exact .full hnothing hall String.append_empty.symm

theorem CutsShort.bind (hr : r.CutsShort) (hf : ∀ a, (f a).CutsShort) : (r >>= f).CutsShort := by
  intro s text room
  have h := hr s text room
  rw [bind_apply, bind_apply]
  generalize r (s.withOutput ⟨text, none⟩) = free, r (s.withOutput ⟨text, some room⟩) = limited at h
  cases h with
  | @done a s new hnew => exact (hf a s _ _).after hnew
  | failed hnew => exact .failed hnew
  | @full _ t new rest hnew hends htext =>
    -- Without the limit the second part may write more.
    cases free with
    | done a s' =>
      obtain ⟨more, hmore⟩ := (hf a).endsWith s' (text ++ new ++ rest)
      have hs' : s'.withOutput ⟨text ++ new ++ rest, none⟩ = s' := by
        rw [← show s'.output = _ from hends]
        rfl
      rw [hs', String.append_assoc] at hmore
      exact .full hnew hmore htext
    | failed e s' => exact .full hnew hends htext
    | outOfFuel => exact .endless
  | endless => exact .endless

theorem Prints.cutsShort (h : r.Prints) : r.CutsShort := by
  induction h with
  | quiet h => exact h.cutsShort
  | write text => exact write_cutsShort text
  | bind _ _ hr hf => exact hr.bind hf

end Run

/-! ## Programs -/

namespace Ending

def mapStore (f : Store → Store) : Ending → Ending
  | finished s => finished (f s)
  | stopped why s => stopped why (f s)
  | outOfFuel => outOfFuel

/-- The fault that the program was stopped by. -/
def fault? : Ending → Option Fault
  | stopped why _ => some why.cause
  | _ => none

end Ending

def Store.withRoom (s : Store) (room : Option Nat) : Store := s.withOutput ⟨s.output.text, room⟩

/-- How a program ends with unlimited room, and with room for so many bytes, after the same text. -/
structure Ending.CutShort (text : String) (room : Nat) (new rest : String)
    (free limited : Ending) : Prop where
  fits : new.utf8ByteSize ≤ room
  freeOutput : free.store?.map Store.output = some ⟨text ++ new ++ rest, none⟩
  limitedText : limited.store?.map (·.output.text) = some (text ++ new)
  same : limited.fault? ≠ some .sinkFull →
    limited = free.mapStore (·.withRoom (some (room - new.utf8ByteSize)))

theorem Ending.CutShort.after {text : String} {room : Nat} {new later rest : String}
    {free limited : Ending} (hnew : new.utf8ByteSize ≤ room)
    (h : free.CutShort (text ++ new) (room - new.utf8ByteSize) later rest limited) :
    free.CutShort text room (new ++ later) rest limited := by
  have hsize := h.fits
  have hroom : room - new.utf8ByteSize - later.utf8ByteSize =
      room - (new ++ later).utf8ByteSize := by
    rw [String.utf8ByteSize_append]
    omega
  refine ⟨?_, ?_, ?_, ?_⟩
  · rw [String.utf8ByteSize_append]
    omega
  · rw [h.freeOutput, @String.append_assoc text]
  · rw [h.limitedText, String.append_assoc]
  · rw [← hroom]
    exact h.same

namespace Program

variable {fuel : Nat} {globals : Scope} {p : Program} {s : Store} {text : String} {room : Nat}

theorem run_cutShort (h : p.run fuel globals (s.withOutput ⟨text, none⟩) ≠ .outOfFuel) :
    ∃ new rest, Ending.CutShort text room new rest
      (p.run fuel globals (s.withOutput ⟨text, none⟩))
      (p.run fuel globals (s.withOutput ⟨text, some room⟩)) := by
  induction p generalizing s text room with
  | nil =>
    refine ⟨"", "", Nat.zero_le _, ?_, ?_, fun _ => rfl⟩
    · rw [String.append_empty, String.append_empty]
      rfl
    · rw [String.append_empty]
      rfl
  | cons st p ih =>
    have hst := (st.prints_execTopLevel fuel globals).cutsShort s text room
    unfold run at h ⊢
    generalize st.execTopLevel fuel globals (s.withOutput ⟨text, none⟩) = free,
      st.execTopLevel fuel globals (s.withOutput ⟨text, some room⟩) = limited at hst h ⊢
    cases hst with
    | @done a t new hnew =>
      obtain ⟨later, rest, hcut⟩ := ih h
      exact ⟨new ++ later, rest, hcut.after hnew⟩
    | @failed e t new hnew =>
      refine ⟨new, "", hnew, ?_, rfl, fun _ => rfl⟩
      rw [String.append_empty]
      rfl
    | @full _ t new rest hnew hends htext =>
      have hfault : (Ending.stopped (.ofFault .sinkFull st) t).fault? = some .sinkFull := rfl
      -- Without the limit the program goes on, and may write more.
      cases free with
      | done a t' =>
        have ht' : t'.withOutput ⟨text ++ new ++ rest, none⟩ = t' := by
          rw [← show t'.output = _ from hends]
          rfl
        dsimp only at h ⊢
        rw [← ht'] at h ⊢
        obtain ⟨more, last, hcut⟩ := @ih _ _ 0 h
        refine ⟨new, rest ++ more ++ last, hnew, ?_, congrArg some htext, absurd hfault⟩
        rw [hcut.freeOutput]
        simp only [String.append_assoc]
      | failed e t' =>
        exact ⟨new, rest, hnew, congrArg some hends, congrArg some htext, absurd hfault⟩
      | outOfFuel => exact absurd rfl h
    | endless => exact absurd rfl h

/-- Where a program ends with unlimited room, it ends with limited room too. What it writes then is
the beginning of the same output and fits into the room, and unless the sink is full it ends in the
same way, with everything else in the store the same. -/
theorem run_limited (room : Nat) (h : p.run fuel globals (s.withRoom none) ≠ .outOfFuel) :
    ∃ written rest free limited,
      (p.run fuel globals (s.withRoom none)).store? = some free ∧
      (p.run fuel globals (s.withRoom (some room))).store? = some limited ∧
      limited.output.text = s.output.text ++ written ∧ written.utf8ByteSize ≤ room ∧
      free.output.text = limited.output.text ++ rest ∧
      ((p.run fuel globals (s.withRoom (some room))).fault? ≠ some .sinkFull →
        p.run fuel globals (s.withRoom (some room)) =
          (p.run fuel globals (s.withRoom none)).mapStore
            (·.withRoom (some (room - written.utf8ByteSize)))) := by
  obtain ⟨written, rest, hcut⟩ := @run_cutShort _ _ _ _ _ room h
  obtain ⟨free, hfree, hfreeText⟩ := Option.map_eq_some_iff.mp hcut.freeOutput
  obtain ⟨limited, hlimited, hlimitedText⟩ := Option.map_eq_some_iff.mp hcut.limitedText
  refine ⟨written, rest, free, limited, hfree, hlimited, hlimitedText, hcut.fits, ?_, hcut.same⟩
  rw [hfreeText, hlimitedText]

end Program

/-- The second line fits, but its end does not. -/
def twoLines : Program :=
  [.expression (.call (.name "print") [.string "ab"] []),
    .expression (.call (.name "print") [.string "c"] [])]

def printer : Machine := .new Machine.standard none

theorem run_limited_twoLines :
    twoLines.run 9 printer.globals (printer.store.withRoom none) ≠ .outOfFuel ∧
      ∃ written rest free limited,
        (twoLines.run 9 printer.globals (printer.store.withRoom none)).store? = some free ∧
        (twoLines.run 9 printer.globals (printer.store.withRoom (some 4))).store? = some limited ∧
        limited.output.text = printer.store.output.text ++ written ∧ written.utf8ByteSize ≤ 4 ∧
        free.output.text = limited.output.text ++ rest ∧
        ((twoLines.run 9 printer.globals (printer.store.withRoom (some 4))).fault? ≠
            some .sinkFull →
          twoLines.run 9 printer.globals (printer.store.withRoom (some 4)) =
            (twoLines.run 9 printer.globals (printer.store.withRoom none)).mapStore
              (·.withRoom (some (4 - written.utf8ByteSize)))) := by
  have h : twoLines.run 9 printer.globals (printer.store.withRoom none) ≠ .outOfFuel := nofun
  exact ⟨h, Program.run_limited 4 h⟩

example : (twoLines.run 9 printer.globals (printer.store.withRoom (some 4))).store?.map
    (·.output.text) = some "ab\nc" := by decide +kernel

end Offside
