import Offside.Proofs.Token.Rescanning

/-!
# Rows of words

But for white space and positions, the tokens of a text are rows. A row with words begins with the
layout that leads to its level. The words are strings and lexemes, and each is read whole on its own.
-/

namespace Offside

open Cursor (bracketsAfter?)
open Place (startsContent startsWord)
open Spelling (layout leveling newline)

/-! ## Words -/

/-- A string, or a lexeme that is read whole. The brackets are those that are open before it and
after it. -/
inductive IsWord (brackets : List Char) : Spelling → List Char → Prop where
  | string {quote : Char} {content : List Char} :
    quote = '"' ∨ quote = '\'' → quote ∉ content →
    IsWord brackets ⟨.string, .string (String.ofList content),
      String.ofList (quote :: content ++ [quote])⟩ brackets
  | lexeme {kind : TokenKind} {value : TokenValue} {first : Char} {tail brackets' : List Char} :
    startsWord first = true → Lexeme.longest? (first :: tail) = some (kind, tail.length + 1) →
    Lexeme.value? kind (first :: tail) = some value →
    bracketsAfter? brackets kind = some brackets' →
    IsWord brackets ⟨kind, value, String.ofList (first :: tail)⟩ brackets'

inductive Words : List Char → List Spelling → List Char → Prop where
  | nil (brackets : List Char) : Words brackets [] brackets
  | cons {before brackets after : List Char} {w : Spelling} {words : List Spelling} :
    IsWord before w brackets → Words brackets words after → Words before (w :: words) after

/-! ## Rows -/

/-- What stands in a line that follows the given level, with its own level and the brackets that it
leaves open. -/
inductive Row (level : Nat) : List Spelling → Nat → List Char → Prop where
  | empty : Row level [] level []
  | words {target : Nat} {words : List Spelling} {brackets : List Char} :
    target ≤ level + 1 → words ≠ [] → Words [] words brackets →
    Row level (leveling level target ++ words) target brackets

/-- The rows of a text, which lead from one level to another. A row ends outside of brackets, but for
the last one. -/
inductive Rows : Nat → List (List Spelling) → Nat → Prop where
  | last {level target : Nat} {row : List Spelling} {brackets : List Char} :
    Row level row target brackets → Rows level [row] target
  | line {level mid target : Nat} {row : List Spelling} {rows : List (List Spelling)} :
    Row level row mid [] → Rows mid rows target → Rows level (row :: rows) target

/-- The words left in a line, and the rows behind it. -/
inductive Remains (level : Nat) (brackets : List Char) :
    List Spelling → List (List Spelling) → Nat → Prop where
  | last {words : List Spelling} {after : List Char} :
    Words brackets words after → Remains level brackets words [] level
  | line {words : List Spelling} {rows : List (List Spelling)} {target : Nat} :
    Words brackets words [] → Rows level rows target → Remains level brackets words rows target

def joinRows (rows : List (List Spelling)) : List Spelling := [newline].intercalate rows

section

variable {level target final : Nat} {brackets brackets' : List Char} {w : Spelling}
  {words : List Spelling} {rows : List (List Spelling)}

theorem joinRows_append_cons (front : List Spelling) :
    joinRows ((front ++ words) :: rows) = front ++ joinRows (words :: rows) := by
  cases rows with
  | nil => simp [joinRows]
  | cons row rows => simp [joinRows, List.intercalate_cons_cons]

theorem Rows.joinRows_cons (h : Rows level rows target) (row : List Spelling) :
    joinRows (row :: rows) = row ++ newline :: joinRows rows := by
  cases h <;> simp [joinRows, List.intercalate_cons_cons]

theorem Row.of_words (h : Words [] words brackets) : Row level words level brackets := by
  cases words with
  | nil =>
    cases h
    exact .empty
  | cons w words =>
    rw [← List.nil_append (w :: words), ← Spelling.leveling_self level]
    exact .words (Nat.le_succ level) (List.cons_ne_nil w words) h

theorem Remains.unleveled (h : Remains level [] words rows final) :
    Rows level (words :: rows) final := by
  cases h with
  | last h => exact .last (.of_words h)
  | line h hrows => exact .line (.of_words h) hrows

theorem Remains.leveled (h : Remains target [] words rows final) (htarget : target ≤ level + 1)
    (hwords : words ≠ []) : Rows level ((leveling level target ++ words) :: rows) final := by
  cases h with
  | last h => exact .last (.words htarget hwords h)
  | line h hrows => exact .line (.words htarget hwords h) hrows

theorem Remains.cons (hw : IsWord brackets w brackets')
    (h : Remains level brackets' words rows final) :
    Remains level brackets (w :: words) rows final := by
  cases h with
  | last h => exact .last (.cons hw h)
  | line h hrows => exact .line (.cons hw h) hrows

end

/-! ## Runs give rows -/

namespace Cursor

variable {c next last : Cursor} {first : Char} {tail : List Char} {ts us : List Token}
  {ws : List Spelling} {final : Nat}

/-- The spellings are rows from the level of the cursor on. -/
def SpellsRows (c : Cursor) (ws : List Spelling) (final : Nat) : Prop :=
  ∃ rows, Rows c.level rows final ∧ ws = joinRows rows

/-- The spellings begin within a line. The line has words left if a word stands at the cursor. -/
def SpellsRest (c : Cursor) (ws : List Spelling) (final : Nat) : Prop :=
  ∃ words rows, Remains c.level c.brackets words rows final ∧ ws = joinRows (words :: rows) ∧
    ∀ d ∈ c.rest.head?, startsContent d = true → words ≠ []

theorem SpellsRest.spellsRows (h : c.SpellsRest ws final) (hbrackets : c.brackets = []) :
    c.SpellsRows ws final := by
  obtain ⟨words, rows, hremains, rfl, -⟩ := h
  rw [hbrackets] at hremains
  exact ⟨words :: rows, hremains.unleveled, rfl⟩

/-- Steps without words. -/
theorem SpellsRest.of_blank (h : next.SpellsRest ws final) (hrest : c.rest = first :: tail)
    (hfirst : startsContent first = false) (hlevel : next.level = c.level)
    (hbrackets : next.brackets = c.brackets) : c.SpellsRest ws final := by
  obtain ⟨words, rows, hremains, rfl, -⟩ := h
  rw [hlevel, hbrackets] at hremains
  refine ⟨words, rows, hremains, rfl, fun d hd hcontent => ?_⟩
  rw [hrest] at hd
  obtain rfl := Option.some.inj hd
  rw [hfirst] at hcontent
  cases hcontent

theorem SpellsRest.of_word {w : Spelling} (h : next.SpellsRest ws final)
    (hw : IsWord c.brackets w next.brackets) (hlevel : next.level = c.level) :
    c.SpellsRest (w :: ws) final := by
  obtain ⟨words, rows, hremains, rfl, -⟩ := h
  rw [hlevel] at hremains
  exact ⟨w :: words, rows, hremains.cons hw, (joinRows_append_cons [w]).symm,
    fun _ _ _ => List.cons_ne_nil _ _⟩

/-- A new level is taken where a word stands. -/
theorem SpellsRest.spellsRows_leveling {d : Char} {rest : List Char} (h : next.SpellsRest ws final)
    (hrest : next.rest = d :: rest) (hfirst : startsContent d = true)
    (hlevel : next.level ≤ c.level + 1) (hbrackets : next.brackets = []) :
    c.SpellsRows (leveling c.level next.level ++ ws) final := by
  obtain ⟨words, rows, hremains, rfl, hwords⟩ := h
  have hne : words ≠ [] := hwords d (congrArg List.head? hrest) hfirst
  rw [hbrackets] at hremains
  exact ⟨_, hremains.leveled hlevel hne, (joinRows_append_cons _).symm⟩

/-- At the end of a line no word is left, and rows follow. -/
theorem SpellsRest.of_lineEnd (h : next.SpellsRows ws final) (hrest : c.rest = '\n' :: tail)
    (hlevel : next.level = c.level) (hbrackets : c.brackets = []) :
    c.SpellsRest (newline :: ws) final := by
  obtain ⟨rows, hrows, rfl⟩ := h
  rw [hlevel] at hrows
  refine ⟨[], rows, ?_, (hrows.joinRows_cons []).symm, fun d hd hcontent => ?_⟩
  · rw [hbrackets]
    exact .line (.nil []) hrows
  · rw [hrest] at hd
    cases hd
    cases hcontent

theorem isWord_of_longest? {kind : TokenKind} {value : TokenValue} {n : Nat}
    {brackets brackets' : List Char} (hrest : c.rest = first :: tail)
    (hfirst : startsWord first = true) (hlongest : Lexeme.longest? c.rest = some (kind, n))
    (hvalue : Lexeme.value? kind (c.rest.take n) = some value)
    (hbrackets : bracketsAfter? brackets kind = some brackets') :
    IsWord brackets ⟨kind, value, String.ofList (c.rest.take n)⟩ brackets' := by
  have htake := Lexeme.longest?_take hlongest
  have hlength := List.length_take_of_le (Lexeme.length_le_of_longest? hlongest)
  have hpos := Lexeme.length_pos_of_longest? hlongest
  obtain ⟨m, rfl⟩ := Nat.exists_eq_add_one_of_ne_zero hpos.ne'
  rw [hrest, List.take_succ_cons] at htake hlength hvalue ⊢
  rw [← hlength] at htake
  exact .lexeme hfirst htake hvalue hbrackets

/-- What a run to the end spells is rows from the start of a line, or what is left of a line and the
rows behind it. -/
theorem Scans.rows (h : c.Scans ts last) (hend : last.rest = []) :
    (c.IsInside → c.SpellsRest (spellings ts) last.level) ∧
      (c.brackets = [] → c.SpellsRows (spellings ts) last.level) := by
  induction h with
  | refl c =>
    refine ⟨fun _ => ⟨[], [], .last (.nil _), rfl, fun d hd => ?_⟩,
      fun _ => ⟨[[]], .last .empty, rfl⟩⟩
    rw [hend] at hd
    cases hd
  | @step c next last first tail ts us hrest hstep _ ih =>
    obtain ⟨hinside, hlines⟩ := ih hend
    rw [spellings_append]
    -- Where spaces do not decide the level, rows are what is left of a line with no brackets.
    have hstays (h : c.SpellsRest (spellings ts ++ spellings us) last.level) :
        (c.IsInside → c.SpellsRest (spellings ts ++ spellings us) last.level) ∧
          (c.brackets = [] → c.SpellsRows (spellings ts ++ spellings us) last.level) :=
      ⟨fun _ => h, h.spellsRows⟩
    cases moves_of_step hstep with
    | indentation hstart hbrackets h =>
      refine ⟨fun hinside => absurd hbrackets (hinside hstart), fun _ => ?_⟩
      obtain ⟨-, rfl, rfl⟩ | ⟨level, d, rest, hlevel, -, hafter, hd, rfl, rfl⟩ :=
        indentation_cases h
      · rw [spellings_spaceTokens]
        exact (hinside (isInside_of_inLine rfl)).spellsRows hbrackets
      · have hrest := hinside (isInside_of_inLine rfl)
        simpa using hrest.spellsRows_leveling hafter hd hlevel hbrackets
    | lineEnd _ hfirst =>
      subst hfirst
      by_cases hbrackets : c.brackets = []
      · have hts : spellings (c.lineEnd tail).1 = [newline] := by
          unfold Cursor.lineEnd
          rw [hbrackets]
          rfl
        rw [hts] at hstays ⊢
        exact hstays (.of_lineEnd (hlines hbrackets) hrest rfl hbrackets)
      · have hts : spellings (c.lineEnd tail).1 = [] := by
          simp [Cursor.lineEnd, hbrackets]
        rw [hts] at hstays ⊢
        exact hstays (.of_blank (hinside fun _ => hbrackets) hrest rfl rfl rfl)
    | blanks _ hblank =>
      refine hstays (.of_blank (hinside (isInside_of_inLine rfl)) hrest ?_ rfl rfl)
      simp [startsContent, hblank]
    | comment _ hfirst =>
      subst hfirst
      exact hstays (.of_blank (hinside (isInside_of_inLine rfl)) hrest rfl rfl rfl)
    | string _ hquote h =>
      obtain ⟨content, after, -, hcontent, rfl, rfl⟩ := string_eq_ok h
      rw [spellings_string, List.singleton_append] at hstays ⊢
      exact hstays (.of_word (hinside (isInside_of_inLine rfl)) (.string hquote hcontent) rfl)
    | lexeme _ hfirst h =>
      obtain ⟨kind, n, value, brackets, hlongest, hvalue, hbrackets, rfl, rfl⟩ :=
        symbolOrWord_eq_ok h
      have hkind := Lexeme.ne_whitespace_of_longest? hlongest
      have hword := isWord_of_longest? hrest hfirst hlongest hvalue hbrackets
      rw [spellings_token hkind, List.singleton_append] at hstays ⊢
      exact hstays (.of_word (hinside (isInside_of_inLine rfl)) hword rfl)

end Cursor

end Offside
