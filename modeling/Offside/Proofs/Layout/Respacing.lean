import Offside.Proofs.Layout.BlankLines
import Offside.Proofs.Layout.Rows
import Offside.Proofs.Layout.WellFormed

/-!
# Spacing and comments

A text can be written again from the spellings of its tokens: each line at its level, with single
spaces between the words and without comments. The new text has the same spellings.
-/

namespace Offside

open Place (startsContent startsWord inLine newLine)
open Spelling (layout leveling newline)

/-! ## Writing spellings -/

/-- Only the lines and their levels tell of layout. -/
def Spelling.isLayout (s : Spelling) : Bool :=
  s.kind = .newline || s.kind = .indent || s.kind = .dedent || s.kind = .endOfFile

/-- The lines that line ends close. What stands behind the last line end is layout. -/
def logicalLines (ws : List Spelling) : List (List Spelling) :=
  (ws.splitOnP fun s => s.kind = .newline).dropLast

/-- How many blocks are open after a line, with so many open before it. -/
def levelAfter (level : Nat) (row : List Spelling) : Nat :=
  level + row.countP (fun s => s.kind = .indent) - row.countP (fun s => s.kind = .dedent)

/-- The lexemes with single spaces between them. -/
def spacedWords (words : List Spelling) : List Char :=
  [' '].intercalate (words.map fun w => w.lexeme.toList)

/-- Four spaces a level before the words, if there are any. -/
def respacedLine (level : Nat) (row : List Spelling) : List Char :=
  let words := row.filter fun s => !s.isLayout
  if words.isEmpty then [] else List.replicate (indentWidth * level) ' ' ++ spacedWords words

def respacedLines (level : Nat) : List (List Spelling) → List (List Char)
  | [] => []
  | row :: rows =>
    respacedLine (levelAfter level row) row :: respacedLines (levelAfter level row) rows

/-- The text that is written from spellings, with line ends between its lines. -/
def respaced (ws : List Spelling) : String :=
  String.ofList (['\n'].intercalate (respacedLines 0 (logicalLines ws)))

/-! ## Words and layout told apart -/

section

variable {level target final : Nat} {brackets brackets' : List Char} {w : Spelling}
  {words row : List Spelling} {rows : List (List Spelling)}

theorem isLayout_of_isLexeme {s : Spelling} (h : s.kind.isLexeme = true) : s.isLayout = false := by
  obtain ⟨kind, value, lexeme⟩ := s
  cases kind <;> first | rfl | cases h

theorem IsWord.isLayout (h : IsWord brackets w brackets') : w.isLayout = false := by
  cases h with
  | string => rfl
  | lexeme _ hlongest => exact isLayout_of_isLexeme (Lexeme.isLexeme_of_longest? hlongest)

theorem Words.isLayout (h : Words brackets words brackets') : ∀ w ∈ words, w.isLayout = false := by
  induction h with
  | nil => exact List.forall_mem_nil _
  | cons hw _ ih => exact List.forall_mem_cons.mpr ⟨hw.isLayout, ih⟩

theorem IsWord.head (h : IsWord brackets w brackets') :
    ∃ first tail, w.lexeme.toList = first :: tail ∧ startsContent first = true := by
  cases h with
  | @string quote content hquote =>
    refine ⟨quote, content ++ [quote], String.toList_ofList, ?_⟩
    rcases hquote with rfl | rfl <;> rfl
  | @lexeme kind value first tail _ hfirst =>
    refine ⟨first, tail, String.toList_ofList, ?_⟩
    simp only [startsWord, Bool.and_eq_true] at hfirst
    simp [startsContent, hfirst]

theorem spacedWords_cons_cons (w w' : Spelling) (words : List Spelling) :
    spacedWords (w :: w' :: words) = w.lexeme.toList ++ ' ' :: spacedWords (w' :: words) := by
  simp [spacedWords, List.intercalate_cons_cons]

theorem Words.head (h : Words brackets words brackets') (hne : words ≠ []) :
    ∃ first tail, spacedWords words = first :: tail ∧ startsContent first = true := by
  cases h with
  | nil => exact absurd rfl hne
  | @cons _ _ _ w words hw _ =>
    obtain ⟨first, tail, hlexeme, hfirst⟩ := hw.head
    cases words with
    | nil => exact ⟨first, tail, by simp [spacedWords, hlexeme], hfirst⟩
    | cons w' words =>
      rw [spacedWords_cons_cons, hlexeme]
      exact ⟨first, _, rfl, hfirst⟩

theorem kind_of_not_isLayout (h : ∀ w ∈ words, w.isLayout = false) {kind : TokenKind}
    (hkind : (layout kind).isLayout = true) : ∀ w ∈ words, w.kind ≠ kind := by
  rintro w hw rfl
  have hlayout : (layout w.kind).isLayout = false := h w hw
  rw [hkind] at hlayout
  cases hlayout

theorem mem_leveling {s : Spelling} (h : s ∈ leveling level target) :
    s = layout .indent ∨ s = layout .dedent := by
  unfold leveling at h
  split at h
  · exact .inl (List.mem_singleton.mp h)
  · exact .inr (List.eq_of_mem_replicate h)

theorem levelAfter_leveling (htarget : target ≤ level + 1)
    (hwords : ∀ w ∈ words, w.isLayout = false) :
    levelAfter level (leveling level target ++ words) = target := by
  have hnone {kind : TokenKind} (hkind : (layout kind).isLayout = true) :
      words.countP (fun s => s.kind = kind) = 0 := by
    simpa [List.countP_eq_zero] using kind_of_not_isLayout hwords hkind
  unfold levelAfter leveling
  rw [List.countP_append, List.countP_append, hnone rfl, hnone rfl]
  split
  · simp [layout]
    omega
  · simp [layout, List.countP_replicate]
    omega

theorem filter_leveling (hwords : ∀ w ∈ words, w.isLayout = false) :
    (leveling level target ++ words).filter (fun s => !s.isLayout) = words := by
  have hnone : (leveling level target).filter (fun s => !s.isLayout) = [] := by
    rw [List.filter_eq_nil_iff]
    intro s hs
    obtain rfl | rfl := mem_leveling hs <;> simp [Spelling.isLayout, layout]
  rw [List.filter_append, hnone, List.nil_append, List.filter_eq_self]
  intro w hw
  rw [hwords w hw]
  rfl

theorem respacedLine_leveling (hne : words ≠ []) (hwords : ∀ w ∈ words, w.isLayout = false) :
    respacedLine target (leveling level target ++ words) =
      List.replicate (4 * target) ' ' ++ spacedWords words := by
  unfold respacedLine
  dsimp only
  rw [filter_leveling hwords, if_neg (by simpa using hne)]
  rfl

theorem Row.levelAfter (h : Row level row target brackets) : levelAfter level row = target := by
  cases h with
  | empty => rfl
  | words htarget _ h => exact levelAfter_leveling htarget h.isLayout

/-! ## Rows are logical lines -/

theorem Row.kind_ne_newline (h : Row level row target brackets) :
    ∀ s ∈ row, (decide (s.kind = .newline)) = false := by
  cases h with
  | empty => exact List.forall_mem_nil _
  | words _ _ h =>
    intro s hs
    obtain hs | hs := List.mem_append.mp hs
    · obtain rfl | rfl := mem_leveling hs <;> rfl
    · exact decide_eq_false (kind_of_not_isLayout h.isLayout rfl s hs)

theorem splitOnP_joinRows (h : Rows level rows final) :
    (joinRows rows).splitOnP (fun s => s.kind = .newline) = rows := by
  induction h with
  | last h =>
    rw [show joinRows [_] = _ from List.intercalate_singleton]
    exact List.splitOnP_eq_singleton h.kind_ne_newline
  | line h hrows ih =>
    rw [hrows.joinRows_cons, List.splitOnP_append_cons _ _ (by rfl), ih,
      List.splitOnP_eq_singleton h.kind_ne_newline]
    rfl

theorem logicalLines_spellings {c : Cursor} (h : Rows level rows final) :
    logicalLines (joinRows rows ++ spellings c.closing) = rows := by
  unfold logicalLines
  rw [Cursor.spellings_closing, List.cons_append, List.splitOnP_append_cons _ _ (by rfl),
    splitOnP_joinRows h, List.splitOnP_eq_singleton, List.dropLast_concat]
  intro s hs
  obtain hs | hs := List.mem_append.mp hs
  · rw [List.eq_of_mem_replicate hs]
    rfl
  · rw [List.mem_singleton.mp hs]
    rfl

end

/-! ## The new text is read -/

namespace Place

variable {level target final : Nat} {brackets after rest : List Char} {w : Spelling}
  {words row : List Spelling} {rows : List (List Spelling)}

/-- A line end, behind words or in a line without words. -/
theorem spelled_lineEnd (a : Bool) :
    ReadsSpelled ⟨'\n' :: rest, level, [], a⟩ [newline] (newLine level rest) := by
  cases a with
  | false => exact spelled_newline
  | true =>
    have hblank : ReadsSpelled (newLine level ([] ++ '\n' :: rest)) []
        (inLine level [] ('\n' :: rest)) :=
      spelled_indentation_blank (List.forall_mem_nil _) (by simp [Cursor.endsBlank]) (by simp)
    exact hblank.trans spelled_newline

theorem spelled_word (hw : IsWord brackets w after) (hrest : EndsLexeme rest) :
    ReadsSpelled (inLine level brackets (w.lexeme.toList ++ rest)) [w]
      (inLine level after rest) := by
  cases hw with
  | string hquote hcontent =>
    rw [String.toList_ofList, List.append_assoc]
    exact spelled_string hquote hcontent
  | @lexeme kind value first tail _ hfirst hlongest hvalue hbrackets =>
    rw [String.toList_ofList]
    refine spelled_lexeme ?_ ?_ hvalue hbrackets (Lexeme.ne_whitespace_of_longest? hlongest)
    · simpa using hfirst
    · rw [Lexeme.longest?_append hrest.stops (List.cons_ne_nil _ _)]
      exact hlongest

theorem spelled_words (h : Words brackets words after) (hne : words ≠ []) (hrest : IsTail rest) :
    ReadsSpelled (inLine level brackets (spacedWords words ++ rest)) words
      (inLine level after rest) := by
  induction h with
  | nil => exact absurd rfl hne
  | @cons before mid after w words hw hwords ih =>
    cases words with
    | nil =>
      cases hwords
      rw [show spacedWords [w] = w.lexeme.toList from List.intercalate_singleton]
      exact spelled_word hw hrest.endsLexeme
    | cons w' words =>
      have hnext : w' :: words ≠ [] := List.cons_ne_nil _ _
      obtain ⟨first, tail, hhead, hfirst⟩ := hwords.head hnext
      have hends : EndsLexeme (' ' :: (spacedWords (w' :: words) ++ rest)) :=
        fun d hd => .inl (Option.some.inj hd).symm
      have hspace : ReadsSpelled (inLine level mid (' ' :: (spacedWords (w' :: words) ++ rest))) []
          (inLine level mid (spacedWords (w' :: words) ++ rest)) := by
        refine spelled_blank fun d hd => ?_
        rw [hhead] at hd
        obtain rfl := Option.some.inj hd
        simp only [startsContent, Bool.and_eq_true, Bool.not_eq_true'] at hfirst
        exact hfirst.1.1
      rw [spacedWords_cons_cons, List.append_assoc]
      exact (spelled_word hw hends).trans (hspace.trans (ih hnext))

theorem spelled_row (h : Row level row target brackets) (hrest : IsTail rest) :
    ∃ a, ReadsSpelled (newLine level (respacedLine target row ++ rest)) row
      ⟨rest, target, brackets, a⟩ := by
  cases h with
  | empty => exact ⟨true, .refl _⟩
  | words htarget hne h =>
    obtain ⟨first, tail, hhead, hfirst⟩ := h.head hne
    have hwords : ReadsSpelled (inLine target [] (spacedWords _ ++ rest)) _ _ :=
      spelled_words h hne hrest
    rw [hhead] at hwords
    rw [respacedLine_leveling hne h.isLayout, List.append_assoc, hhead]
    exact ⟨false, (spelled_indentation htarget hfirst).trans hwords⟩

theorem spelled_rows (h : Rows level rows final) :
    ∃ brackets a, ReadsSpelled (newLine level (['\n'].intercalate (respacedLines level rows)))
      (joinRows rows) ⟨[], final, brackets, a⟩ := by
  induction h with
  | @last level target row brackets h =>
    obtain ⟨a, hrow⟩ := spelled_row h .nil
    refine ⟨brackets, a, ?_⟩
    simpa [respacedLines, h.levelAfter, joinRows] using hrow
  | @line level mid target row rows h hrows ih =>
    obtain ⟨brackets, a, hbehind⟩ := ih
    obtain ⟨a', hrow⟩ := spelled_row h (.newline (['\n'].intercalate (respacedLines mid rows)))
    have hall := hrow.trans ((spelled_lineEnd a').trans hbehind)
    refine ⟨brackets, a, ?_⟩
    rw [hrows.joinRows_cons]
    have hlines : respacedLines mid rows ≠ [] := by
      cases hrows <;> exact List.cons_ne_nil _ _
    simpa [respacedLines, h.levelAfter, List.intercalate_cons_of_ne_nil hlines] using hall

end Place

/-! ## Whole texts -/

/-- The text that is written from the spellings alone has the same spellings. -/
theorem tokens_respaced {text : String} {ts : List Token} (h : tokens text = .ok ts) :
    ∃ ts', tokens (respaced (spellings ts)) = .ok ts' ∧ spellings ts' = spellings ts := by
  obtain ⟨us, last, hscans, hend, rfl⟩ := scans_of_tokens h
  obtain ⟨rows, hrows, hus⟩ := (hscans.rows hend).2 rfl
  obtain ⟨brackets, a, hreads⟩ := Place.spelled_rows hrows
  have hlines : logicalLines (spellings (us ++ last.closing)) = rows := by
    rw [spellings_append, hus]
    exact logicalLines_spellings hrows
  obtain ⟨us', last', hscans', hus', hlast'⟩ :=
    hreads (.ofText (['\n'].intercalate (respacedLines 0 rows))) rfl
  obtain ⟨hend', hlevel, -, -⟩ := Place.mk.inj hlast'
  refine ⟨us' ++ last'.closing, ?_, ?_⟩
  · rw [tokens_eq_scan]
    unfold respaced
    rw [hlines, String.toList_ofList, Cursor.scan_of_scans hscans' hend']
    simp [Except.map]
  · rw [spellings_append, spellings_append, Cursor.spellings_closing, Cursor.spellings_closing,
      hlevel, hus', hus]

theorem respaced_unclosedText :
    tokens unclosedText = .ok unclosedTokens ∧
      ∃ ts', tokens (respaced (spellings unclosedTokens)) = .ok ts' ∧
        spellings ts' = spellings unclosedTokens := by
  have htokens : tokens unclosedText = .ok unclosedTokens := by decide +kernel
  exact ⟨htokens, tokens_respaced htokens⟩

example : respaced (spellings unclosedTokens) = "if x :\n    y [ ( 1 ) ]\n\nz (" := by
  decide +kernel

end Offside
