import Offside.Proofs.Grammar.Rules
import Offside.Token.Scan

/-!
# Scanning step by step

What a cursor reads next does not depend on its position. A place is the rest of a cursor's state,
and a run of steps leads from one place to another with the terminals of the tokens in between.
-/

namespace Offside

open Grammar (Terminal terminals terminals_append)
open Grammar.Terminal (word)

/-! ## Runs of steps -/

/-- The cursor gets to the other one by whole steps, with these tokens. -/
inductive Cursor.Scans : Cursor → List Token → Cursor → Prop where
  | refl (c : Cursor) : Scans c [] c
  | step {c mid last : Cursor} {first : Char} {tail : List Char} {ts us : List Token} :
    c.rest = first :: tail → c.step first tail = .ok (ts, mid) → Scans mid us last →
    Scans c (ts ++ us) last

namespace Cursor

variable {c mid last : Cursor} {ts us : List Token}

theorem Scans.trans (h : Scans c ts mid) (h' : Scans mid us last) : Scans c (ts ++ us) last := by
  induction h with
  | refl => exact h'
  | step hrest hstep _ ih =>
    rw [List.append_assoc]
    exact .step hrest hstep (ih h')

/-- Scanning goes on where whole steps lead, with the tokens of the steps. -/
theorem Scans.scan_eq (h : Scans c ts last) (found : Array Token) :
    c.scan found = last.scan (found ++ ts) := by
  induction h generalizing found with
  | refl => simp
  | step hrest hstep _ ih =>
    rw [scan_of_step hrest hstep, ih]
    congr 1
    apply Array.ext'
    simp

/-- Scanning gives the tokens of the steps up to the end, and those that close the text. -/
theorem scan_of_scans (h : Scans c ts last) (hend : last.rest = []) (found : Array Token) :
    c.scan found = .ok (found ++ ts ++ last.closing) := by
  rw [h.scan_eq, scan_of_end hend]

/-- At the start of a line, outside all brackets, its spaces are read. -/
theorem step_start (hstart : c.atLineStart = true) (hbrackets : c.brackets = []) (first : Char)
    (tail : List Char) : c.step first tail = c.indentation := by
  unfold step
  rw [hstart, hbrackets]
  rfl

end Cursor

/-- The tokens of a text that is scanned to its end. -/
theorem tokens_of_scans {text : List Char} {ts : List Token} {last : Cursor}
    (h : (Cursor.ofText text).Scans ts last) (hend : last.rest = []) :
    tokens (String.ofList text) = .ok (ts ++ last.closing) := by
  rw [tokens_eq_scan, String.toList_ofList, Cursor.scan_of_scans h hend]
  simp [Except.map]

/-! ## Spellings -/

/-- A token but for its position. -/
structure Spelling where
  kind : TokenKind
  value : TokenValue
  lexeme : String
deriving DecidableEq

def Token.spelling (t : Token) : Spelling := ⟨t.kind, t.value, t.lexeme⟩

/-- The spellings of the tokens that are not white space. -/
def spellings (ts : List Token) : List Spelling :=
  (ts.filter fun t => !t.isWhitespace).map Token.spelling

@[simp] theorem spellings_nil : spellings [] = [] := rfl

@[simp] theorem spellings_append (ts us : List Token) :
    spellings (ts ++ us) = spellings ts ++ spellings us := by
  simp [spellings]

namespace Spelling

def terminal (s : Spelling) : Terminal := ⟨s.kind, s.value⟩

def newline : Spelling := ⟨.newline, .none, "\n"⟩

/-- Layout that no text stands for. -/
def layout (kind : TokenKind) : Spelling := ⟨kind, .none, ""⟩

/-- The layout that leads from one level of indentation to another. -/
def leveling (level target : Nat) : List Spelling :=
  if level < target then [layout .indent] else List.replicate (level - target) (layout .dedent)

theorem leveling_self (level : Nat) : leveling level level = [] := by
  simp [leveling]

end Spelling

theorem terminals_eq_map_spellings (ts : List Token) :
    terminals ts = (spellings ts).map Spelling.terminal := by
  simp [terminals, spellings, Terminal.ofToken, Token.spelling, Spelling.terminal]

namespace Cursor

variable {c : Cursor}

theorem spellings_token {kind : TokenKind} (hkind : kind ≠ .whitespace) (value : TokenValue)
    (lexeme : List Char) :
    spellings [c.token kind value lexeme] = [⟨kind, value, String.ofList lexeme⟩] := by
  simp [spellings, token, Token.isWhitespace, Token.spelling, hkind]

theorem terminals_token {kind : TokenKind} (hkind : kind ≠ .whitespace) (value : TokenValue)
    (lexeme : List Char) : terminals [c.token kind value lexeme] = [⟨kind, value⟩] := by
  rw [terminals_eq_map_spellings, spellings_token hkind]
  rfl

theorem spellings_string (value : TokenValue) (lexeme : List Char) :
    spellings [c.token .string value lexeme] = [⟨.string, value, String.ofList lexeme⟩] :=
  spellings_token (by decide) value lexeme

theorem terminals_string (value : TokenValue) (lexeme : List Char) :
    terminals [c.token .string value lexeme] = [⟨.string, value⟩] :=
  terminals_token (by decide) value lexeme

@[simp] theorem spellings_whitespace (lexeme : List Char) :
    spellings [c.token .whitespace .none lexeme] = [] := rfl

@[simp] theorem spellings_spaceTokens (spaces : List Char) :
    spellings (c.spaceTokens spaces) = [] := by
  unfold spaceTokens
  split <;> rfl

@[simp] theorem spellings_levelTokens (target : Nat) :
    spellings (c.levelTokens target) = Spelling.leveling c.level target := by
  unfold levelTokens Spelling.leveling
  split <;> simp [spellings, token, Token.isWhitespace, Token.spelling, Spelling.layout]

theorem spellings_closing : spellings c.closing = Spelling.layout .newline ::
    List.replicate c.level (Spelling.layout .dedent) ++ [Spelling.layout .endOfFile] := by
  simp [closing, spellings, token, Token.isWhitespace, Token.spelling, Spelling.layout]

end Cursor

/-! ## Places -/

/-- The state of a cursor but for its position. -/
structure Place where
  rest : List Char
  level : Nat
  brackets : List Char
  atLineStart : Bool

namespace Place

def ofCursor (c : Cursor) : Place := ⟨c.rest, c.level, c.brackets, c.atLineStart⟩

/-- Within a line, before the given text. -/
def inLine (level : Nat) (brackets rest : List Char) : Place := ⟨rest, level, brackets, false⟩

/-- At the start of a line, outside all brackets. -/
def newLine (level : Nat) (rest : List Char) : Place := ⟨rest, level, [], true⟩

/-- Every cursor at the first place gets to the second one, with tokens of these terminals. -/
def Reads (p : Place) (us : List Terminal) (q : Place) : Prop :=
  ∀ c, ofCursor c = p → ∃ ts last, c.Scans ts last ∧ terminals ts = us ∧ ofCursor last = q

/-- Every cursor at the first place gets to the second one, with tokens of these spellings. -/
def ReadsSpelled (p : Place) (ws : List Spelling) (q : Place) : Prop :=
  ∀ c, ofCursor c = p → ∃ ts last, c.Scans ts last ∧ spellings ts = ws ∧ ofCursor last = q

variable {p q r : Place} {us vs : List Terminal} {ws ws' : List Spelling}

theorem Reads.refl (p : Place) : Reads p [] p := fun c hc => ⟨[], c, .refl c, rfl, hc⟩

theorem Reads.trans (h : Reads p us q) (h' : Reads q vs r) : Reads p (us ++ vs) r := by
  intro c hc
  obtain ⟨ts, mid, hscans, rfl, hmid⟩ := h c hc
  obtain ⟨ts', last, hscans', rfl, hlast⟩ := h' mid hmid
  exact ⟨ts ++ ts', last, hscans.trans hscans', terminals_append ts ts', hlast⟩

/-- A single step. -/
theorem reads_of_step (h : ∀ c, ofCursor c = p → ∃ first tail ts last, c.rest = first :: tail ∧
    c.step first tail = .ok (ts, last) ∧ terminals ts = us ∧ ofCursor last = q) : Reads p us q := by
  intro c hc
  obtain ⟨first, tail, ts, last, hrest, hstep, hts, hlast⟩ := h c hc
  refine ⟨ts ++ [], last, .step hrest hstep (.refl last), ?_, hlast⟩
  rw [List.append_nil, hts]

theorem ReadsSpelled.refl (p : Place) : ReadsSpelled p [] p :=
  fun c hc => ⟨[], c, .refl c, rfl, hc⟩

theorem ReadsSpelled.trans (h : ReadsSpelled p ws q) (h' : ReadsSpelled q ws' r) :
    ReadsSpelled p (ws ++ ws') r := by
  intro c hc
  obtain ⟨ts, mid, hscans, rfl, hmid⟩ := h c hc
  obtain ⟨ts', last, hscans', rfl, hlast⟩ := h' mid hmid
  exact ⟨ts ++ ts', last, hscans.trans hscans', spellings_append ts ts', hlast⟩

theorem spelled_of_step (h : ∀ c, ofCursor c = p → ∃ first tail ts last, c.rest = first :: tail ∧
    c.step first tail = .ok (ts, last) ∧ spellings ts = ws ∧ ofCursor last = q) :
    ReadsSpelled p ws q := by
  intro c hc
  obtain ⟨first, tail, ts, last, hrest, hstep, hts, hlast⟩ := h c hc
  refine ⟨ts ++ [], last, .step hrest hstep (.refl last), ?_, hlast⟩
  rw [List.append_nil, hts]

theorem ReadsSpelled.reads (h : ReadsSpelled p ws q) : Reads p (ws.map Spelling.terminal) q := by
  intro c hc
  obtain ⟨ts, last, hscans, rfl, hlast⟩ := h c hc
  exact ⟨ts, last, hscans, terminals_eq_map_spellings ts, hlast⟩

/-- The tokens of a text that is read to its end, with those that close it. -/
theorem tokens_of_reads {text : List Char} {level : Nat} {brackets : List Char} {atLineStart : Bool}
    (h : Reads (newLine 0 text) us ⟨[], level, brackets, atLineStart⟩) :
    ∃ ts, tokens (String.ofList text) = .ok ts ∧ terminals ts =
      us ++ word .newline :: List.replicate level (word .dedent) ++ [word .endOfFile] := by
  obtain ⟨ts, last, hscans, rfl, hlast⟩ := h (.ofText text) rfl
  obtain ⟨hrest, rfl, -, -⟩ := Place.mk.inj hlast
  refine ⟨ts ++ last.closing, tokens_of_scans hscans hrest, ?_⟩
  simp [terminals, Cursor.closing, Cursor.token, Token.isWhitespace, Terminal.ofToken, word]

/-! ## Layout -/

/-- The terminals that lead from one level of indentation to another. -/
def leveling (level target : Nat) : List Terminal :=
  if level < target then [word .indent] else List.replicate (level - target) (word .dedent)

/-- A character other than those that a line without content may hold. -/
def startsContent (first : Char) : Bool :=
  !Cursor.isBlank first && first != '\n' && first != '#'

theorem startsContent_ne {first c : Char} (h : startsContent first = true)
    (hc : startsContent c = false) : first ≠ c := by
  rintro rfl
  rw [h] at hc
  cases hc

/-- A character that neither separates lexemes nor is taken into the one before it. -/
def opensLexeme (first : Char) : Bool :=
  !Cursor.isBlank first && first != '\n' && first != '#' && first != '='

theorem opensLexeme_ne {first c : Char} (h : opensLexeme first = true)
    (hc : opensLexeme c = false) : first ≠ c := by
  rintro rfl
  rw [h] at hc
  cases hc

theorem startsContent_of_opensLexeme {first : Char} (h : opensLexeme first = true) :
    startsContent first = true := by
  unfold opensLexeme at h
  rw [Bool.and_eq_true] at h
  exact h.1

theorem indentation_eq {c : Cursor} {target : Nat} {first : Char} {tail : List Char}
    (hrest : c.rest = List.replicate (4 * target) ' ' ++ first :: tail)
    (hlevel : target ≤ c.level + 1) (hfirst : startsContent first = true) :
    c.indentation = .ok (c.levelTokens target ++ c.spaceTokens (List.replicate (4 * target) ' '),
      { c.pass (List.replicate (4 * target) ' ') (first :: tail) with level := target }) := by
  have hspaces : ∀ a ∈ List.replicate (4 * target) ' ', (a == ' ') = true := by
    intro a ha
    rw [List.eq_of_mem_replicate ha]
    rfl
  have hfirst' : (first == ' ') = false := by simpa using startsContent_ne hfirst rfl
  have htake : c.rest.takeWhile (· == ' ') = List.replicate (4 * target) ' ' := by
    rw [hrest, List.takeWhile_append_of_pos hspaces]
    simp [hfirst']
  have hdrop : c.rest.dropWhile (· == ' ') = first :: tail := by
    rw [hrest, List.dropWhile_append_of_pos hspaces]
    simp [hfirst']
  have hwidth : 4 * target / indentWidth = target := Nat.mul_div_cancel_left target (by decide)
  have haligned : 4 * target % indentWidth = 0 := Nat.mul_mod_right 4 target
  unfold Cursor.indentation
  simp only [htake, hdrop, List.length_replicate, hwidth, haligned]
  split
  · rename_i h
    cases h
  · rename_i h
    exact absurd (List.cons.inj h).1 (startsContent_ne hfirst rfl)
  · rename_i h
    exact absurd (List.cons.inj h).1 (startsContent_ne hfirst rfl)
  · rename_i h
    exact absurd (List.cons.inj h).1 (startsContent_ne hfirst rfl)
  · rename_i h
    exact absurd (List.cons.inj h).1 (startsContent_ne hfirst rfl)
  · rw [if_neg (by simp), if_neg (by omega)]

theorem terminal_leveling (level target : Nat) :
    (Spelling.leveling level target).map Spelling.terminal = leveling level target := by
  unfold Spelling.leveling leveling
  split <;> simp [Spelling.terminal, Spelling.layout, word]

theorem terminals_levelTokens (c : Cursor) (target : Nat) :
    terminals (c.levelTokens target) = leveling c.level target := by
  rw [terminals_eq_map_spellings, Cursor.spellings_levelTokens, terminal_leveling]

theorem terminals_spaceTokens (c : Cursor) (spaces : List Char) :
    terminals (c.spaceTokens spaces) = [] := by
  rw [terminals_eq_map_spellings, Cursor.spellings_spaceTokens, List.map_nil]

/-- The spaces at the start of a line lead to its level. -/
theorem spelled_indentation {level target : Nat} {first : Char} {tail : List Char}
    (hlevel : target ≤ level + 1) (hfirst : startsContent first = true) :
    ReadsSpelled (newLine level (List.replicate (4 * target) ' ' ++ first :: tail))
      (Spelling.leveling level target) (inLine target [] (first :: tail)) := by
  apply spelled_of_step
  intro c hc
  obtain ⟨hrest, rfl, hbrackets, hstart⟩ := Place.mk.inj hc
  obtain ⟨first', tail', hcons⟩ : ∃ first' tail', c.rest = first' :: tail' := by
    rw [hrest]
    exact List.exists_cons_of_ne_nil (List.append_ne_nil_of_right_ne_nil _ (List.cons_ne_nil _ _))
  have hstep := Cursor.step_start hstart hbrackets first' tail'
  refine ⟨first', tail', _, _, hcons, hstep.trans (indentation_eq hrest hlevel hfirst), by simp, ?_⟩
  simp [ofCursor, Cursor.pass, inLine, hbrackets]

theorem reads_indentation {level target : Nat} {first : Char} {tail : List Char}
    (hlevel : target ≤ level + 1) (hfirst : startsContent first = true) :
    Reads (newLine level (List.replicate (4 * target) ' ' ++ first :: tail)) (leveling level target)
      (inLine target [] (first :: tail)) := by
  rw [← terminal_leveling]
  exact (spelled_indentation hlevel hfirst).reads

theorem spelled_newline {level : Nat} {rest : List Char} :
    ReadsSpelled (inLine level [] ('\n' :: rest)) [Spelling.newline] (newLine level rest) := by
  apply spelled_of_step
  intro c hc
  obtain ⟨hrest, rfl, hbrackets, hstart⟩ := Place.mk.inj hc
  have hstep : c.step '\n' rest = .ok (c.lineEnd rest) := by
    simp [Cursor.step, hstart]
  refine ⟨'\n', rest, _, _, hrest, hstep, ?_, ?_⟩
  · rw [hbrackets]
    rfl
  · simp [ofCursor, Cursor.pass, newLine, hbrackets]

theorem reads_newline {level : Nat} {rest : List Char} :
    Reads (inLine level [] ('\n' :: rest)) [word .newline] (newLine level rest) :=
  spelled_newline.reads

/-! ## Within a line -/

variable {level : Nat} {brackets rest : List Char}

theorem spelled_blank (h : ∀ first ∈ rest.head?, Cursor.isBlank first = false) :
    ReadsSpelled (inLine level brackets (' ' :: rest)) [] (inLine level brackets rest) := by
  apply spelled_of_step
  intro c hc
  obtain ⟨hrest, rfl, rfl, hstart⟩ := Place.mk.inj hc
  have hstep : c.step ' ' rest = .ok c.blanks := by
    simp [Cursor.step, hstart]
  have hdrop : c.rest.dropWhile Cursor.isBlank = rest := by
    rw [hrest, List.dropWhile_cons_of_pos rfl]
    cases rest with
    | nil => rfl
    | cons first tail => simp [h first rfl]
  refine ⟨' ', rest, _, _, hrest, hstep, rfl, ?_⟩
  simp [ofCursor, Cursor.pass, inLine, hdrop]

theorem reads_blank (h : ∀ first ∈ rest.head?, Cursor.isBlank first = false) :
    Reads (inLine level brackets (' ' :: rest)) [] (inLine level brackets rest) :=
  (spelled_blank h).reads

/-- A string ends at the first quote of its kind. -/
theorem string_closed (c : Cursor) {quote : Char} {content : List Char} (h : quote ∉ content)
    (rest : List Char) :
    c.string quote (content ++ quote :: rest) =
      .ok ([c.token .string (.string (String.ofList content)) (quote :: content ++ [quote])],
        c.pass (quote :: content ++ [quote]) rest) := by
  have hinside : ∀ a ∈ content, (a != quote) = true := by
    intro a ha
    simp only [bne_iff_ne]
    rintro rfl
    exact h ha
  have htake : (content ++ quote :: rest).takeWhile (· != quote) = content := by
    rw [List.takeWhile_append_of_pos hinside]
    simp
  have hdrop : (content ++ quote :: rest).dropWhile (· != quote) = quote :: rest := by
    rw [List.dropWhile_append_of_pos hinside]
    simp
  unfold Cursor.string
  simp only [htake, hdrop]

theorem spelled_string {quote : Char} (hquote : quote = '"' ∨ quote = '\'') {content : List Char}
    (hcontent : quote ∉ content) :
    ReadsSpelled (inLine level brackets (quote :: content ++ quote :: rest))
      [⟨.string, .string (String.ofList content), String.ofList (quote :: content ++ [quote])⟩]
      (inLine level brackets rest) := by
  apply spelled_of_step
  intro c hc
  obtain ⟨hrest, rfl, rfl, hstart⟩ := Place.mk.inj hc
  have hstep : c.step quote (content ++ quote :: rest) = c.string quote (content ++ quote :: rest) := by
    rcases hquote with rfl | rfl <;> simp [Cursor.step, hstart]
  rw [string_closed c hcontent] at hstep
  refine ⟨quote, _, _, _, hrest, hstep, Cursor.spellings_string _ _, ?_⟩
  simp [ofCursor, Cursor.pass, inLine]

theorem reads_string {quote : Char} (hquote : quote = '"' ∨ quote = '\'') {content : List Char}
    (hcontent : quote ∉ content) :
    Reads (inLine level brackets (quote :: content ++ quote :: rest))
      [⟨.string, .string (String.ofList content)⟩] (inLine level brackets rest) :=
  (spelled_string hquote hcontent).reads

/-- A character that begins an operator, a word or a number, if anything. -/
def startsWord (first : Char) : Bool :=
  !Cursor.isBlank first && first != '\n' && first != '#' && first != '"' && first != '\''

theorem step_eq_symbolOrWord {c : Cursor} {first : Char} (tail : List Char)
    (hinside : (c.atLineStart && c.brackets.isEmpty) = false) (hfirst : startsWord first = true) :
    c.step first tail = c.symbolOrWord first := by
  have hne : ∀ a, startsWord a = false → first ≠ a := by
    rintro a ha rfl
    rw [hfirst] at ha
    cases ha
  unfold Cursor.step
  rw [hinside, if_neg Bool.false_ne_true]
  split
  · exact absurd rfl (hne _ rfl)
  · exact absurd rfl (hne _ rfl)
  · exact absurd rfl (hne _ rfl)
  · exact absurd rfl (hne _ rfl)
  · exact absurd rfl (hne _ rfl)
  · exact absurd rfl (hne _ rfl)
  · exact absurd rfl (hne _ rfl)
  · rfl

/-- A lexeme is read as the token of its kind and value, and may open or close a bracket. -/
theorem spelled_lexeme {lexeme brackets' : List Char} {kind : TokenKind} {value : TokenValue}
    (hfirst : ∀ first ∈ lexeme.head?, startsWord first = true)
    (hlongest : Lexeme.longest? (lexeme ++ rest) = some (kind, lexeme.length))
    (hvalue : Lexeme.value? kind lexeme = some value)
    (hbrackets : Cursor.bracketsAfter? brackets kind = some brackets')
    (hkind : kind ≠ .whitespace) :
    ReadsSpelled (inLine level brackets (lexeme ++ rest)) [⟨kind, value, String.ofList lexeme⟩]
      (inLine level brackets' rest) := by
  apply spelled_of_step
  intro c hc
  obtain ⟨hrest, rfl, rfl, hstart⟩ := Place.mk.inj hc
  cases lexeme with
  | nil => exact absurd (Lexeme.length_pos_of_longest? hlongest) (Nat.lt_irrefl 0)
  | cons first tail =>
    have hinside : (c.atLineStart && c.brackets.isEmpty) = false := by rw [hstart, Bool.false_and]
    have hstep := step_eq_symbolOrWord (tail ++ rest) hinside (hfirst first rfl)
    unfold Cursor.symbolOrWord at hstep
    simp only [hrest, hlongest, List.take_left, List.drop_left, hvalue, hbrackets] at hstep
    refine ⟨first, tail ++ rest, _, _, hrest, hstep, Cursor.spellings_token hkind _ _, ?_⟩
    simp [ofCursor, Cursor.pass, inLine]

theorem reads_lexeme {lexeme brackets' : List Char} {kind : TokenKind} {value : TokenValue}
    (hfirst : ∀ first ∈ lexeme.head?, startsWord first = true)
    (hlongest : Lexeme.longest? (lexeme ++ rest) = some (kind, lexeme.length))
    (hvalue : Lexeme.value? kind lexeme = some value)
    (hbrackets : Cursor.bracketsAfter? brackets kind = some brackets')
    (hkind : kind ≠ .whitespace) :
    Reads (inLine level brackets (lexeme ++ rest)) [⟨kind, value⟩] (inLine level brackets' rest) :=
  (spelled_lexeme hfirst hlongest hvalue hbrackets hkind).reads

end Place

end Offside
