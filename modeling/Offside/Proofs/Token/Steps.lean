import Mathlib.Data.List.TakeWhile
import Offside.Proofs.Grammar.ExpressionSoundness
import Offside.Proofs.Token.Scanning

/-!
# What a step of a cursor does

Each step is one of six kinds. It passes a lexeme, and its tokens have the position where the lexeme
starts. Only the first step of a line gives an indent.
-/

namespace Offside

/-- A position moves down by the line ends that it passes. -/
theorem Text.Position.line_advance (p : Text.Position) (text : List Char) :
    (p.advance text).line = p.line + text.count '\n' := by
  induction text generalizing p with
  | nil => rfl
  | cons c text ih =>
    rw [Text.Position.advance_cons, ih, List.count_cons]
    unfold Text.Position.step
    by_cases hc : c = '\n'
    · simp only [hc, if_true, beq_self_eq_true]
      omega
    · simp [hc]

theorem head_dropWhile_eq {p : Char → Bool} {text : List Char} {d : Char}
    (h : d ∈ (text.dropWhile p).head?) : p d = false := by
  have hstop := List.head?_dropWhile_not p text
  rw [Option.mem_def.mp h] at hstop
  simpa using hstop

open Grammar (AllAgree Terminal terminals terminals_append)
open Place (startsWord)

/-! ## Kinds of lexemes -/

/-- The kinds of operators, words and numbers. -/
def TokenKind.isLexeme : TokenKind → Bool
  | .string | .newline | .indent | .dedent | .whitespace | .endOfFile => false
  | _ => true

/-- A layout token, which has no value. -/
def Token.IsLayout (t : Token) : Prop :=
  t.value = .none ∧ t.kind.isLexeme = false ∧ t.kind ≠ .string

theorem Token.IsLayout.agrees {t : Token} (h : t.IsLayout) : (Terminal.ofToken t).Agrees := by
  obtain ⟨hvalue, hkind, hstring⟩ := h
  obtain ⟨kind, value, lexeme, position⟩ := t
  cases hvalue
  cases kind
  case string => exact absurd rfl hstring
  all_goals first | rfl | cases hkind

namespace Lexeme

variable {text : List Char} {kind : TokenKind} {n : Nat}

theorem isLexeme_of_symbol? (h : symbol? text = some (kind, n)) : kind.isLexeme = true := by
  unfold symbol? at h
  split at h
  iterate 4
    cases h
    rfl
  · split at h
    all_goals cases h
    all_goals rfl
  · cases h

theorem isLexeme_of_keyword? {word : String} (h : keyword? word = some kind) :
    kind.isLexeme = true := by
  unfold keyword? at h
  split at h
  all_goals cases h
  all_goals rfl

theorem isLexeme_of_word? (h : word? text = some (kind, n)) : kind.isLexeme = true := by
  unfold word? at h
  split at h
  · cases h
  split at h
  · cases h
    cases hkeyword : keyword? (String.ofList _) with
    | none => rfl
    | some kind => exact isLexeme_of_keyword? hkeyword
  · cases h

theorem isLexeme_of_number? (h : number? text = some (kind, n)) : kind.isLexeme = true := by
  unfold number? at h
  dsimp only at h
  split at h
  · cases h
  split at h
  · split at h
    all_goals cases h
    all_goals rfl
  · cases h
    rfl

theorem isLexeme_of_longest? (h : longest? text = some (kind, n)) : kind.isLexeme = true := by
  obtain h | h | h := longest?_eq_some h
  · exact isLexeme_of_symbol? h
  · exact isLexeme_of_word? h
  · exact isLexeme_of_number? h

theorem ne_whitespace_of_longest? (h : longest? text = some (kind, n)) : kind ≠ .whitespace := by
  rintro rfl
  cases isLexeme_of_longest? h

/-- The number that an integer denotes is in range. -/
theorem toInt_of_integer? {lexeme : List Char} {k : Int64} (h : integer? lexeme = some k) :
    k.toInt = Decimal.digitsValue lexeme := by
  unfold integer? at h
  dsimp only at h
  split at h
  · rename_i hsmall
    cases h
    unfold maxInteger at hsmall
    exact Int64.toInt_ofNat_of_lt (by omega)
  · cases h

/-- A lexeme has the value of its kind. -/
theorem agrees_of_value? {lexeme : List Char} {value : TokenValue} (hkind : kind.isLexeme = true)
    (h : value? kind lexeme = some value) : Terminal.Agrees ⟨kind, value⟩ := by
  unfold value? at h
  split at h
  · cases h
    exact ⟨_, rfl⟩
  · obtain ⟨k, -, rfl⟩ := Option.map_eq_some_iff.mp h
    exact ⟨k, rfl⟩
  · cases h
    exact ⟨_, rfl⟩
  · rename_i hname hint hfloat
    cases h
    cases kind
    case name => exact absurd rfl hname
    case int => exact absurd rfl hint
    case float => exact absurd rfl hfloat
    all_goals first | rfl | cases hkind

end Lexeme

namespace Cursor

variable {c next mid last : Cursor} {first : Char} {tail : List Char} {ts us : List Token}

/-! ## Kinds of steps -/

/-- The cursor is not where the spaces decide the level. -/
def IsInside (c : Cursor) : Prop := c.atLineStart = true → c.brackets ≠ []

theorem isInside_iff : c.IsInside ↔ (c.atLineStart && c.brackets.isEmpty) = false := by
  simp [IsInside]

theorem isInside_of_inLine (h : c.atLineStart = false) : c.IsInside := by
  intro hstart
  rw [h] at hstart
  cases hstart

theorem step_lineEnd (h : c.IsInside) (tail : List Char) :
    c.step '\n' tail = .ok (c.lineEnd tail) := by
  unfold step
  rw [isInside_iff.mp h]
  rfl

theorem step_blanks (h : c.IsInside) (hfirst : isBlank first = true) (tail : List Char) :
    c.step first tail = .ok c.blanks := by
  unfold step
  rw [isInside_iff.mp h]
  simp only [isBlank, Bool.or_eq_true, beq_iff_eq] at hfirst
  rcases hfirst with (rfl | rfl) | rfl <;> rfl

theorem step_space (h : c.IsInside) (tail : List Char) : c.step ' ' tail = .ok c.blanks :=
  step_blanks h rfl tail

theorem step_comment (h : c.IsInside) (tail : List Char) : c.step '#' tail = .ok c.comment := by
  unfold step
  rw [isInside_iff.mp h]
  rfl

theorem step_string (h : c.IsInside) (hquote : first = '"' ∨ first = '\'') (tail : List Char) :
    c.step first tail = c.string first tail := by
  unfold step
  rw [isInside_iff.mp h]
  rcases hquote with rfl | rfl <;> rfl

theorem step_word (h : c.IsInside) (hfirst : startsWord first = true) (tail : List Char) :
    c.step first tail = c.symbolOrWord first :=
  Place.step_eq_symbolOrWord tail (isInside_iff.mp h) hfirst

inductive Moves (c : Cursor) (first : Char) (tail : List Char) : List Token → Cursor → Prop where
  | indentation {ts : List Token} {next : Cursor} :
    c.atLineStart = true → c.brackets = [] → c.indentation = .ok (ts, next) →
    Moves c first tail ts next
  | lineEnd : c.IsInside → first = '\n' → Moves c first tail (c.lineEnd tail).1 (c.lineEnd tail).2
  | blanks : c.IsInside → isBlank first = true → Moves c first tail c.blanks.1 c.blanks.2
  | comment : c.IsInside → first = '#' → Moves c first tail c.comment.1 c.comment.2
  | string {ts : List Token} {next : Cursor} :
    c.IsInside → first = '"' ∨ first = '\'' → c.string first tail = .ok (ts, next) →
    Moves c first tail ts next
  | lexeme {ts : List Token} {next : Cursor} :
    c.IsInside → startsWord first = true → c.symbolOrWord first = .ok (ts, next) →
    Moves c first tail ts next

theorem moves_of_step (h : c.step first tail = .ok (ts, next)) : c.Moves first tail ts next := by
  unfold step at h
  split at h
  · rename_i hstart
    rw [Bool.and_eq_true, List.isEmpty_iff] at hstart
    exact .indentation hstart.1 hstart.2 h
  rename_i hstart
  have hinside : c.IsInside := isInside_iff.mpr (Bool.eq_false_iff.mpr hstart)
  split at h
  · cases h
    exact .lineEnd hinside rfl
  case h_2 | h_3 | h_4 =>
    cases h
    exact .blanks hinside rfl
  · cases h
    exact .comment hinside rfl
  · exact .string hinside (.inl rfl) h
  · exact .string hinside (.inr rfl) h
  · refine .lexeme hinside ?_ h
    simp_all [startsWord, isBlank]

/-! ## The start of a line -/

/-- The spaces that the line starts with. -/
def spaces (c : Cursor) : List Char := c.rest.takeWhile (· == ' ')

def afterSpaces (c : Cursor) : List Char := c.rest.dropWhile (· == ' ')

/-- The characters that a line without a level goes on with after its spaces. -/
def endsBlank (d : Char) : Bool := d == '\n' || d == '\r' || d == '#'

/-- Takes the level of the line from its spaces. -/
def leveled (c : Cursor) : Except LexicalError (List Token × Cursor) :=
  let level := c.spaces.length / indentWidth
  if c.spaces.length % indentWidth ≠ 0 then
    .error (.misalignedIndentation c.spaces.length c.position.line)
  else if c.level + 1 < level then .error (.indentTooDeep c.position.line)
  else
    .ok (c.levelTokens level ++ c.spaceTokens c.spaces,
      { c.pass c.spaces c.afterSpaces with level := level })

theorem indentation_eq_if (c : Cursor) : c.indentation =
    if c.afterSpaces.head?.all endsBlank then
      .ok (c.spaceTokens c.spaces, c.pass c.spaces c.afterSpaces)
    else if c.afterSpaces.head? = some '\t' then .error (.tabIndentation c.position.line)
    else c.leveled := by
  unfold indentation leveled spaces afterSpaces
  dsimp only
  generalize c.rest.dropWhile (· == ' ') = rest
  split
  case h_6 hnil hnewline hreturn hhash htab =>
    cases rest with
    | nil => exact absurd rfl hnil
    | cons d tail =>
      have hne (a : Char) (h : ∀ rest, d :: tail = a :: rest → False) : d ≠ a := by
        rintro rfl
        exact h tail rfl
      simp [endsBlank, hne _ hnewline, hne _ hreturn, hne _ hhash, hne _ htab]
  all_goals rfl

/-- A line without content leaves the level as it is. -/
theorem indentation_blank (h : ∀ d ∈ c.afterSpaces.head?, endsBlank d = true) :
    c.indentation = .ok (c.spaceTokens c.spaces, c.pass c.spaces c.afterSpaces) := by
  rw [indentation_eq_if, if_pos ((Option.all_eq_true _ _).mpr h)]

theorem levelTokens_self (c : Cursor) : c.levelTokens c.level = [] := by
  simp [levelTokens]

theorem indentation_eq_ok (h : c.indentation = .ok (ts, next)) :
    ∃ level ≤ c.level + 1, ts = c.levelTokens level ++ c.spaceTokens c.spaces ∧
      next = { c.pass c.spaces c.afterSpaces with level := level } := by
  rw [indentation_eq_if] at h
  split at h
  · cases h
    exact ⟨c.level, by omega, by rw [levelTokens_self, List.nil_append], rfl⟩
  split at h
  · cases h
  unfold leveled at h
  dsimp only at h
  split at h
  · cases h
  split at h
  · cases h
  · cases h
    exact ⟨_, by omega, rfl, rfl⟩

theorem rest_eq_spaces_append (c : Cursor) : c.rest = c.spaces ++ c.afterSpaces :=
  List.takeWhile_append_dropWhile.symm

theorem mem_spaces {d : Char} (h : d ∈ c.spaces) : (d == ' ') = true :=
  List.mem_takeWhile_imp (p := (· == ' ')) h

/-- A line without content, or one whose spaces make up a level. -/
theorem indentation_cases (h : c.indentation = .ok (ts, next)) :
    ((∀ d ∈ c.afterSpaces.head?, endsBlank d = true) ∧ ts = c.spaceTokens c.spaces ∧
      next = c.pass c.spaces c.afterSpaces) ∨
    ∃ level first tail, level ≤ c.level + 1 ∧ c.spaces = List.replicate (4 * level) ' ' ∧
      c.afterSpaces = first :: tail ∧ Place.startsContent first = true ∧
      ts = c.levelTokens level ++ c.spaceTokens c.spaces ∧
      next = { c.pass c.spaces c.afterSpaces with level := level } := by
  rw [indentation_eq_if] at h
  split at h
  · rename_i hblank
    cases h
    exact .inl ⟨(Option.all_eq_true _ _).mp hblank, rfl, rfl⟩
  rename_i hblank
  split at h
  · cases h
  rename_i htab
  unfold leveled at h
  dsimp only at h
  split at h
  · cases h
  rename_i haligned
  split at h
  · cases h
  rename_i hdeep
  cases h
  cases hafter : c.afterSpaces with
  | nil => simp [hafter] at hblank
  | cons first tail =>
    have hhead : first ∈ c.afterSpaces.head? := by rw [hafter]; rfl
    have hspace : first ≠ ' ' := by simpa using head_dropWhile_eq hhead
    refine .inr ⟨c.spaces.length / indentWidth, first, tail, by omega, ?_, rfl, ?_, rfl, rfl⟩
    · rw [List.eq_replicate_iff]
      unfold indentWidth at haligned ⊢
      exact ⟨by omega, fun d hd => eq_of_beq (mem_spaces hd)⟩
    · rw [hafter] at hblank htab
      simp only [List.head?_cons, Option.all_some, endsBlank, Option.some.injEq] at hblank htab
      simp_all [Place.startsContent, isBlank]

/-! ## Strings and lexemes -/

theorem string_eq_ok {quote : Char} (h : c.string quote tail = .ok (ts, next)) :
    ∃ content after, tail = content ++ quote :: after ∧ quote ∉ content ∧
      ts = [c.token .string (.string (String.ofList content)) (quote :: content ++ [quote])] ∧
      next = c.pass (quote :: content ++ [quote]) after := by
  unfold string at h
  dsimp only at h
  split at h
  · cases h
  · rename_i last after hcut
    cases h
    have hhead : last ∈ (tail.dropWhile (· != quote)).head? := by rw [hcut]; rfl
    have hlast : last = quote := by simpa using head_dropWhile_eq hhead
    subst hlast
    refine ⟨_, after, ?_, ?_, rfl, rfl⟩
    · rw [← hcut, List.takeWhile_append_dropWhile]
    · intro hmem
      simpa using List.mem_takeWhile_imp hmem

theorem symbolOrWord_eq_ok (h : c.symbolOrWord first = .ok (ts, next)) :
    ∃ kind n value brackets, Lexeme.longest? c.rest = some (kind, n) ∧
      Lexeme.value? kind (c.rest.take n) = some value ∧
      bracketsAfter? c.brackets kind = some brackets ∧ ts = [c.token kind value (c.rest.take n)] ∧
      next = { c.pass (c.rest.take n) (c.rest.drop n) with brackets := brackets } := by
  unfold symbolOrWord at h
  split at h
  · cases h
  rename_i kind n hlongest
  dsimp only at h
  split at h
  · cases h
  rename_i value hvalue
  split at h
  · cases h
  rename_i brackets hbrackets
  cases h
  exact ⟨kind, n, value, brackets, hlongest, hvalue, hbrackets, rfl, rfl⟩

/-! ## What a step passes -/

/-- The step passes the lexeme, at whose start its tokens stand. -/
structure Passes (c : Cursor) (lexeme : List Char) (ts : List Token) (next : Cursor) : Prop where
  rest : c.rest = lexeme ++ next.rest
  position : next.position = c.position.advance lexeme
  tokens : ∀ t ∈ ts, t.position = c.position

theorem position_of_mem_levelTokens {level : Nat} {t : Token} (h : t ∈ c.levelTokens level) :
    t.position = c.position := by
  unfold levelTokens at h
  split at h
  · obtain rfl := List.mem_singleton.mp h
    rfl
  · rw [List.eq_of_mem_replicate h]
    rfl

theorem position_of_mem_spaceTokens {spaces : List Char} {t : Token} (h : t ∈ c.spaceTokens spaces) :
    t.position = c.position := by
  unfold spaceTokens at h
  split at h
  · cases h
  · obtain rfl := List.mem_singleton.mp h
    rfl

theorem passes_of_moves (hrest : c.rest = first :: tail) (h : c.Moves first tail ts next) :
    ∃ lexeme, c.Passes lexeme ts next := by
  cases h with
  | indentation _ _ h =>
    obtain ⟨level, -, rfl, rfl⟩ := indentation_eq_ok h
    refine ⟨c.spaces, List.takeWhile_append_dropWhile.symm, rfl, fun t ht => ?_⟩
    exact (List.mem_append.mp ht).elim position_of_mem_levelTokens position_of_mem_spaceTokens
  | lineEnd _ hfirst =>
    subst hfirst
    exact ⟨['\n'], hrest, rfl, fun t ht => List.mem_singleton.mp ht ▸ rfl⟩
  | blanks =>
    exact ⟨_, List.takeWhile_append_dropWhile.symm, rfl, fun t ht => List.mem_singleton.mp ht ▸ rfl⟩
  | comment => exact ⟨_, List.takeWhile_append_dropWhile.symm, rfl, List.forall_mem_nil _⟩
  | string _ _ h =>
    obtain ⟨content, after, rfl, -, rfl, rfl⟩ := string_eq_ok h
    exact ⟨first :: content ++ [first], by simp [hrest, pass], rfl,
      fun t ht => List.mem_singleton.mp ht ▸ rfl⟩
  | lexeme _ _ h =>
    obtain ⟨kind, n, value, brackets, -, -, -, rfl, rfl⟩ := symbolOrWord_eq_ok h
    exact ⟨c.rest.take n, (List.take_append_drop n c.rest).symm, rfl,
      fun t ht => List.mem_singleton.mp ht ▸ rfl⟩

/-! ## The tokens of a step -/

theorem isLayout_token {kind : TokenKind} {lexeme : List Char} (hkind : kind.isLexeme = false)
    (hstring : kind ≠ .string) : (c.token kind .none lexeme).IsLayout := ⟨rfl, hkind, hstring⟩

theorem isLayout_of_mem_levelTokens {level : Nat} {t : Token} (h : t ∈ c.levelTokens level) :
    t.IsLayout := by
  unfold levelTokens at h
  split at h
  · rw [List.mem_singleton.mp h]
    exact isLayout_token rfl (by decide)
  · rw [List.eq_of_mem_replicate h]
    exact isLayout_token rfl (by decide)

theorem isLayout_of_mem_spaceTokens {spaces : List Char} {t : Token} (h : t ∈ c.spaceTokens spaces) :
    t.IsLayout ∧ t.kind = .whitespace := by
  unfold spaceTokens at h
  split at h
  · cases h
  · rw [List.mem_singleton.mp h]
    exact ⟨isLayout_token rfl (by decide), rfl⟩

/-- A token is layout, with an indent only at the start of a line, or a string in quotes that it does
not contain, or a lexeme with its value. -/
theorem Moves.token_cases (h : c.Moves first tail ts next) {t : Token} (ht : t ∈ ts) :
    (t.IsLayout ∧ (t.kind = .indent → c.atLineStart = true ∧ c.brackets = [])) ∨
    (∃ content, t.kind = .string ∧ t.value = .string (String.ofList content) ∧
      ('"' ∉ content ∨ '\'' ∉ content)) ∨
    ∃ n, Lexeme.longest? c.rest = some (t.kind, n) ∧
      Lexeme.value? t.kind (c.rest.take n) = some t.value := by
  cases h with
  | indentation hstart hbrackets h =>
    obtain ⟨level, -, rfl, -⟩ := indentation_eq_ok h
    refine .inl ⟨?_, fun _ => ⟨hstart, hbrackets⟩⟩
    obtain ht | ht := List.mem_append.mp ht
    · exact isLayout_of_mem_levelTokens ht
    · exact (isLayout_of_mem_spaceTokens ht).1
  | lineEnd =>
    rw [List.mem_singleton.mp ht]
    unfold token
    refine .inl ⟨⟨rfl, ?_, ?_⟩, fun hkind => ?_⟩
    · split <;> rfl
    · split <;> nofun
    · split at hkind <;> cases hkind
  | blanks =>
    rw [List.mem_singleton.mp ht]
    exact .inl ⟨isLayout_token rfl (by decide), nofun⟩
  | comment => cases ht
  | string _ hquote h =>
    obtain ⟨content, after, -, hcontent, rfl, -⟩ := string_eq_ok h
    rw [List.mem_singleton.mp ht]
    refine .inr (.inl ⟨content, rfl, rfl, ?_⟩)
    rcases hquote with rfl | rfl
    · exact .inl hcontent
    · exact .inr hcontent
  | lexeme _ _ h =>
    obtain ⟨kind, n, value, brackets, hlongest, hvalue, -, rfl, -⟩ := symbolOrWord_eq_ok h
    rw [List.mem_singleton.mp ht]
    exact .inr (.inr ⟨n, hlongest, hvalue⟩)

theorem Moves.agree (h : c.Moves first tail ts next) : AllAgree ts := by
  intro t ht
  obtain ⟨hlayout, -⟩ | ⟨content, hkind, hvalue, -⟩ | ⟨n, hlongest, hvalue⟩ := h.token_cases ht
  · exact hlayout.agrees
  · show Terminal.Agrees ⟨t.kind, t.value⟩
    rw [hkind, hvalue]
    exact ⟨_, rfl⟩
  · exact Lexeme.agrees_of_value? (Lexeme.isLexeme_of_longest? hlongest) hvalue

/-- Only the first step of a line gives an indent. -/
theorem Moves.start_of_indent (h : c.Moves first tail ts next) {t : Token} (ht : t ∈ ts)
    (hkind : t.kind = .indent) : c.atLineStart = true ∧ c.brackets = [] := by
  obtain ⟨-, hstart⟩ | ⟨content, hstring, -⟩ | ⟨n, hlongest, -⟩ := h.token_cases ht
  · exact hstart hkind
  · cases hkind.symm.trans hstring
  · have hlexeme := Lexeme.isLexeme_of_longest? hlongest
    rw [hkind] at hlexeme
    cases hlexeme

theorem line_pass (c : Cursor) {lexeme : List Char} (h : '\n' ∉ lexeme) (rest : List Char) :
    (c.pass lexeme rest).position.line = c.position.line := by
  have hline := Text.Position.line_advance c.position lexeme
  rw [List.count_eq_zero.mpr h] at hline
  exact hline

/-- A step without terminals leaves the brackets alone, and outside of them it stays in the line. -/
theorem Moves.silent (h : c.Moves first tail ts next) (hts : terminals ts = []) :
    next.brackets = c.brackets ∧ (c.brackets = [] → next.position.line = c.position.line) := by
  cases h with
  | indentation _ _ h =>
    obtain ⟨level, -, -, rfl⟩ := indentation_eq_ok h
    exact ⟨rfl, fun _ => line_pass c (newline_notMem_takeWhile rfl _) c.afterSpaces⟩
  | lineEnd =>
    refine ⟨rfl, fun hbrackets => ?_⟩
    have hnewline : terminals (c.lineEnd tail).1 = [Terminal.word .newline] := by
      unfold Cursor.lineEnd
      rw [hbrackets]
      rfl
    rw [hnewline] at hts
    cases hts
  | blanks => exact ⟨rfl, fun _ => line_pass c (newline_notMem_takeWhile rfl _) _⟩
  | comment => exact ⟨rfl, fun _ => line_pass c (newline_notMem_takeWhile rfl _) _⟩
  | string _ _ h =>
    obtain ⟨content, after, -, -, rfl, -⟩ := string_eq_ok h
    rw [terminals_string] at hts
    cases hts
  | lexeme _ _ h =>
    obtain ⟨kind, n, value, brackets, hlongest, -, -, rfl, -⟩ := symbolOrWord_eq_ok h
    rw [terminals_token (Lexeme.ne_whitespace_of_longest? hlongest)] at hts
    cases hts

/-! ## Runs -/

/-- The steps that find all tokens of a text. -/
theorem scans_of_scan {found all : Array Token} (h : c.scan found = .ok all) :
    ∃ ts last, c.Scans ts last ∧ last.rest = [] ∧ all = found ++ ts ++ last.closing := by
  induction hn : c.remaining using Nat.strong_induction_on generalizing c found with
  | _ n ih =>
    cases hrest : c.rest with
    | nil =>
      rw [scan_of_end hrest] at h
      cases h
      exact ⟨[], c, .refl c, hrest, by simp⟩
    | cons first tail =>
      cases hstep : c.step first tail with
      | error e =>
        rw [scan_of_error hrest hstep] at h
        cases h
      | ok reached =>
        obtain ⟨ts, next⟩ := reached
        rw [scan_of_step hrest hstep] at h
        have hlt := step_remaining_lt hrest hstep
        obtain ⟨us, last, hscans, hend, rfl⟩ := ih _ (hn ▸ hlt) h rfl
        refine ⟨ts ++ us, last, .step hrest hstep hscans, hend, ?_⟩
        apply Array.ext'
        simp

theorem Scans.passes (h : c.Scans ts last) :
    ∃ text, c.rest = text ++ last.rest ∧ last.position = c.position.advance text := by
  induction h with
  | refl => exact ⟨[], rfl, rfl⟩
  | step hrest hstep _ ih =>
    obtain ⟨text, hmid, hlast⟩ := ih
    obtain ⟨lexeme, hpasses⟩ := passes_of_moves hrest (moves_of_step hstep)
    refine ⟨lexeme ++ text, ?_, ?_⟩
    · rw [List.append_assoc, ← hmid, hpasses.rest]
    · rw [Text.Position.advance_append, ← hpasses.position, hlast]

/-- Where a run to the end passes a cursor, the rest of it begins there. -/
theorem Scans.split (h : c.Scans ts mid) (hall : c.Scans us last) (hend : last.rest = []) :
    ∃ vs, us = ts ++ vs ∧ mid.Scans vs last := by
  induction h generalizing us with
  | refl => exact ⟨us, rfl, hall⟩
  | step hrest hstep _ ih =>
    cases hall with
    | refl =>
      rw [hend] at hrest
      cases hrest
    | step hrest' hstep' hall =>
      obtain ⟨rfl, rfl⟩ := List.cons.inj (hrest.symm.trans hrest')
      obtain ⟨rfl, rfl⟩ := Prod.mk.inj (Except.ok.inj (hstep.symm.trans hstep'))
      obtain ⟨vs, rfl, hrun⟩ := ih hall
      exact ⟨vs, (List.append_assoc ..).symm, hrun⟩

theorem Scans.agree (h : c.Scans ts last) : AllAgree ts := by
  induction h with
  | refl => exact List.forall_mem_nil _
  | step _ hstep _ ih =>
    rw [Grammar.allAgree_append]
    exact ⟨(moves_of_step hstep).agree, ih⟩

theorem Passes.line_eq {lexeme : List Char} (h : c.Passes lexeme ts next) :
    next.position.line = c.position.line + lexeme.count '\n' := by
  rw [h.position, Text.Position.line_advance]

/-- The tokens of a run stand in the lines that it passes. -/
theorem Scans.line_mem (h : c.Scans ts last) {t : Token} (ht : t ∈ ts) :
    c.position.line ≤ t.position.line ∧ t.position.line ≤ last.position.line := by
  induction h with
  | refl => cases ht
  | @step c mid last first tail ts us hrest hstep hscans ih =>
    obtain ⟨lexeme, hpasses⟩ := passes_of_moves hrest (moves_of_step hstep)
    have hmid := hpasses.line_eq
    obtain ⟨text, -, hlast⟩ := hscans.passes
    have hline := congrArg Text.Position.line hlast
    rw [Text.Position.line_advance] at hline
    obtain ht | ht := List.mem_append.mp ht
    · rw [hpasses.tokens t ht]
      omega
    · have := ih ht
      omega

/-! ## Indents -/

/-- An indent that comes first stands in the line where the run begins, outside all brackets. -/
theorem Scans.line_of_indent (h : c.Scans ts last)
    (hhead : (terminals ts).head? = some (Terminal.word .indent)) :
    c.brackets = [] ∧ ∃ t ∈ ts, t.kind = .indent ∧ t.position.line = c.position.line := by
  induction h with
  | refl => cases hhead
  | @step c mid last first tail ts us hrest hstep _ ih =>
    have hmoves := moves_of_step hstep
    obtain ⟨lexeme, hpasses⟩ := passes_of_moves hrest hmoves
    rw [terminals_append] at hhead
    by_cases hts : terminals ts = []
    · rw [hts, List.nil_append] at hhead
      obtain ⟨hbrackets, t, ht, hkind, hline⟩ := ih hhead
      obtain ⟨hmid, hstays⟩ := hmoves.silent hts
      have hopen : c.brackets = [] := hmid ▸ hbrackets
      exact ⟨hopen, t, List.mem_append_right _ ht, hkind, hline.trans (hstays hopen)⟩
    · obtain ⟨a, rest, hcons⟩ := List.exists_cons_of_ne_nil hts
      rw [hcons] at hhead
      obtain rfl : a = Terminal.word .indent := Option.some.inj hhead
      have hmem : Terminal.word .indent ∈ terminals ts := hcons ▸ List.mem_cons_self
      obtain ⟨t, ht, hword⟩ := List.mem_map.mp hmem
      have ht' := List.mem_of_mem_filter ht
      have hkind : t.kind = .indent := congrArg Terminal.kind hword
      exact ⟨(hmoves.start_of_indent ht' hkind).2, t, List.mem_append_left _ ht', hkind,
        congrArg _ (hpasses.tokens t ht')⟩

/-- A step leads into the line, or to the next one. -/
theorem Moves.inside_or_next (h : c.Moves first tail ts next) :
    next.IsInside ∨ next.position.line = c.position.line + 1 := by
  cases h with
  | indentation _ _ h =>
    obtain ⟨level, -, -, rfl⟩ := indentation_eq_ok h
    exact .inl (isInside_of_inLine rfl)
  | lineEnd => exact .inr rfl
  | blanks => exact .inl (isInside_of_inLine rfl)
  | comment => exact .inl (isInside_of_inLine rfl)
  | string _ _ h =>
    obtain ⟨content, after, -, -, -, rfl⟩ := string_eq_ok h
    exact .inl (isInside_of_inLine rfl)
  | lexeme _ _ h =>
    obtain ⟨kind, n, value, brackets, -, -, -, -, rfl⟩ := symbolOrWord_eq_ok h
    exact .inl (isInside_of_inLine rfl)

/-- From within a line on, indents stand in later lines. -/
theorem Scans.line_lt_of_indent (h : c.Scans ts last) (hinside : c.IsInside) {t : Token}
    (ht : t ∈ ts) (hkind : t.kind = .indent) : c.position.line < t.position.line := by
  induction h with
  | refl => cases ht
  | @step c mid last first tail ts us hrest hstep hscans ih =>
    have hmoves := moves_of_step hstep
    obtain ⟨lexeme, hpasses⟩ := passes_of_moves hrest hmoves
    obtain ht | ht := List.mem_append.mp ht
    · obtain ⟨hstart, hbrackets⟩ := hmoves.start_of_indent ht hkind
      exact absurd hbrackets (hinside hstart)
    · have hmid := hpasses.line_eq
      obtain hnext | hnext := hmoves.inside_or_next
      · have := ih hnext ht
        omega
      · have := (hscans.line_mem ht).1
        omega

theorem head_levelTokens {level : Nat} {t : Token} (ht : t ∈ c.levelTokens level)
    (hkind : t.kind = .indent) :
    (terminals (c.levelTokens level)).head? = some (Terminal.word .indent) := by
  unfold levelTokens at ht ⊢
  split at ht
  · rename_i hlevel
    rw [if_pos hlevel]
    rfl
  · rw [List.eq_of_mem_replicate ht] at hkind
    cases hkind

/-- An indent in the line that the run begins with comes first. -/
theorem Scans.head_of_indent (h : c.Scans ts last) (hstart : c.atLineStart = true) {t : Token}
    (ht : t ∈ ts) (hkind : t.kind = .indent) (hline : t.position.line = c.position.line) :
    c.brackets = [] ∧ (terminals ts).head? = some (Terminal.word .indent) := by
  by_cases hbrackets : c.brackets = []
  · refine ⟨hbrackets, ?_⟩
    cases h with
    | refl => cases ht
    | @step _ mid _ first tail ts us hrest hstep hscans =>
      unfold Cursor.step at hstep
      rw [hstart, hbrackets] at hstep
      obtain ⟨level, -, rfl, rfl⟩ := indentation_eq_ok hstep
      rw [List.append_assoc, List.mem_append, List.mem_append] at ht
      obtain ht | ht | ht := ht
      · rw [List.append_assoc, terminals_append, List.head?_append, head_levelTokens ht hkind]
        rfl
      · cases hkind.symm.trans (isLayout_of_mem_spaceTokens ht).2
      · have hlater := hscans.line_lt_of_indent nofun ht hkind
        have hstays : (c.pass c.spaces c.afterSpaces).position.line = c.position.line :=
          line_pass c (newline_notMem_takeWhile rfl c.rest) _
        exact absurd (hlater.trans_eq hline) hstays.not_lt
  · have := h.line_lt_of_indent (fun _ => hbrackets) ht hkind
    omega

theorem mem_closing {t : Token} (h : t ∈ c.closing) : t.IsLayout ∧ t.kind ≠ .indent := by
  simp only [closing, List.cons_append, List.mem_cons, List.mem_append, List.not_mem_nil,
    or_false] at h
  obtain rfl | h | rfl := h
  · exact ⟨isLayout_token rfl (by decide), show TokenKind.newline ≠ .indent by decide⟩
  · rw [List.eq_of_mem_replicate h]
    exact ⟨isLayout_token rfl (by decide), show TokenKind.dedent ≠ .indent by decide⟩
  · exact ⟨isLayout_token rfl (by decide), show TokenKind.endOfFile ≠ .indent by decide⟩

end Cursor

/-! ## Whole texts -/

theorem scans_of_tokens {text : String} {ts : List Token} (h : tokens text = .ok ts) :
    ∃ us last, (Cursor.ofText text.toList).Scans us last ∧ last.rest = [] ∧
      ts = us ++ last.closing := by
  rw [tokens_eq_scan] at h
  cases hscan : (Cursor.ofText text.toList).scan #[] with
  | error e =>
    rw [hscan] at h
    cases h
  | ok all =>
    rw [hscan] at h
    cases h
    obtain ⟨us, last, hscans, hend, rfl⟩ := Cursor.scans_of_scan hscan
    exact ⟨us, last, hscans, hend, by simp⟩

/-- The tokens of a text have the values of their kinds. -/
theorem tokens_agree {text : String} {ts : List Token} (h : tokens text = .ok ts) :
    AllAgree ts := by
  obtain ⟨us, last, hscans, -, rfl⟩ := scans_of_tokens h
  rw [Grammar.allAgree_append]
  exact ⟨hscans.agree, fun t ht => (Cursor.mem_closing ht).1.agrees⟩

end Offside
