import Offside.Token.Cursor

/-!
# Cutting a text into tokens

The lexer knows its place in a text by the bytes that are left, and the column by the bytes before
the line. Every length and every place is a number of bytes: a subtraction below zero, or a cut
that is not between two characters, is out of bounds and ends the run.
-/

namespace Offside

open Text

/-- Why there are no tokens. -/
inductive Halt where
  | refused (e : LexicalError)
  /-- A subtraction below zero, or a cut that is not between two characters of the text. -/
  | outOfBounds

/-- What is cut into tokens, what has been found, and the bookkeeping for lines and levels. -/
structure Lexer where
  text : List Char
  rest : List Char
  line : Nat
  /-- The number of bytes before the line. -/
  lineStart : Nat
  level : Nat
  /-- The opening brackets not closed yet, the innermost first. -/
  brackets : List Char
  found : Array Token

namespace Lexer

def ofText (text : List Char) : Lexer := ⟨text, text, 1, 0, 0, [], #[]⟩

/-! ## Bytes -/

def subtract (m n : Nat) : Except Halt Nat := if n ≤ m then .ok (m - n) else .error .outOfBounds

/-- The first `n` bytes of a text, and the others. -/
def cut (text : List Char) (n : Nat) : Except Halt (List Char × List Char) :=
  match cut? text n with
  | some parts => .ok parts
  | none => .error .outOfBounds

/-- The number of bytes before the place of the lexer. -/
def offset (t : Lexer) : Except Halt Nat := subtract (byteSize t.text) (byteSize t.rest)

/-! ## Moving on -/

def span (t : Lexer) : Except Halt Position := do
  let column ← subtract (← t.offset) t.lineStart
  return ⟨t.line, column + 1⟩

def advance (t : Lexer) (length : Nat) : Except Halt Lexer := do
  let (_, rest) ← cut t.rest length
  return { t with rest }

/-- Adds the token of the next bytes. -/
def push (t : Lexer) (kind : TokenKind) (value : TokenValue) (length : Nat) :
    Except Halt Lexer := do
  let position ← t.span
  let (lexeme, _) ← cut t.rest length
  advance { t with found := t.found.push ⟨kind, value, String.ofList lexeme, position⟩ } length

/-- Begins a line at the place of the lexer. -/
def newline (t : Lexer) : Except Halt Lexer := do
  return { t with line := t.line + 1, lineStart := ← t.offset }

/-! ## The start of a line -/

def indent (t : Lexer) (level : Nat) : Except Halt Lexer :=
  if level = t.level + 1 then t.push .indent .none 0 else return t

def dedents (t : Lexer) : Nat → Except Halt Lexer
  | 0 => return t
  | count + 1 => do (← t.push .dedent .none 0).dedents count

def toLevel (t : Lexer) (level : Nat) : Except Halt Lexer := do
  let leveled ← (← t.indent level).dedents (t.level - level)
  return { leveled with level }

def spaces (t : Lexer) (count : Nat) : Except Halt Lexer :=
  if 0 < count then t.push .whitespace .none count else return t

/-- Reads the spaces that a line starts with. A line that holds nothing else or a comment leaves the
level as it is, as the character after the spaces tells. -/
def indentation (t : Lexer) : Except Halt Lexer := do
  let count := (t.rest.takeWhile (· == ' ')).length
  let (_, after) ← cut t.rest count
  match after with
  | [] | '\n' :: _ | '\r' :: _ | '#' :: _ => t.spaces count
  | '\t' :: _ => throw (.refused (.tabIndentation t.line))
  | _ =>
    let level := count / indentWidth
    if count % indentWidth ≠ 0 then throw (.refused (.misalignedIndentation count t.line))
    else if t.level + 1 < level then throw (.refused (.indentTooDeep t.line))
    else (← t.toLevel level).spaces count

/-! ## Inside a line -/

/-- A string runs to the next quote of its kind. The line where it ends begins after the last line
end in it. -/
def string (t : Lexer) (quote : Char) : Except Halt Lexer := do
  let start ← t.offset
  let position ← t.span
  let (_, body) ← cut t.rest 1
  match find? quote body with
  | none => throw (.refused (.unterminatedString t.line))
  | some stop =>
    let (content, _) ← cut body stop
    let length := stop + 2
    let (lexeme, _) ← cut t.rest length
    let token : Token := ⟨.string, .string (String.ofList content), String.ofList lexeme, position⟩
    let found := t.found.push token
    match findLast? '\n' content with
    | none => advance { t with found } length
    | some last =>
      let line := t.line + content.count '\n'
      advance { t with found, line, lineStart := start + 1 + last + 1 } length

/-- The bracket that a closing bracket closes. -/
def opener : Char → Char
  | ')' => '('
  | ']' => '['
  | _ => '\x7b'

/-- Opens or closes the bracket that a token is, of which `first` is the lexeme. -/
def nest (t : Lexer) (kind : TokenKind) (first : Char) : Except Halt Lexer :=
  match kind with
  | .openParen | .openBracket | .openBrace => return { t with brackets := first :: t.brackets }
  | .closeParen | .closeBracket | .closeBrace =>
    if t.brackets.head? = some (opener first) then return { t with brackets := t.brackets.tail }
    else throw (.refused (.unmatchedBracket first t.line))
  | _ => return t

/-- Reads what the race of the scanners finds. -/
def symbolOrWord (t : Lexer) (first : Char) : Except Halt Lexer :=
  match Lexeme.race Lexeme.scanners t.rest with
  | none => throw (.refused (.unexpectedCharacter first t.line))
  | some (kind, rest) => do
    let length ← subtract (byteSize t.rest) (byteSize rest)
    let (lexeme, _) ← cut t.rest length
    match Lexeme.value? kind lexeme with
    | none => throw (.refused (.integerOutOfRange (String.ofList lexeme) t.line))
    | some value => (← t.nest kind first).push kind value length

/-! ## The whole text -/

/-- Reads what stands at the place of the lexer, of which `first` is the first character. With the
lexer comes whether it stands at the start of a line. -/
def step (t : Lexer) (atLineStart : Bool) (first : Char) : Except Halt (Lexer × Bool) := do
  if atLineStart && t.brackets.isEmpty then return (← t.indentation, false)
  match first with
  | '\n' =>
    let kind := if t.brackets.isEmpty then .newline else .whitespace
    return (← (← t.push kind .none 1).newline, true)
  | ' ' | '\t' | '\r' =>
    return (← t.push .whitespace .none (byteSize (t.rest.takeWhile Cursor.isBlank)), false)
  | '#' => return (← t.advance (byteSize (t.rest.takeWhile (· != '\n'))), false)
  | '"' | '\'' => return (← t.string first, false)
  | _ => return (← t.symbolOrWord first, false)

/-! ## Bytes taken -/

variable {t next last : Lexer} {m n : Nat} {first : Char} {tail : List Char}
  {atLineStart atLineStart' : Bool}

theorem bind_eq_ok {α β : Type} {x : Except Halt α} {f : α → Except Halt β} {b : β} :
    (x >>= f) = .ok b ↔ ∃ a, x = .ok a ∧ f a = .ok b := by
  cases x with
  | error e => exact iff_of_false nofun nofun
  | ok a => exact ⟨fun h => ⟨a, rfl, h⟩, fun ⟨_, ha, h⟩ => Except.ok.inj ha ▸ h⟩

/-- Bytes are taken from the front, so many of them. -/
def Takes (t : Lexer) (n : Nat) (next : Lexer) : Prop :=
  ∃ lexeme, t.rest = lexeme ++ next.rest ∧ byteSize lexeme = n

theorem Takes.refl (t : Lexer) : t.Takes 0 t := ⟨[], rfl, rfl⟩

theorem Takes.trans (h : t.Takes m next) (h' : next.Takes n last) : t.Takes (m + n) last := by
  obtain ⟨a, ha, rfl⟩ := h
  obtain ⟨b, hb, rfl⟩ := h'
  exact ⟨a ++ b, by rw [ha, hb, List.append_assoc], byteSize_append⟩

theorem takes_advance (h : t.advance n = .ok next) : t.Takes n next := by
  unfold advance at h
  obtain ⟨⟨lexeme, rest⟩, hcut, h⟩ := bind_eq_ok.mp h
  cases h
  unfold cut at hcut
  split at hcut
  · rename_i hparts
    cases hcut
    exact ⟨lexeme, cut?_eq_some hparts⟩
  · cases hcut

theorem takes_push {kind : TokenKind} {value : TokenValue} (h : t.push kind value n = .ok next) :
    t.Takes n next := by
  unfold push at h
  obtain ⟨position, -, h⟩ := bind_eq_ok.mp h
  obtain ⟨⟨lexeme, rest⟩, -, h⟩ := bind_eq_ok.mp h
  have htakes := takes_advance h
  exact htakes

theorem takes_indent (h : t.indent n = .ok next) : t.Takes 0 next := by
  unfold indent at h
  split at h
  · exact takes_push h
  · cases h
    exact .refl t

theorem takes_dedents (h : t.dedents n = .ok next) : t.Takes 0 next := by
  induction n generalizing t with
  | zero =>
    cases h
    exact .refl _
  | succ n ih =>
    unfold dedents at h
    obtain ⟨mid, hmid, h⟩ := bind_eq_ok.mp h
    exact (takes_push hmid).trans (ih h)

theorem takes_toLevel (h : t.toLevel n = .ok next) : t.Takes 0 next := by
  unfold toLevel at h
  obtain ⟨indented, hindented, h⟩ := bind_eq_ok.mp h
  obtain ⟨leveled, hdedents, h⟩ := bind_eq_ok.mp h
  cases h
  exact (takes_indent hindented).trans (takes_dedents hdedents)

theorem takes_spaces (h : t.spaces n = .ok next) : t.Takes n next := by
  unfold spaces at h
  split at h
  · exact takes_push h
  · obtain rfl : n = 0 := by omega
    cases h
    exact .refl t

theorem takes_indentation (h : t.indentation = .ok next) : ∃ n, t.Takes n next := by
  unfold indentation at h
  obtain ⟨⟨_, after⟩, -, h⟩ := bind_eq_ok.mp h
  dsimp only at h
  split at h
  case h_1 | h_2 | h_3 | h_4 => exact ⟨_, takes_spaces h⟩
  · cases h
  · split at h
    · cases h
    split at h
    · cases h
    obtain ⟨leveled, hleveled, h⟩ := bind_eq_ok.mp h
    exact ⟨_, (takes_toLevel hleveled).trans (takes_spaces h)⟩

theorem takes_string (h : t.string first = .ok next) : ∃ n, 0 < n ∧ t.Takes n next := by
  unfold string at h
  obtain ⟨start, -, h⟩ := bind_eq_ok.mp h
  obtain ⟨position, -, h⟩ := bind_eq_ok.mp h
  obtain ⟨⟨_, body⟩, -, h⟩ := bind_eq_ok.mp h
  dsimp only at h
  split at h
  · cases h
  obtain ⟨⟨content, _⟩, -, h⟩ := bind_eq_ok.mp h
  obtain ⟨⟨lexeme, _⟩, -, h⟩ := bind_eq_ok.mp h
  dsimp only at h
  split at h
  all_goals
    have htakes := takes_advance h
    exact ⟨_, Nat.succ_pos _, htakes⟩

theorem rest_nest {kind : TokenKind} (h : t.nest kind first = .ok next) : next.rest = t.rest := by
  unfold nest at h
  split at h
  case h_4 | h_5 | h_6 =>
    split at h
    · cases h
      rfl
    · cases h
  all_goals
    cases h
    rfl

theorem takes_symbolOrWord (h : t.symbolOrWord first = .ok next) : ∃ n, 0 < n ∧ t.Takes n next := by
  unfold symbolOrWord at h
  split at h
  · cases h
  rename_i kind rest hrace
  obtain ⟨length, hlength, h⟩ := bind_eq_ok.mp h
  obtain ⟨⟨lexeme, _⟩, -, h⟩ := bind_eq_ok.mp h
  dsimp only at h
  split at h
  · cases h
  obtain ⟨nested, hnested, h⟩ := bind_eq_ok.mp h
  have hshorter := Lexeme.byteSize_lt_of_race hrace
  unfold subtract at hlength
  split at hlength
  · cases hlength
    refine ⟨_, Nat.sub_pos_of_lt hshorter, ?_⟩
    have htakes := takes_push h
    rwa [Takes, rest_nest hnested] at htakes
  · cases hlength

/-- A step takes a byte, or it leaves the start of a line. -/
theorem takes_step (hrest : t.rest = first :: tail)
    (h : t.step atLineStart first = .ok (next, atLineStart')) :
    ∃ n, t.Takes n next ∧ (0 < n ∨ atLineStart = true ∧ atLineStart' = false) := by
  have hrun (p : Char → Bool) (hp : p first = true) : 0 < byteSize (t.rest.takeWhile p) := by
    rw [hrest, List.takeWhile_cons_of_pos hp]
    exact byteSize_pos (List.cons_ne_nil _ _)
  unfold step at h
  split at h
  · rename_i hstart
    obtain ⟨mid, hmid, h⟩ := bind_eq_ok.mp h
    cases h
    obtain ⟨n, htakes⟩ := takes_indentation hmid
    exact ⟨n, htakes, .inr ⟨(Bool.and_eq_true_iff.mp hstart).1, rfl⟩⟩
  split at h
  · obtain ⟨pushed, hpushed, h⟩ := bind_eq_ok.mp h
    obtain ⟨mid, hmid, h⟩ := bind_eq_ok.mp h
    cases h
    obtain ⟨lineStart, -, h⟩ := bind_eq_ok.mp hmid
    cases h
    have htakes := takes_push hpushed
    exact ⟨1, htakes, .inl Nat.one_pos⟩
  case h_2 | h_3 | h_4 =>
    obtain ⟨mid, hmid, h⟩ := bind_eq_ok.mp h
    cases h
    exact ⟨_, takes_push hmid, .inl (hrun Cursor.isBlank rfl)⟩
  · obtain ⟨mid, hmid, h⟩ := bind_eq_ok.mp h
    cases h
    exact ⟨_, takes_advance hmid, .inl (hrun (· != '\n') rfl)⟩
  case h_6 | h_7 =>
    obtain ⟨mid, hmid, h⟩ := bind_eq_ok.mp h
    cases h
    obtain ⟨n, hpos, htakes⟩ := takes_string hmid
    exact ⟨n, htakes, .inl hpos⟩
  · obtain ⟨mid, hmid, h⟩ := bind_eq_ok.mp h
    cases h
    obtain ⟨n, hpos, htakes⟩ := takes_symbolOrWord hmid
    exact ⟨n, htakes, .inl hpos⟩

/-- Each step takes a byte or leaves the start of a line. -/
def remaining (t : Lexer) (atLineStart : Bool) : Nat := 2 * t.rest.length + atLineStart.toNat

theorem remaining_lt (hrest : t.rest = first :: tail)
    (h : t.step atLineStart first = .ok (next, atLineStart')) :
    next.remaining atLineStart' < t.remaining atLineStart := by
  obtain ⟨n, ⟨lexeme, hlexeme, rfl⟩, hcase⟩ := takes_step hrest h
  have hlength := congrArg List.length hlexeme
  rw [List.length_append] at hlength
  unfold remaining
  obtain hpos | ⟨rfl, rfl⟩ := hcase
  · have hne : 0 < lexeme.length := by
      rw [List.length_pos_iff]
      rintro rfl
      exact Nat.lt_irrefl 0 hpos
    have := atLineStart'.toNat_le
    omega
  · rw [Bool.toNat_false, Bool.toNat_true]
    omega

/-- Steps until the text ends. -/
def loop (t : Lexer) (atLineStart : Bool) : Except Halt Lexer :=
  match _hrest : t.rest with
  | [] => return t
  | first :: _ =>
    match _hstep : t.step atLineStart first with
    | .error e => .error e
    | .ok (next, atLineStart') => next.loop atLineStart'
termination_by t.remaining atLineStart
decreasing_by apply remaining_lt <;> assumption

/-- Adds the layout tokens at the end of the text. -/
def close (t : Lexer) : Except Halt Lexer := do
  let closed ← (← t.push .newline .none 0).dedents t.level
  { closed with level := 0 }.push .endOfFile .none 0

def run (text : List Char) : Except Halt Lexer := do (← (ofText text).loop true).close

end Lexer

end Offside
