import Offside.Token.Longest

/-!
# Cursors

A cursor reads a text from left to right, with the position that it has moved to character by
character, the level of indentation and the brackets that are open. The spaces at the start of a
line decide the level, but not inside brackets and not on a line that holds nothing else or only a
comment. The lexer keeps books in bytes instead, and finds the tokens that the cursor does.
-/

namespace Offside

open Text

structure Cursor where
  rest : List Char
  position : Position
  level : Nat
  /-- The opening brackets not closed yet, the innermost first. -/
  brackets : List Char
  /-- Whether the last character read was a line end, or nothing has been read. -/
  atLineStart : Bool

namespace Cursor

def ofText (text : List Char) : Cursor := ⟨text, .start, 0, [], true⟩

/-- The token that starts at the cursor. -/
def token (c : Cursor) (kind : TokenKind) (value : TokenValue) (lexeme : List Char) : Token :=
  ⟨kind, value, String.ofList lexeme, c.position⟩

/-- Moves past a lexeme, up to the given rest. -/
def pass (c : Cursor) (lexeme rest : List Char) : Cursor :=
  { c with rest := rest, position := c.position.advance lexeme, atLineStart := false }

/-! ## The start of a line -/

/-- The tokens that lead from one level of indentation to another. -/
def levelTokens (c : Cursor) (level : Nat) : List Token :=
  if c.level < level then [c.token .indent .none []]
  else List.replicate (c.level - level) (c.token .dedent .none [])

def spaceTokens (c : Cursor) (spaces : List Char) : List Token :=
  if spaces.isEmpty then [] else [c.token .whitespace .none spaces]

/-- Reads the spaces that a line starts with. -/
def indentation (c : Cursor) : Except LexicalError (List Token × Cursor) :=
  let spaces := c.rest.takeWhile (· == ' ')
  let rest := c.rest.dropWhile (· == ' ')
  let blank := .ok (c.spaceTokens spaces, c.pass spaces rest)
  match rest with
  | [] | '\n' :: _ | '\r' :: _ | '#' :: _ => blank
  | '\t' :: _ => .error (.tabIndentation c.position.line)
  | _ =>
    let level := spaces.length / indentWidth
    if spaces.length % indentWidth ≠ 0 then
      .error (.misalignedIndentation spaces.length c.position.line)
    else if c.level + 1 < level then .error (.indentTooDeep c.position.line)
    else
      .ok (c.levelTokens level ++ c.spaceTokens spaces, { c.pass spaces rest with level := level })

/-! ## Inside a line -/

def isBlank (c : Char) : Bool := c == ' ' || c == '\t' || c == '\r'

def lineEnd (c : Cursor) (rest : List Char) : List Token × Cursor :=
  let kind := if c.brackets.isEmpty then .newline else .whitespace
  ([c.token kind .none ['\n']], { c.pass ['\n'] rest with atLineStart := true })

def blanks (c : Cursor) : List Token × Cursor :=
  let run := c.rest.takeWhile isBlank
  ([c.token .whitespace .none run], c.pass run (c.rest.dropWhile isBlank))

/-- A comment gives no token and ends before the line does. -/
def comment (c : Cursor) : List Token × Cursor :=
  ([], c.pass (c.rest.takeWhile (· != '\n')) (c.rest.dropWhile (· != '\n')))

/-- A string runs to the next quote of its kind, across lines if need be. -/
def string (c : Cursor) (quote : Char) (rest : List Char) :
    Except LexicalError (List Token × Cursor) :=
  let content := rest.takeWhile (· != quote)
  match rest.dropWhile (· != quote) with
  | [] => .error (.unterminatedString c.position.line)
  | _ :: rest =>
    let lexeme := quote :: content ++ [quote]
    .ok ([c.token .string (.string (String.ofList content)) lexeme], c.pass lexeme rest)

def opener? : TokenKind → Option Char
  | .openParen => some '('
  | .openBracket => some '['
  | .openBrace => some '\x7b'
  | _ => none

/-- The bracket that a closing bracket closes. -/
def closes? : TokenKind → Option Char
  | .closeParen => some '('
  | .closeBracket => some '['
  | .closeBrace => some '\x7b'
  | _ => none

/-- The brackets that are open after a token of this kind, unless it closes none of them. -/
def bracketsAfter? (brackets : List Char) (kind : TokenKind) : Option (List Char) :=
  match opener? kind, closes? kind with
  | some opener, _ => some (opener :: brackets)
  | none, none => some brackets
  | none, some opener =>
    match brackets with
    | innermost :: outer => if innermost = opener then some outer else none
    | [] => none

def symbolOrWord (c : Cursor) (first : Char) : Except LexicalError (List Token × Cursor) :=
  match Lexeme.longest? c.rest with
  | none => .error (.unexpectedCharacter first c.position.line)
  | some (kind, n) =>
    let lexeme := c.rest.take n
    match Lexeme.value? kind lexeme with
    | none => .error (.integerOutOfRange (String.ofList lexeme) c.position.line)
    | some value =>
      match bracketsAfter? c.brackets kind with
      | none => .error (.unmatchedBracket first c.position.line)
      | some brackets =>
        .ok ([c.token kind value lexeme], { c.pass lexeme (c.rest.drop n) with brackets := brackets })

/-! ## The whole text -/

/-- Reads what stands at the cursor, of which `first` and `tail` are the rest. -/
def step (c : Cursor) (first : Char) (tail : List Char) :
    Except LexicalError (List Token × Cursor) :=
  if c.atLineStart && c.brackets.isEmpty then c.indentation
  else
    match first with
    | '\n' => .ok (c.lineEnd tail)
    | ' ' | '\t' | '\r' => .ok c.blanks
    | '#' => .ok c.comment
    | '"' | '\'' => c.string first tail
    | _ => c.symbolOrWord first

/-- The layout tokens at the end of the text. -/
def closing (c : Cursor) : List Token :=
  c.token .newline .none [] :: List.replicate c.level (c.token .dedent .none [])
    ++ [c.token .endOfFile .none []]

/-- Each step reads a character or leaves the start of a line. -/
def remaining (c : Cursor) : Nat := 2 * c.rest.length + c.atLineStart.toNat

theorem remaining_pass_lt (c : Cursor) (lexeme rest : List Char)
    (h : rest.length < c.rest.length) : (c.pass lexeme rest).remaining < c.remaining := by
  simp only [remaining, pass, Bool.toNat_false]
  omega

theorem indentation_remaining_lt {c next : Cursor} {tokens : List Token}
    (hs : c.atLineStart = true) (h : c.indentation = .ok (tokens, next)) :
    next.remaining < c.remaining := by
  have hle := (List.dropWhile_sublist (l := c.rest) (· == ' ')).length_le
  have hafter {d : Cursor} (hrest : d.rest = c.rest.dropWhile (· == ' '))
      (hd : d.atLineStart = false) : d.remaining < c.remaining := by
    simp only [remaining, hrest, hd, hs, Bool.toNat_false, Bool.toNat_true]
    omega
  unfold indentation at h
  simp only at h
  split at h
  case h_1 | h_2 | h_3 | h_4 =>
    cases h
    exact hafter rfl rfl
  · cases h
  · split at h
    · cases h
    · split at h
      · cases h
      · cases h
        exact hafter rfl rfl

theorem string_remaining_lt {c next : Cursor} {quote : Char} {rest : List Char}
    {tokens : List Token} (hc : c.rest = quote :: rest)
    (h : c.string quote rest = .ok (tokens, next)) : next.remaining < c.remaining := by
  unfold string at h
  simp only at h
  split at h
  · simp at h
  · rename_i rest' hrest
    cases h
    have hle := (List.dropWhile_sublist (l := rest) (· != quote)).length_le
    rw [hrest, List.length_cons] at hle
    exact remaining_pass_lt _ _ _ (by simp [hc]; omega)

theorem symbolOrWord_remaining_lt {c next : Cursor} {first : Char} {tail : List Char}
    {tokens : List Token} (hc : c.rest = first :: tail)
    (h : c.symbolOrWord first = .ok (tokens, next)) : next.remaining < c.remaining := by
  unfold symbolOrWord at h
  split at h
  · simp at h
  · rename_i kind n hn
    have hpos := Lexeme.length_pos_of_longest? hn
    simp only at h
    split at h
    · simp at h
    · split at h
      · simp at h
      · cases h
        have hlt := remaining_pass_lt c (c.rest.take n) (c.rest.drop n) (by simp [hc]; omega)
        exact hlt

theorem step_remaining_lt {c next : Cursor} {first : Char} {tail : List Char} {tokens : List Token}
    (hc : c.rest = first :: tail) (h : c.step first tail = .ok (tokens, next)) :
    next.remaining < c.remaining := by
  unfold step at h
  split at h
  · rename_i hs
    simp only [Bool.and_eq_true] at hs
    exact indentation_remaining_lt hs.1 h
  have hrun (p : Char → Bool) (hp : p first = true) :
      (c.rest.dropWhile p).length < c.rest.length := by
    have := (List.dropWhile_sublist (l := tail) p).length_le
    simp [hc, List.dropWhile_cons_of_pos hp]
    omega
  split at h
  · cases h
    simp [remaining, pass, hc]
    omega
  case h_2 | h_3 | h_4 =>
    cases h
    exact remaining_pass_lt _ _ _ (hrun isBlank rfl)
  · cases h
    exact remaining_pass_lt _ _ _ (hrun (· != '\n') rfl)
  case h_6 | h_7 => exact string_remaining_lt hc h
  · exact symbolOrWord_remaining_lt hc h

/-- All tokens from the cursor on, after those already found. -/
def scan (c : Cursor) (found : Array Token) : Except LexicalError (Array Token) :=
  match _hc : c.rest with
  | [] => .ok (found ++ c.closing)
  | first :: tail =>
    match _h : c.step first tail with
    | .error e => .error e
    | .ok (tokens, next) => next.scan (found ++ tokens)
termination_by c.remaining
decreasing_by apply step_remaining_lt <;> assumption

variable {c mid : Cursor} {ts : List Token}

theorem scan_of_end (hend : c.rest = []) (found : Array Token) :
    c.scan found = .ok (found ++ c.closing) := by
  rw [scan.eq_def]
  split
  · rfl
  · rename_i hrest
    rw [hend] at hrest
    cases hrest

section

variable {first : Char} {tail : List Char} (hrest : c.rest = first :: tail)
include hrest

/-- Scanning is a step and then the scanning of what the step leaves. -/
theorem scan_of_cons (found : Array Token) :
    c.scan found = (c.step first tail).bind fun (ts, next) => next.scan (found ++ ts) := by
  rw [scan.eq_def]
  split
  · rename_i hend
    rw [hrest] at hend
    cases hend
  · rename_i hcons
    obtain ⟨rfl, rfl⟩ := List.cons.inj (hrest.symm.trans hcons)
    cases c.step first tail <;> rfl

theorem scan_of_step (hstep : c.step first tail = .ok (ts, mid)) (found : Array Token) :
    c.scan found = mid.scan (found ++ ts) := by
  rw [scan_of_cons hrest, hstep]
  rfl

theorem scan_of_error {e : LexicalError} (hstep : c.step first tail = .error e)
    (found : Array Token) : c.scan found = .error e := by
  rw [scan_of_cons hrest, hstep]
  rfl

end

end Cursor

end Offside
