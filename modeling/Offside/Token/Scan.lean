import Offside.Token.Lexer

/-!
# The tokens of a text

The lexer is never out of bounds: no line begins behind its place, so that its column is the one
that a cursor has moved to character by character. Step by step it does what the cursor does, and
the tokens are those that the cursor scans (`tokens_eq_scan`).
-/

namespace Offside

open Text

/-! ## Characters of lexemes -/

theorem Cursor.newline_notMem_takeWhile {p : Char → Bool} (hp : p '\n' = false) (text : List Char) :
    '\n' ∉ text.takeWhile p := by
  intro hmem
  have := List.all_eq_true.mp List.all_takeWhile _ hmem
  rw [hp] at this
  cases this

namespace Lexeme

variable {text tail : List Char} {first : Char} {kind : TokenKind} {n : Nat}

theorem newline_notMem_of_symbol? (h : symbol? text = some (kind, n)) : '\n' ∉ text.take n := by
  unfold symbol? at h
  split at h
  case h_5 =>
    split at h
    all_goals cases h
    all_goals simp
  all_goals cases h
  all_goals simp

theorem newline_notMem_of_word? (h : word? text = some (kind, n)) : '\n' ∉ text.take n := by
  unfold word? at h
  split at h
  · cases h
  split at h
  · cases h
    rw [take_length_takeWhile]
    exact Cursor.newline_notMem_takeWhile rfl _
  · cases h

theorem newline_notMem_of_number? (h : number? text = some (kind, n)) : '\n' ∉ text.take n := by
  have hdigits (row : List Char) : '\n' ∉ row.take (row.takeWhile isAsciiDigit).length := by
    rw [take_length_takeWhile]
    exact Cursor.newline_notMem_takeWhile rfl _
  unfold number? at h
  dsimp only at h
  split at h
  · cases h
  split at h
  · rename_i fraction hafter
    split at h
    all_goals cases h
    · exact hdigits text
    · rw [List.take_add, List.take_add, ← List.drop_drop, hafter]
      simpa using ⟨hdigits text, hdigits fraction⟩
  · cases h
    exact hdigits text

theorem newline_notMem_of_longest? (h : longest? text = some (kind, n)) : '\n' ∉ text.take n := by
  obtain h | h | h := longest?_eq_some h
  · exact newline_notMem_of_symbol? h
  · exact newline_notMem_of_word? h
  · exact newline_notMem_of_number? h

theorem bracketless_of_word? (h : word? text = some (kind, n)) :
    Cursor.opener? kind = none ∧ Cursor.closes? kind = none := by
  unfold word? at h
  split at h
  · cases h
  split at h
  · cases h
    unfold keyword?
    split
    all_goals exact ⟨rfl, rfl⟩
  · cases h

theorem bracketless_of_number? (h : number? text = some (kind, n)) :
    Cursor.opener? kind = none ∧ Cursor.closes? kind = none := by
  unfold number? at h
  dsimp only at h
  split at h
  · cases h
  split at h
  · split at h
    all_goals cases h
    all_goals exact ⟨rfl, rfl⟩
  · cases h
    exact ⟨rfl, rfl⟩

/-- Brackets are told apart by their first character. -/
theorem bracket_of_longest? (h : longest? (first :: tail) = some (kind, n)) :
    (∀ bracket, Cursor.opener? kind = some bracket → first = bracket) ∧
      ∀ bracket, Cursor.closes? kind = some bracket → Lexer.opener first = bracket := by
  obtain h | h | h := longest?_eq_some h
  · unfold symbol? at h
    split at h
    case h_5 heq =>
      cases heq
      split at h
      all_goals cases h
      all_goals constructor
      all_goals
        intro bracket hkind
        cases hkind <;> rfl
    case h_6 => cases h
    all_goals cases h
    all_goals exact ⟨nofun, nofun⟩
  · obtain ⟨hopener, hcloses⟩ := bracketless_of_word? h
    rw [hopener, hcloses]
    exact ⟨nofun, nofun⟩
  · obtain ⟨hopener, hcloses⟩ := bracketless_of_number? h
    rw [hopener, hcloses]
    exact ⟨nofun, nofun⟩

end Lexeme

namespace Lexer

variable {t next : Lexer} {lexeme rest : List Char} {kind : TokenKind} {value : TokenValue}

/-! ## Bounds -/

/-- The line does not begin behind the place of the lexer, which is within the text. -/
def Bounded (t : Lexer) : Prop := t.lineStart + byteSize t.rest ≤ byteSize t.text

/-- Where the lexer stands. -/
def position (t : Lexer) : Position where
  line := t.line
  column := byteSize t.text - byteSize t.rest - t.lineStart + 1

/-- The cursor at the place of the lexer. -/
def cursor (t : Lexer) (atLineStart : Bool) : Cursor :=
  ⟨t.rest, t.position, t.level, t.brackets, atLineStart⟩

@[simp] theorem cursor_rest (t : Lexer) (b : Bool) : (t.cursor b).rest = t.rest := rfl

@[simp] theorem cursor_level (t : Lexer) (b : Bool) : (t.cursor b).level = t.level := rfl

@[simp] theorem cursor_brackets (t : Lexer) (b : Bool) : (t.cursor b).brackets = t.brackets := rfl

/-- The lexer with more tokens found. -/
def adding (t : Lexer) (ts : List Token) : Lexer := { t with found := t.found ++ ts }

theorem adding_nil (t : Lexer) : t.adding [] = t := by simp [adding]

theorem adding_adding (t : Lexer) (ts us : List Token) :
    (t.adding ts).adding us = t.adding (ts ++ us) := by
  have h : t.found ++ ts ++ us = t.found ++ (ts ++ us) := Array.ext' (by simp)
  unfold adding
  rw [h]

theorem Bounded.adding (h : t.Bounded) (ts : List Token) : (t.adding ts).Bounded := h

theorem ok_bind {α β : Type} (a : α) (f : α → Except Halt β) : (Except.ok a >>= f) = f a := rfl

theorem subtract_eq {m n : Nat} (h : n ≤ m) : subtract m n = .ok (m - n) := if_pos h

theorem cut_append (a b : List Char) : cut (a ++ b) (byteSize a) = .ok (a, b) := by
  unfold cut
  rw [cut?_append]

theorem offset_eq (h : t.Bounded) : t.offset = .ok (byteSize t.text - byteSize t.rest) :=
  subtract_eq (Nat.le_of_add_left_le h)

theorem span_eq (h : t.Bounded) : t.span = .ok t.position := by
  have hle : t.lineStart ≤ byteSize t.text - byteSize t.rest := Nat.le_sub_of_add_le h
  unfold span
  rw [offset_eq h, ok_bind, subtract_eq hle]
  rfl

theorem advance_eq (hrest : t.rest = lexeme ++ rest) :
    t.advance (byteSize lexeme) = .ok { t with rest } := by
  unfold advance
  rw [hrest, cut_append]
  rfl

theorem push_eq (h : t.Bounded) (hrest : t.rest = lexeme ++ rest) :
    t.push kind value (byteSize lexeme) =
      .ok ({ t with rest }.adding [⟨kind, value, String.ofList lexeme, t.position⟩]) := by
  unfold push
  rw [span_eq h, hrest, cut_append]
  exact (advance_eq rfl).trans (by simp [adding])

theorem push_empty (h : t.Bounded) :
    t.push kind value 0 = .ok (t.adding [⟨kind, value, "", t.position⟩]) :=
  @push_eq t [] t.rest kind value h rfl

theorem dedents_eq (h : t.Bounded) (n : Nat) :
    t.dedents n = .ok (t.adding (List.replicate n ⟨.dedent, .none, "", t.position⟩)) := by
  induction n generalizing t with
  | zero => exact congrArg Except.ok (adding_nil t).symm
  | succ n ih =>
    unfold dedents
    rw [push_empty h, ok_bind, ih (h.adding _), adding_adding]
    rfl

theorem indent_eq (h : t.Bounded) (level : Nat) : t.indent level =
    .ok (if level = t.level + 1 then t.adding [⟨.indent, .none, "", t.position⟩] else t) := by
  unfold indent
  split
  · exact push_empty h
  · rfl

theorem toLevel_eq (h : t.Bounded) {level : Nat} (hlevel : level ≤ t.level + 1) (b : Bool) :
    t.toLevel level = .ok ({ t with level }.adding ((t.cursor b).levelTokens level)) := by
  unfold toLevel Cursor.levelTokens
  rw [indent_eq h, ok_bind, cursor_level]
  by_cases hdeeper : level = t.level + 1
  · have hnone : t.level - level = 0 := by omega
    rw [if_pos hdeeper, if_pos (by omega), hnone]
    rfl
  · rw [if_neg hdeeper, if_neg (by omega), dedents_eq h]
    rfl

theorem spaces_eq (h : t.Bounded) (hrest : t.rest = lexeme ++ rest)
    (hspaces : ∀ d ∈ lexeme, d = ' ') (b : Bool) :
    t.spaces lexeme.length =
      .ok ({ t with rest }.adding ((t.cursor b).spaceTokens lexeme)) := by
  have hsize : byteSize lexeme = lexeme.length :=
    byteSize_eq_length fun d hd => hspaces d hd ▸ rfl
  unfold spaces Cursor.spaceTokens
  cases lexeme with
  | nil =>
    subst hrest
    exact congrArg Except.ok (adding_nil t).symm
  | cons d lexeme =>
    rw [if_pos (show 0 < (d :: lexeme).length from Nat.succ_pos _), ← hsize]
    exact push_eq h hrest

/-! ## Steps -/

/-- What the lexer does is what the cursor does: both refuse the text, or they find the same tokens
and get to the same place. -/
inductive Follows (t : Lexer) (atLineStart : Bool) :
    Except Halt Lexer → Except LexicalError (List Token × Cursor) → Prop where
  | refused (e : LexicalError) : Follows t atLineStart (.error (.refused e)) (.error e)
  | reached {next : Lexer} {ts : List Token} {c : Cursor} :
    next.text = t.text → next.Bounded → next.found = t.found ++ ts →
    next.cursor atLineStart = c → Follows t atLineStart (.ok next) (.ok (ts, c))

/-- A lexeme without line ends moves the column on. -/
theorem follows_pass (h : t.Bounded) (hrest : t.rest = lexeme ++ rest) (hline : '\n' ∉ lexeme)
    (level : Nat) (brackets : List Char) (ts : List Token) (b : Bool) :
    t.Follows false (.ok ({ t with rest, level, brackets }.adding ts))
      (.ok (ts, { (t.cursor b).pass lexeme rest with level, brackets })) := by
  have hsize : byteSize t.rest = byteSize lexeme + byteSize rest := by
    rw [hrest, byteSize_append]
  unfold Bounded at h
  refine .reached rfl ?_ rfl ?_
  · show t.lineStart + byteSize rest ≤ byteSize t.text
    omega
  · have hposition : t.position.advance lexeme =
        ⟨t.line, byteSize t.text - byteSize rest - t.lineStart + 1⟩ := by
      rw [Position.advance_of_notMem hline]
      unfold position
      dsimp only
      congr 1
      omega
    unfold cursor Cursor.pass
    dsimp only
    rw [hposition]
    rfl

/-- A lexeme with line ends moves the line on, to one that begins after the last of them. -/
theorem follows_lines {a b : List Char} {line lineStart : Nat} (hb : '\n' ∉ b)
    (hline : line = t.line + a.count '\n' + 1)
    (hstart : lineStart + byteSize b + byteSize rest = byteSize t.text)
    (ts : List Token) (now next : Bool) :
    t.Follows next (.ok ({ t with rest, line, lineStart }.adding ts))
      (.ok (ts, { (t.cursor now).pass (a ++ '\n' :: b) rest with atLineStart := next })) := by
  refine .reached rfl ?_ rfl ?_
  · show lineStart + byteSize rest ≤ byteSize t.text
    omega
  · have hposition : t.position.advance (a ++ '\n' :: b) =
        ⟨line, byteSize t.text - byteSize rest - lineStart + 1⟩ := by
      rw [Position.advance_newline hb, hline]
      unfold position
      congr 1
      omega
    unfold cursor Cursor.pass
    dsimp only
    rw [hposition]
    rfl

theorem indentation_follows (h : t.Bounded) (b : Bool) :
    t.Follows false t.indentation (t.cursor b).indentation := by
  have hspaces : ∀ d ∈ t.rest.takeWhile (· == ' '), d = ' ' := fun d hd =>
    eq_of_beq (List.all_eq_true.mp List.all_takeWhile d hd)
  have hcut : t.rest = t.rest.takeWhile (· == ' ') ++ t.rest.dropWhile (· == ' ') :=
    List.takeWhile_append_dropWhile.symm
  unfold indentation Cursor.indentation
  rw [cursor_rest, cursor_level]
  revert hspaces hcut
  generalize t.rest.takeWhile (· == ' ') = spaces
  generalize t.rest.dropWhile (· == ' ') = after
  intro hspaces hcut
  have hline : '\n' ∉ spaces := fun hmem => absurd (hspaces _ hmem) (by decide)
  have hsize : byteSize spaces = spaces.length :=
    byteSize_eq_length fun d hd => hspaces d hd ▸ rfl
  have hparts : cut t.rest spaces.length = .ok (spaces, after) := by
    rw [hcut, ← hsize, cut_append]
  have hblank := spaces_eq h hcut hspaces b
  dsimp only
  rw [hparts, ok_bind]
  dsimp only
  split
  case h_1 | h_2 | h_3 | h_4 =>
    rw [hblank]
    exact follows_pass h hcut hline t.level t.brackets _ b
  · exact .refused _
  · simp only [ne_eq]
    split
    · exact .refused _
    split
    · exact .refused _
    · rename_i hdeep
      have hleveled : Bounded { t with level := spaces.length / indentWidth } := h
      rw [toLevel_eq h (Nat.le_of_not_lt hdeep) b, ok_bind,
        spaces_eq (hleveled.adding _) hcut hspaces b]
      have hspent := follows_pass h hcut hline (spaces.length / indentWidth) t.brackets
        ((t.cursor b).levelTokens (spaces.length / indentWidth) ++
          (t.cursor b).spaceTokens spaces) b
      rw [← adding_adding] at hspent
      exact hspent

/-! ## Strings -/

theorem utf8Size_newline : '\n'.utf8Size = 1 := rfl

section Strings

variable {quote : Char} {tail content after : List Char}

/-- The token of a string. -/
def stringToken (t : Lexer) (quote : Char) (content : List Char) : Token where
  kind := .string
  value := .string (String.ofList content)
  lexeme := String.ofList (quote :: content ++ [quote])
  position := t.position

theorem cut_quote (hrest : t.rest = quote :: tail) (hquote : quote.utf8Size = 1) :
    cut t.rest 1 = .ok ([quote], tail) := by
  have hcut := cut_append [quote] tail
  rwa [byteSize_cons, hquote, byteSize_nil, List.singleton_append, ← hrest] at hcut

theorem string_eq_error (h : t.Bounded) (hrest : t.rest = quote :: tail)
    (hquote : quote.utf8Size = 1) (hnone : quote ∉ tail) :
    t.string quote = .error (.refused (.unterminatedString t.line)) := by
  unfold string
  simp only [offset_eq h, span_eq h, cut_quote hrest hquote, ok_bind, find?_eq_none hnone]
  rfl

theorem string_eq_ok (h : t.Bounded) (hrest : t.rest = quote :: (content ++ quote :: after))
    (hquote : quote.utf8Size = 1) (hcontent : quote ∉ content) :
    t.string quote = .ok (
      match findLast? '\n' content with
      | none => { t with rest := after }.adding [t.stringToken quote content]
      | some last =>
        { t with
          rest := after
          line := t.line + content.count '\n'
          lineStart := byteSize t.text - byteSize t.rest + 1 + last + 1 }.adding
            [t.stringToken quote content]) := by
  have hsplit : t.rest = (quote :: content ++ [quote]) ++ after := by simp [hrest]
  have hsize : byteSize (quote :: content ++ [quote]) = byteSize content + 2 := by
    simp [hquote]
    omega
  have hlexeme : cut t.rest (byteSize content + 2) =
      .ok (quote :: content ++ [quote], after) := by
    rw [hsplit, ← hsize, cut_append]
  have hadvance (t' : Lexer) (ht' : t'.rest = t.rest) :
      t'.advance (byteSize content + 2) = .ok { t' with rest := after } := by
    rw [← hsize]
    exact advance_eq (ht'.trans hsplit)
  unfold string
  simp only [offset_eq h, span_eq h, cut_quote hrest hquote, ok_bind, find?_append hcontent,
    cut_append, hlexeme]
  cases findLast? '\n' content
  all_goals
    refine (hadvance _ ?_).trans ?_
    · rfl
    · simp [adding, stringToken]

/-- The line and the place where it begins, moved on by the last line end in the string, are those
after its lexeme. -/
theorem closed_follows (h : t.Bounded) (hrest : t.rest = quote :: (content ++ quote :: after))
    (hquote : quote.utf8Size = 1) (hcontent : quote ∉ content) (hnewline : '\n' ≠ quote)
    (b : Bool) : t.Follows false (t.string quote) (.ok ([t.stringToken quote content],
      (t.cursor b).pass (quote :: content ++ [quote]) after)) := by
  rw [string_eq_ok h hrest hquote hcontent]
  have hlexeme : t.rest = (quote :: content ++ [quote]) ++ after := by simp [hrest]
  by_cases hline : '\n' ∈ content
  · obtain ⟨a, rest, rfl, hrest'⟩ := exists_last hline
    rw [findLast?_append hrest']
    have hsize := congrArg byteSize hlexeme
    simp only [byteSize_append, byteSize_cons, byteSize_nil, hquote, utf8Size_newline] at hsize
    unfold Bounded at h
    have hcount : t.line + (a ++ '\n' :: rest).count '\n' =
        t.line + (quote :: a).count '\n' + 1 := by
      rw [List.count_append, List.count_cons_self, List.count_eq_zero.mpr hrest',
        List.count_cons_of_ne hnewline.symm]
      rfl
    -- before the line that the string ends in stand its quote, `a` and the line end
    have hstart : byteSize t.text - byteSize t.rest + 1 + byteSize a + 1 +
        byteSize (rest ++ [quote]) + byteSize after = byteSize t.text := by
      simp only [byteSize_append, byteSize_cons, byteSize_nil, hquote]
      omega
    have hlines := follows_lines (t := t) (by simp [hrest', hnewline]) hcount hstart
      [t.stringToken quote (a ++ '\n' :: rest)] b false
    have hcut : (quote :: a) ++ '\n' :: (rest ++ [quote]) =
        quote :: (a ++ '\n' :: rest) ++ [quote] := by simp
    rw [hcut] at hlines
    exact hlines
  · rw [findLast?_eq_none hline]
    refine follows_pass h hlexeme ?_ t.level t.brackets _ b
    simp [hline, hnewline]

theorem string_follows (h : t.Bounded) (hrest : t.rest = quote :: tail)
    (hquote : quote = '"' ∨ quote = '\'') (b : Bool) :
    t.Follows false (t.string quote) ((t.cursor b).string quote tail) := by
  have hone : quote.utf8Size = 1 := by obtain rfl | rfl := hquote <;> rfl
  have hnewline : '\n' ≠ quote := by obtain rfl | rfl := hquote <;> decide
  have hsplit : tail = tail.takeWhile (· != quote) ++ tail.dropWhile (· != quote) :=
    List.takeWhile_append_dropWhile.symm
  have hcontent : quote ∉ tail.takeWhile (· != quote) := fun hmem => by
    have := List.all_eq_true.mp List.all_takeWhile quote hmem
    simp at this
  have hstop := List.head?_dropWhile_not (· != quote) tail
  unfold Cursor.string
  revert hsplit hcontent hstop
  generalize tail.takeWhile (· != quote) = content
  generalize tail.dropWhile (· != quote) = after
  rintro rfl hcontent hstop
  cases after with
  | nil =>
    rw [string_eq_error h hrest hone (by simpa using hcontent)]
    exact .refused _
  | cons d after =>
    obtain rfl : d = quote := by simpa using hstop
    exact closed_follows h hrest hone hcontent hnewline b

end Strings

/-! ## Symbols and words -/

section SymbolsAndWords

variable {first : Char} {tail : List Char} {n : Nat}

theorem nest_eq (t : Lexer) (h : Lexeme.longest? (first :: tail) = some (kind, n)) :
    t.nest kind first =
      match Cursor.bracketsAfter? t.brackets kind with
      | none => .error (.refused (.unmatchedBracket first t.line))
      | some brackets => .ok { t with brackets } := by
  obtain ⟨hopener, hcloses⟩ := Lexeme.bracket_of_longest? h
  unfold nest Cursor.bracketsAfter?
  split
  case h_1 | h_2 | h_3 =>
    rw [hopener _ rfl]
    rfl
  case h_4 | h_5 | h_6 =>
    rw [hcloses _ rfl]
    cases t.brackets with
    | nil => rfl
    | cons innermost outer =>
      simp only [Cursor.opener?, Cursor.closes?, List.head?_cons, Option.some.injEq, List.tail_cons]
      split <;> rfl
  · have hother : Cursor.opener? kind = none ∧ Cursor.closes? kind = none := by
      cases kind <;> first | exact ⟨rfl, rfl⟩ | contradiction
    rw [hother.1, hother.2]
    rfl

theorem symbolOrWord_follows (h : t.Bounded) (hrest : t.rest = first :: tail) (b : Bool) :
    t.Follows false (t.symbolOrWord first) ((t.cursor b).symbolOrWord first) := by
  unfold symbolOrWord Cursor.symbolOrWord
  rw [Lexeme.race_eq, cursor_rest]
  cases hlongest : Lexeme.longest? t.rest with
  | none => exact .refused _
  | some found =>
    obtain ⟨kind, n⟩ := found
    have hcut : t.rest = t.rest.take n ++ t.rest.drop n := (List.take_append_drop n t.rest).symm
    have hsize : byteSize t.rest - byteSize (t.rest.drop n) = byteSize (t.rest.take n) := by
      have := congrArg byteSize hcut
      rw [byteSize_append] at this
      omega
    have hlexeme : cut t.rest (byteSize (t.rest.take n)) = .ok (t.rest.take n, t.rest.drop n) := by
      have := cut_append (t.rest.take n) (t.rest.drop n)
      rwa [← hcut] at this
    have hline := Lexeme.newline_notMem_of_longest? hlongest
    rw [hrest] at hlongest
    simp only [Option.map_some, subtract_eq (byteSize_drop_le t.rest n), ok_bind, hsize, hlexeme]
    cases Lexeme.value? kind (t.rest.take n) with
    | none => exact .refused _
    | some value =>
      simp only [nest_eq t hlongest, cursor_brackets]
      cases Cursor.bracketsAfter? t.brackets kind with
      | none => exact .refused _
      | some brackets =>
        rw [ok_bind]
        have hbounded : Bounded { t with brackets } := h
        rw [push_eq hbounded hcut]
        exact follows_pass h hcut hline t.level brackets _ b

end SymbolsAndWords

/-! ## Whole texts -/

section Runs

variable {first : Char} {tail : List Char}

theorem newline_eq (h : t.Bounded) : t.newline =
    .ok { t with line := t.line + 1, lineStart := byteSize t.text - byteSize t.rest } := by
  unfold newline
  rw [offset_eq h]
  rfl

theorem lineEnd_follows (h : t.Bounded) (hrest : t.rest = '\n' :: tail) (b : Bool) :
    ∃ pushed, t.push (if t.brackets.isEmpty then .newline else .whitespace) .none 1 = .ok pushed ∧
      t.Follows true pushed.newline (.ok ((t.cursor b).lineEnd tail)) := by
  have hsize : byteSize t.rest = 1 + byteSize tail := by rw [hrest, byteSize_cons, utf8Size_newline]
  have hpush (kind : TokenKind) := @push_eq t ['\n'] tail kind .none h hrest
  unfold Bounded at h
  refine ⟨_, hpush _, ?_⟩
  rw [newline_eq]
  · refine follows_lines (a := []) (b := []) List.not_mem_nil rfl ?_ _ b true
    show byteSize t.text - byteSize tail + 0 + byteSize tail = byteSize t.text
    omega
  · show t.lineStart + byteSize tail ≤ byteSize t.text
    omega

theorem step_follows (h : t.Bounded) (hrest : t.rest = first :: tail) (b : Bool) :
    ∃ out atLineStart, t.step b first = out.map (·, atLineStart) ∧
      t.Follows atLineStart out ((t.cursor b).step first tail) := by
  have hpair {atLineStart : Bool} (x : Except Halt Lexer) :
      (x >>= fun next => pure (next, atLineStart)) = x.map (·, atLineStart) := by
    cases x <;> rfl
  have hrun (p : Char → Bool) : t.rest = t.rest.takeWhile p ++ t.rest.dropWhile p :=
    List.takeWhile_append_dropWhile.symm
  unfold step Cursor.step
  rw [cursor_brackets, show (t.cursor b).atLineStart = b from rfl]
  split
  · exact ⟨_, false, hpair _, indentation_follows h b⟩
  split
  · obtain ⟨pushed, hpush, hfollows⟩ := lineEnd_follows h hrest b
    simp only [hpush, ok_bind]
    exact ⟨_, true, hpair _, hfollows⟩
  case h_2 | h_3 | h_4 =>
    refine ⟨_, false, hpair _, ?_⟩
    rw [push_eq h (hrun Cursor.isBlank)]
    exact follows_pass h (hrun Cursor.isBlank) (Cursor.newline_notMem_takeWhile rfl _)
      t.level t.brackets _ b
  · refine ⟨_, false, hpair _, ?_⟩
    rw [advance_eq (hrun (· != '\n'))]
    have hpass := follows_pass h (hrun (· != '\n')) (Cursor.newline_notMem_takeWhile rfl _)
      t.level t.brackets [] b
    rw [adding_nil] at hpass
    exact hpass
  case h_6 => exact ⟨_, false, hpair _, string_follows h hrest (.inl rfl) b⟩
  case h_7 => exact ⟨_, false, hpair _, string_follows h hrest (.inr rfl) b⟩
  · have hfollows := symbolOrWord_follows h hrest b
    refine ⟨_, false, hpair _, ?_⟩
    simpa only using hfollows

variable {atLineStart atLineStart' : Bool}

/-- Where a step of the lexer leads, a step of the cursor leads with the same tokens. -/
theorem step_eq_ok (h : t.Bounded) (hrest : t.rest = first :: tail)
    (hstep : t.step atLineStart first = .ok (next, atLineStart')) :
    ∃ ts, (t.cursor atLineStart).step first tail = .ok (ts, next.cursor atLineStart') ∧
      next.text = t.text ∧ next.Bounded ∧ next.found = t.found ++ ts := by
  obtain ⟨out, now, hout, hfollows⟩ := step_follows h hrest atLineStart
  rw [hstep] at hout
  generalize (t.cursor atLineStart).step first tail = scanned at hfollows ⊢
  cases hfollows with
  | refused => cases hout
  | @reached _ ts _ htext hbounded hfound hcursor =>
    cases hout
    exact ⟨ts, by rw [hcursor], htext, hbounded, hfound⟩

theorem step_eq_error (h : t.Bounded) (hrest : t.rest = first :: tail) {halt : Halt}
    (hstep : t.step atLineStart first = .error halt) :
    ∃ e, halt = .refused e ∧ (t.cursor atLineStart).step first tail = .error e := by
  obtain ⟨out, now, hout, hfollows⟩ := step_follows h hrest atLineStart
  rw [hstep] at hout
  generalize (t.cursor atLineStart).step first tail = scanned at hfollows ⊢
  cases hfollows with
  | refused e =>
    cases hout
    exact ⟨e, rfl, rfl⟩
  | reached => cases hout

theorem close_eq (h : t.Bounded) (b : Bool) :
    t.close = .ok ({ t with level := 0 }.adding (t.cursor b).closing) := by
  have hpushed := h.adding [⟨.newline, .none, "", t.position⟩]
  have hclosed : Bounded { t with level := 0 } := h
  unfold close
  rw [push_empty h, ok_bind, dedents_eq hpushed, ok_bind, adding_adding]
  refine (push_empty (hclosed.adding _)).trans ?_
  rw [adding_adding]
  rfl

/-- From the same place on, the loop finds the tokens that the cursor scans. -/
theorem found_loop (h : t.Bounded) (b : Bool) :
    (t.loop b >>= close).map (·.found) = ((t.cursor b).scan t.found).mapError .refused := by
  fun_induction loop t b with
  | case1 t b hrest =>
    rw [Cursor.scan_of_end hrest]
    show t.close.map _ = _
    rw [close_eq h b]
    rfl
  | case2 t b first tail hrest halt hstep =>
    obtain ⟨e, rfl, hscan⟩ := step_eq_error h hrest hstep
    rw [Cursor.scan_of_error hrest hscan]
    rfl
  | case3 t b first tail hrest next b' hstep ih =>
    obtain ⟨ts, hscan, -, hbounded, hfound⟩ := step_eq_ok h hrest hstep
    rw [Cursor.scan_of_step hrest hscan, ih hbounded, hfound]

theorem bounded_ofText (text : List Char) : (ofText text).Bounded := Nat.le_of_eq (Nat.zero_add _)

theorem cursor_ofText (text : List Char) : (ofText text).cursor true = Cursor.ofText text := by
  simp [cursor, ofText, position, Cursor.ofText, Position.start]

/-- The run finds the tokens that a cursor scans. -/
theorem found_run (text : List Char) :
    (run text).map (·.found) = ((Cursor.ofText text).scan #[]).mapError .refused := by
  rw [← cursor_ofText]
  exact found_loop (bounded_ofText text) true

/-- No subtraction is below zero, and every cut is between two characters. -/
theorem run_ne_outOfBounds (text : List Char) : run text ≠ .error .outOfBounds := by
  intro h
  have hfound := found_run text
  rw [h] at hfound
  cases hscan : (Cursor.ofText text).scan #[] with
  | error e =>
    rw [hscan] at hfound
    cases hfound
  | ok all =>
    rw [hscan] at hfound
    cases hfound

end Runs

end Lexer

/-- The tokens of a text, those of white space included. -/
def tokens (text : String) : Except LexicalError (List Token) :=
  match h : Lexer.run text.toList with
  | .ok last => .ok last.found.toList
  | .error (.refused e) => .error e
  | .error .outOfBounds => absurd h (Lexer.run_ne_outOfBounds text.toList)

theorem tokens_eq_scan (text : String) :
    tokens text = ((Cursor.ofText text.toList).scan #[]).map Array.toList := by
  have hfound := Lexer.found_run text.toList
  unfold tokens
  generalize (Cursor.ofText text.toList).scan #[] = scanned at hfound ⊢
  split
  all_goals
    rename_i hrun
    rw [hrun] at hfound
    cases scanned
    all_goals cases hfound
    all_goals rfl

end Offside
