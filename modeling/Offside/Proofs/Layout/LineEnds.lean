import Offside.Proofs.Grammar.Uniformity
import Offside.Proofs.Token.Locality

/-!
# Line ends of two characters

A text in which every line end has a carriage return before it has the tokens of the text without,
on the same lines, but for white space and for the strings that go on over line ends. A carriage
return ends up in a run of white space, in the comment before it, or in a run of its own.
-/

namespace Offside

open Grammar (Terminal)

/-! ## Carriage returns -/

/-- The text with a carriage return before each line end. -/
def withReturns (text : List Char) : List Char :=
  text.flatMap fun c => if c = '\n' then ['\r', '\n'] else [c]

/-- The same, but for the first character if that is a line end. -/
def withLaterReturns : List Char → List Char
  | '\n' :: tail => '\n' :: withReturns tail
  | text => withReturns text

section Returns

variable {text tail : List Char} {c : Char} {p : Char → Bool}

@[simp] theorem withReturns_nil : withReturns [] = [] := rfl

@[simp] theorem withReturns_newline : withReturns ('\n' :: tail) = '\r' :: '\n' :: withReturns tail :=
  rfl

theorem withReturns_cons (hc : c ≠ '\n') : withReturns (c :: tail) = c :: withReturns tail := by
  simp [withReturns, hc]

theorem withReturns_append (a b : List Char) :
    withReturns (a ++ b) = withReturns a ++ withReturns b :=
  List.flatMap_append

theorem withReturns_of_notMem (h : '\n' ∉ text) : withReturns text = text := by
  induction text with
  | nil => rfl
  | cons c tail ih =>
    rw [List.mem_cons, not_or] at h
    rw [withReturns_cons (Ne.symm h.1), ih h.2]

theorem head?_withReturns (text : List Char) :
    (withReturns text).head? = text.head?.map fun c => if c = '\n' then '\r' else c := by
  cases text with
  | nil => rfl
  | cons c tail =>
    by_cases hc : c = '\n'
    · simp [hc]
    · simp [withReturns_cons hc, hc]

theorem withLaterReturns_of_ne (hc : c ≠ '\n') :
    withLaterReturns (c :: tail) = withReturns (c :: tail) := by
  unfold withLaterReturns
  split
  · rename_i heq
    exact absurd (List.cons.inj heq).1 hc
  · rfl

theorem takeWhile_withReturns (hnewline : p '\n' = false) (hreturn : p '\r' = false)
    (text : List Char) : (withReturns text).takeWhile p = text.takeWhile p := by
  induction text with
  | nil => rfl
  | cons c tail ih =>
    by_cases hc : c = '\n'
    · simp [hc, hnewline, hreturn]
    · rw [withReturns_cons hc, List.takeWhile_cons, List.takeWhile_cons, ih]

theorem dropWhile_withReturns (hnewline : p '\n' = false) (hreturn : p '\r' = false)
    (text : List Char) : (withReturns text).dropWhile p = withReturns (text.dropWhile p) := by
  induction text with
  | nil => rfl
  | cons c tail ih =>
    by_cases hc : c = '\n'
    · simp [hc, hnewline, hreturn]
    · rw [withReturns_cons hc, List.dropWhile_cons, List.dropWhile_cons, ih, apply_ite withReturns,
        withReturns_cons hc]

/-- A run that takes carriage returns takes the one before the line end where it stops. -/
theorem dropWhile_withReturns_of_pos (hnewline : p '\n' = false) (hreturn : p '\r' = true)
    (text : List Char) : (withReturns text).dropWhile p = withLaterReturns (text.dropWhile p) := by
  induction text with
  | nil => rfl
  | cons c tail ih =>
    by_cases hc : c = '\n'
    · simp [hc, hnewline, hreturn, withLaterReturns]
    · rw [withReturns_cons hc, List.dropWhile_cons, List.dropWhile_cons, ih,
        apply_ite withLaterReturns, withLaterReturns_of_ne hc, withReturns_cons hc]

/-- A text up to its first line end, and what comes from there on. -/
theorem exists_line (text : List Char) :
    ∃ line after, text = line ++ after ∧ '\n' ∉ line ∧ IsTail after :=
  ⟨_, _, List.takeWhile_append_dropWhile.symm, Cursor.newline_notMem_takeWhile rfl text,
    .dropWhile text⟩

/-- The longest lexeme ends before the line does, so that it stays the longest one. -/
theorem longest?_withReturns (hc : c ≠ '\n') {kind : TokenKind} {n : Nat}
    (h : Lexeme.longest? (c :: tail) = some (kind, n)) :
    Lexeme.longest? (withReturns (c :: tail)) = some (kind, n) ∧
      (withReturns (c :: tail)).take n = (c :: tail).take n ∧
      (withReturns (c :: tail)).drop n = withReturns ((c :: tail).drop n) := by
  obtain ⟨line, after, hcut, hline, hafter⟩ := exists_line (c :: tail)
  have hne : line ≠ [] := by
    rintro rfl
    rw [List.nil_append] at hcut
    exact hc (hafter c (hcut ▸ rfl))
  have hstops : StopsLexeme after := hafter.endsLexeme.stops
  have hstops' : StopsLexeme (withReturns after) := by
    cases after with
    | nil => exact hstops
    | cons d rest =>
      obtain rfl := hafter d rfl
      exact .of_head fun d hd => .inr (.inr (Option.some.inj hd).symm)
  rw [hcut, Lexeme.longest?_append hstops hne] at h
  have hn := Lexeme.length_le_of_longest? h
  rw [hcut, withReturns_append, withReturns_of_notMem hline]
  refine ⟨by rw [Lexeme.longest?_append hstops' hne, h], ?_, ?_⟩
  · rw [List.take_append_of_le_length hn, List.take_append_of_le_length hn]
  · have hdrop : '\n' ∉ line.drop n := fun hmem => hline (List.mem_of_mem_drop hmem)
    rw [List.drop_append_of_le_length hn, List.drop_append_of_le_length hn, withReturns_append,
      withReturns_of_notMem hdrop]

end Returns

/-! ## Tokens and lines -/

/-- The terminals of the tokens that are not white space, with their lines. -/
def linedTerminals (ts : List Token) : List (Terminal × Nat) :=
  (ts.filter fun t => !t.isWhitespace).map fun t => (Terminal.ofToken t, t.position.line)

@[simp] theorem linedTerminals_append (ts us : List Token) :
    linedTerminals (ts ++ us) = linedTerminals ts ++ linedTerminals us := by
  simp [linedTerminals]

namespace Cursor

variable {c c' next last : Cursor} {first : Char} {tail : List Char} {ts : List Token}

theorem linedTerminals_token (hline : c'.position.line = c.position.line) {kind : TokenKind}
    {value : TokenValue} {lexeme : List Char} :
    linedTerminals [c'.token kind value lexeme] = linedTerminals [c.token kind value lexeme] := by
  unfold linedTerminals token Token.isWhitespace
  by_cases hkind : kind = .whitespace <;> simp [hkind, Terminal.ofToken, hline]

@[simp] theorem linedTerminals_spaceTokens (spaces : List Char) :
    linedTerminals (c.spaceTokens spaces) = [] := by
  unfold spaceTokens
  split <;> rfl

theorem linedTerminals_levelTokens (hline : c'.position.line = c.position.line)
    (hlevel : c'.level = c.level) (level : Nat) :
    linedTerminals (c'.levelTokens level) = linedTerminals (c.levelTokens level) := by
  unfold levelTokens
  rw [hlevel]
  split
  · exact linedTerminals_token hline
  · simp [linedTerminals, token, Token.isWhitespace, Terminal.ofToken, hline]

theorem linedTerminals_closing (hline : c'.position.line = c.position.line)
    (hlevel : c'.level = c.level) : linedTerminals c'.closing = linedTerminals c.closing := by
  simp [closing, linedTerminals, token, Token.isWhitespace, Terminal.ofToken, hline, hlevel]

/-! ## Two cursors in step -/

/-- The second cursor is where the first one is, in the text with the carriage returns. Within a
line it may be past the carriage return that comes next. -/
structure Tracks (c c' : Cursor) : Prop where
  rest : c'.rest = withReturns c.rest ∨ c.atLineStart = false ∧ c'.rest = withLaterReturns c.rest
  level : c'.level = c.level
  brackets : c'.brackets = c.brackets
  atLineStart : c'.atLineStart = c.atLineStart
  line : c'.position.line = c.position.line

theorem tracks_ofText (text : List Char) : Tracks (ofText text) (ofText (withReturns text)) :=
  ⟨.inl rfl, rfl, rfl, rfl, rfl⟩

/-- Before anything but a line end there is no carriage return to be past of. -/
theorem Tracks.rest_of_ne (h : Tracks c c') (hrest : c.rest = first :: tail) (hne : first ≠ '\n') :
    c'.rest = withReturns c.rest := by
  rcases h.rest with h | ⟨-, h⟩
  · exact h
  · rwa [hrest, withLaterReturns_of_ne hne, ← hrest] at h

theorem Tracks.isInside (h : Tracks c c') (hinside : c.IsInside) : c'.IsInside := by
  unfold IsInside
  rw [h.atLineStart, h.brackets]
  exact hinside

/-- Both cursors go past lexemes with as many line ends. -/
theorem Tracks.pass (h : Tracks c c') {lexeme lexeme' rest rest' : List Char}
    (hcount : lexeme'.count '\n' = lexeme.count '\n')
    (hrest : rest' = withReturns rest ∨ rest' = withLaterReturns rest) :
    Tracks (c.pass lexeme rest) (c'.pass lexeme' rest') where
  rest := hrest.imp_right fun h => ⟨rfl, h⟩
  level := h.level
  brackets := h.brackets
  atLineStart := rfl
  line := by
    show (c'.position.advance lexeme').line = (c.position.advance lexeme).line
    rw [Text.Position.line_advance, Text.Position.line_advance, h.line, hcount]

/-- By whole steps the cursor gets to where it tracks the next one, with the same terminals. -/
def Follows (c' : Cursor) (ts : List Token) (next : Cursor) : Prop :=
  ∃ ts' next', c'.Scans ts' next' ∧ linedTerminals ts' = linedTerminals ts ∧ Tracks next next'

theorem follows_of_step {first' : Char} {tail' : List Char} {ts' : List Token} {next' : Cursor}
    (hrest : c'.rest = first' :: tail') (hstep : c'.step first' tail' = .ok (ts', next'))
    (hts : linedTerminals ts' = linedTerminals ts) (hnext : Tracks next next') :
    c'.Follows ts next :=
  ⟨ts' ++ [], next', .step hrest hstep (.refl next'), by rw [List.append_nil, hts], hnext⟩

/-! ## Steps -/

theorem count_newline_takeWhile {p : Char → Bool} (hp : p '\n' = false) (text : List Char) :
    (text.takeWhile p).count '\n' = 0 :=
  List.count_eq_zero.mpr (newline_notMem_takeWhile hp text)

theorem endsBlank_withReturns {text : List Char} (h : ∀ d ∈ text.head?, endsBlank d = true) :
    ∀ d ∈ (withReturns text).head?, endsBlank d = true := by
  intro d hd
  rw [head?_withReturns, Option.mem_def, Option.map_eq_some_iff] at hd
  obtain ⟨a, ha, rfl⟩ := hd
  split
  · rfl
  · exact h a ha

theorem Tracks.indentation (hc : Tracks c c') (hrest : c.rest = first :: tail)
    (hstart : c.atLineStart = true) (hbrackets : c.brackets = [])
    (h : c.indentation = .ok (ts, next)) : c'.Follows ts next := by
  have hreturns : c'.rest = withReturns c.rest := by
    rcases hc.rest with h | ⟨hno, -⟩
    · exact h
    · cases hstart.symm.trans hno
  obtain ⟨first', tail', hrest'⟩ : ∃ first' tail', c'.rest = first' :: tail' := by
    apply List.exists_cons_of_ne_nil
    intro hnil
    have hhead := head?_withReturns c.rest
    rw [← hreturns, hnil, hrest] at hhead
    cases hhead
  have hstep : c'.step first' tail' = c'.indentation :=
    step_start (hc.atLineStart.trans hstart) (hc.brackets.trans hbrackets) first' tail'
  have hspaces : c'.spaces = c.spaces := by
    unfold spaces
    rw [hreturns, takeWhile_withReturns rfl rfl]
  have hafter : c'.afterSpaces = withReturns c.afterSpaces := by
    unfold afterSpaces
    rw [hreturns, dropWhile_withReturns rfl rfl]
  have hpass : Tracks (c.pass c.spaces c.afterSpaces) (c'.pass c'.spaces c'.afterSpaces) :=
    hc.pass (by rw [hspaces]) (.inl hafter)
  obtain ⟨hblank, rfl, rfl⟩ | ⟨level, d, rest, hlevel, hwidth, hd, hcontent, rfl, rfl⟩ :=
    indentation_cases h
  · have hblank' : ∀ d ∈ c'.afterSpaces.head?, endsBlank d = true := by
      rw [hafter]
      exact endsBlank_withReturns hblank
    exact follows_of_step hrest' (hstep.trans (indentation_blank hblank')) (by simp) hpass
  · have hne : d ≠ '\n' := Place.startsContent_ne hcontent rfl
    have hafter' : c'.afterSpaces = d :: withReturns rest := by
      rw [hafter, hd, withReturns_cons hne]
    have hcut : c'.rest = List.replicate (4 * level) ' ' ++ d :: withReturns rest := by
      rw [rest_eq_spaces_append c', hspaces, hwidth, hafter']
    have hindentation := Place.indentation_eq hcut (hc.level ▸ hlevel) hcontent
    rw [← hwidth, ← hspaces, ← hafter'] at hindentation
    refine follows_of_step hrest' (hstep.trans hindentation) ?_
      ⟨hpass.rest, rfl, hpass.brackets, rfl, hpass.line⟩
    simp [linedTerminals_levelTokens hc.line hc.level]

theorem follows_lineEnd (hrest : c'.rest = '\n' :: withReturns tail) (hinside : c'.IsInside)
    (hlevel : c'.level = c.level) (hbrackets : c'.brackets = c.brackets)
    (hline : c'.position.line = c.position.line) :
    c'.Follows (c.lineEnd tail).1 (c.lineEnd tail).2 := by
  refine follows_of_step hrest (step_lineEnd hinside _) ?_
    ⟨.inl rfl, hlevel, hbrackets, rfl, congrArg (· + 1) hline⟩
  unfold lineEnd
  rw [hbrackets]
  exact linedTerminals_token hline

/-- A line end takes two steps where its carriage return is not part of what comes before. -/
theorem Tracks.lineEnd (hc : Tracks c c') (hinside : c.IsInside) (hrest : c.rest = '\n' :: tail) :
    c'.Follows (c.lineEnd tail).1 (c.lineEnd tail).2 := by
  have hinside' := hc.isInside hinside
  rcases hc.rest with h | ⟨-, h⟩
  · -- the carriage return is a run of white space of its own
    rw [hrest, withReturns_newline] at h
    have hdrop : c'.blanks.2.rest = '\n' :: withReturns tail := by
      show c'.rest.dropWhile isBlank = _
      rw [h]
      rfl
    have hline : c'.blanks.2.position.line = c'.position.line :=
      line_pass c' (newline_notMem_takeWhile rfl c'.rest) _
    obtain ⟨ts', next', hscans, hts, hnext⟩ := follows_lineEnd hdrop (isInside_of_inLine rfl)
      hc.level hc.brackets (hline.trans hc.line)
    exact ⟨_, next', .step h (step_blanks hinside' rfl _) hscans, hts, hnext⟩
  · rw [hrest] at h
    exact follows_lineEnd h hinside' hc.level hc.brackets hc.line

theorem Tracks.blanks (hc : Tracks c c') (hinside : c.IsInside) (hrest : c.rest = first :: tail)
    (hblank : isBlank first = true) : c'.Follows c.blanks.1 c.blanks.2 := by
  have hne : first ≠ '\n' := by
    rintro rfl
    cases hblank
  have hreturns := hc.rest_of_ne hrest hne
  have hrest' : c'.rest = first :: withReturns tail := by
    rw [hreturns, hrest, withReturns_cons hne]
  refine follows_of_step hrest' (step_blanks (hc.isInside hinside) hblank _) rfl (hc.pass ?_ (.inr ?_))
  · rw [count_newline_takeWhile rfl, count_newline_takeWhile rfl]
  · rw [hreturns, dropWhile_withReturns_of_pos rfl rfl]

theorem Tracks.comment (hc : Tracks c c') (hinside : c.IsInside) (hrest : c.rest = '#' :: tail) :
    c'.Follows c.comment.1 c.comment.2 := by
  have hne : '#' ≠ '\n' := by decide
  have hreturns := hc.rest_of_ne hrest hne
  have hrest' : c'.rest = '#' :: withReturns tail := by
    rw [hreturns, hrest, withReturns_cons hne]
  refine follows_of_step hrest' (step_comment (hc.isInside hinside) _) rfl (hc.pass ?_ (.inr ?_))
  · rw [count_newline_takeWhile rfl, count_newline_takeWhile rfl]
  · rw [hreturns, dropWhile_withReturns_of_pos rfl rfl]

theorem Tracks.string (hc : Tracks c c') (hinside : c.IsInside) (hrest : c.rest = first :: tail)
    (hquote : first = '"' ∨ first = '\'') (h : c.string first tail = .ok (ts, next))
    (hstring : ∀ t ∈ ts, t.kind = .string → '\n' ∉ t.lexeme.toList) : c'.Follows ts next := by
  obtain ⟨content, after, rfl, hcontent, rfl, rfl⟩ := string_eq_ok h
  have hline : '\n' ∉ content := by
    have hlexeme := hstring _ (List.mem_singleton_self _) rfl
    simp only [token, String.toList_ofList] at hlexeme
    exact fun hmem => hlexeme (by simp [hmem])
  have hne : first ≠ '\n' := by rcases hquote with rfl | rfl <;> decide
  have hrest' : c'.rest = first :: (content ++ first :: withReturns after) := by
    rw [hc.rest_of_ne hrest hne, hrest, withReturns_cons hne, withReturns_append,
      withReturns_of_notMem hline, withReturns_cons hne]
  have hstep := step_string (hc.isInside hinside) hquote (content ++ first :: withReturns after)
  rw [Place.string_closed c' hcontent] at hstep
  exact follows_of_step hrest' hstep (linedTerminals_token hc.line) (hc.pass rfl (.inl rfl))

theorem Tracks.lexeme (hc : Tracks c c') (hinside : c.IsInside) (hrest : c.rest = first :: tail)
    (hword : Place.startsWord first = true) (h : c.symbolOrWord first = .ok (ts, next)) :
    c'.Follows ts next := by
  obtain ⟨kind, n, value, brackets, hlongest, hvalue, hbrackets, rfl, rfl⟩ := symbolOrWord_eq_ok h
  have hne : first ≠ '\n' := by
    rintro rfl
    cases hword
  have hreturns := hc.rest_of_ne hrest hne
  rw [hrest] at hlongest
  obtain ⟨hlongest', htake, hdrop⟩ := longest?_withReturns hne hlongest
  rw [← hrest, ← hreturns] at hlongest' htake hdrop
  have hstep : c'.step first (withReturns tail) = .ok ([c'.token kind value (c.rest.take n)],
      { c'.pass (c.rest.take n) (withReturns (c.rest.drop n)) with brackets := brackets }) := by
    rw [step_word (hc.isInside hinside) hword]
    unfold symbolOrWord
    simp only [hlongest', htake, hdrop, hvalue, hc.brackets, hbrackets]
  have hpass : Tracks (c.pass (c.rest.take n) (c.rest.drop n))
      (c'.pass (c.rest.take n) (withReturns (c.rest.drop n))) := hc.pass rfl (.inl rfl)
  refine follows_of_step (by rw [hreturns, hrest, withReturns_cons hne]) hstep
    (linedTerminals_token hc.line) ⟨.inl rfl, hpass.level, rfl, rfl, hpass.line⟩

/-- A step without a string that goes on over a line end is made in both texts. -/
theorem Moves.follows (h : c.Moves first tail ts next) (hrest : c.rest = first :: tail)
    (hc : Tracks c c') (hstring : ∀ t ∈ ts, t.kind = .string → '\n' ∉ t.lexeme.toList) :
    c'.Follows ts next := by
  cases h with
  | indentation hstart hbrackets h => exact hc.indentation hrest hstart hbrackets h
  | lineEnd hinside hfirst => exact hc.lineEnd hinside (hfirst ▸ hrest)
  | blanks hinside hblank => exact hc.blanks hinside hrest hblank
  | comment hinside hfirst => exact hc.comment hinside (hfirst ▸ hrest)
  | string hinside hquote h => exact hc.string hinside hrest hquote h hstring
  | lexeme hinside hword h => exact hc.lexeme hinside hrest hword h

theorem Scans.follows (h : c.Scans ts last) (hc : Tracks c c')
    (hstring : ∀ t ∈ ts, t.kind = .string → '\n' ∉ t.lexeme.toList) : c'.Follows ts last := by
  induction h generalizing c' with
  | refl => exact ⟨[], c', .refl c', rfl, hc⟩
  | step hrest hstep _ ih =>
    rw [List.forall_mem_append] at hstring
    obtain ⟨ts', mid', hfirst, hts, hmid⟩ := (moves_of_step hstep).follows hrest hc hstring.1
    obtain ⟨us', last', hothers, hus, hlast⟩ := ih hmid hstring.2
    exact ⟨ts' ++ us', last', hfirst.trans hothers, by simp [hts, hus], hlast⟩

end Cursor

/-! ## Whole texts -/

/-- The token without what tells apart two of one line. -/
def Token.bare (t : Token) : Token := ⟨t.kind, t.value, "", ⟨t.position.line, 1⟩⟩

theorem map_bare_filter (ts : List Token) :
    ((ts.map Token.bare).filter fun t => !t.isWhitespace) =
      (linedTerminals ts).map fun p => ⟨p.1.kind, p.1.value, "", ⟨p.2, 1⟩⟩ := by
  unfold linedTerminals
  rw [List.filter_map, List.map_map]
  rfl

/-- What tokens are read as, or what is wrong with them and in which line, rests on the terminals
and their lines. -/
theorem Program.ofTokens_lined {ts us : List Token} (h : linedTerminals ts = linedTerminals us) :
    (Program.ofTokens ts).mapError (fun e => (e.kind, e.line?, e.context)) =
      (Program.ofTokens us).mapError fun e => (e.kind, e.line?, e.context) := by
  have hbare (ts : List Token) : (Program.ofTokens (ts.map Token.bare)).mapError
      (fun e => (e.kind, e.line?, e.context)) =
        (Program.ofTokens ts).mapError fun e => (e.kind, e.line?, e.context) := by
    have hterminal : ∀ t : Token, Terminal.ofToken t.bare = Terminal.ofToken t := fun _ => rfl
    rw [Program.ofTokens_map hterminal]
    cases Program.ofTokens ts with
    | ok p => rfl
    | error e =>
      have hline : (e.relabel Token.bare).line? = e.line? := by
        unfold SyntaxError.relabel SyntaxError.line?
        rw [Option.map_map]
        rfl
      simp only [Except.mapError, hline]
      rfl
  have heq : Program.ofTokens (ts.map Token.bare) = Program.ofTokens (us.map Token.bare) := by
    unfold Program.ofTokens
    rw [map_bare_filter, map_bare_filter, h]
  rw [← hbare ts, ← hbare us, heq]

/-- A carriage return before each line end leaves the tokens as they are, and the lines that they
stand in, but for white space. So the program is the same, or what is wrong with it. -/
theorem tokens_withReturns {text : String} {ts : List Token} (h : tokens text = .ok ts)
    (hstring : ∀ t ∈ ts, t.kind = .string → '\n' ∉ t.lexeme.toList) :
    ∃ ts', tokens (String.ofList (withReturns text.toList)) = .ok ts' ∧
      linedTerminals ts' = linedTerminals ts ∧
      (Program.ofTokens ts').mapError (fun e => (e.kind, e.line?, e.context)) =
        (Program.ofTokens ts).mapError fun e => (e.kind, e.line?, e.context) := by
  obtain ⟨us, last, hscans, hend, rfl⟩ := scans_of_tokens h
  obtain ⟨us', last', hscans', hus, hlast⟩ := hscans.follows (Cursor.tracks_ofText text.toList)
    fun t ht => hstring t (List.mem_append_left _ ht)
  have hend' : last'.rest = [] := by
    rcases hlast.rest with h | ⟨-, h⟩
    · rwa [hend] at h
    · rwa [hend] at h
  have hlined : linedTerminals (us' ++ last'.closing) = linedTerminals (us ++ last.closing) := by
    rw [linedTerminals_append, linedTerminals_append, hus,
      Cursor.linedTerminals_closing hlast.line hlast.level]
  exact ⟨_, tokens_of_scans hscans' hend', hlined, Program.ofTokens_lined hlined⟩

/-- A comment at the end of a line, strings in brackets over two lines, and a line of spaces. -/
def quotedText : String := "if x: # c\n    y = ['a',\n'b']\n   \n"

def quotedTokens : List Token :=
  [⟨.ifWord, .none, "if", ⟨1, 1⟩⟩, ⟨.whitespace, .none, " ", ⟨1, 3⟩⟩,
    ⟨.name, .name "x", "x", ⟨1, 4⟩⟩, ⟨.colon, .none, ":", ⟨1, 5⟩⟩,
    ⟨.whitespace, .none, " ", ⟨1, 6⟩⟩, ⟨.newline, .none, "\n", ⟨1, 10⟩⟩,
    ⟨.indent, .none, "", ⟨2, 1⟩⟩, ⟨.whitespace, .none, "    ", ⟨2, 1⟩⟩,
    ⟨.name, .name "y", "y", ⟨2, 5⟩⟩, ⟨.whitespace, .none, " ", ⟨2, 6⟩⟩,
    ⟨.assign, .none, "=", ⟨2, 7⟩⟩, ⟨.whitespace, .none, " ", ⟨2, 8⟩⟩,
    ⟨.openBracket, .none, "[", ⟨2, 9⟩⟩, ⟨.string, .string "a", "'a'", ⟨2, 10⟩⟩,
    ⟨.comma, .none, ",", ⟨2, 13⟩⟩, ⟨.whitespace, .none, "\n", ⟨2, 14⟩⟩,
    ⟨.string, .string "b", "'b'", ⟨3, 1⟩⟩, ⟨.closeBracket, .none, "]", ⟨3, 4⟩⟩,
    ⟨.newline, .none, "\n", ⟨3, 5⟩⟩, ⟨.whitespace, .none, "   ", ⟨4, 1⟩⟩,
    ⟨.newline, .none, "\n", ⟨4, 4⟩⟩, ⟨.newline, .none, "", ⟨5, 1⟩⟩,
    ⟨.dedent, .none, "", ⟨5, 1⟩⟩, ⟨.endOfFile, .none, "", ⟨5, 1⟩⟩]

theorem withReturns_quotedText : tokens quotedText = .ok quotedTokens ∧
    (∀ t ∈ quotedTokens, t.kind = .string → '\n' ∉ t.lexeme.toList) ∧
    ∃ ts', tokens (String.ofList (withReturns quotedText.toList)) = .ok ts' ∧
      linedTerminals ts' = linedTerminals quotedTokens ∧
      (Program.ofTokens ts').mapError (fun e => (e.kind, e.line?, e.context)) =
        (Program.ofTokens quotedTokens).mapError fun e => (e.kind, e.line?, e.context) := by
  have htokens : tokens quotedText = .ok quotedTokens := by decide +kernel
  have hstring : ∀ t ∈ quotedTokens, t.kind = .string → '\n' ∉ t.lexeme.toList := by decide +kernel
  exact ⟨htokens, hstring, tokens_withReturns htokens hstring⟩

end Offside
