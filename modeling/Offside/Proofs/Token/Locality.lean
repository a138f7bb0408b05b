import Offside.Proofs.Token.Steps

/-!
# Steps that end before the line does

What a step reads in a text that is cut at the end of a line is what it reads there in the whole
text, but for a string that goes on in the next line.
-/

namespace Offside

open Text
open Grammar (Terminal terminals terminals_append)

theorem takeWhile_append_of_head {after : List Char} {p : Char → Bool}
    (h : ∀ c ∈ after.head?, p c = false) (line : List Char) :
    (line ++ after).takeWhile p = line.takeWhile p := by
  have hafter : after.takeWhile p = [] := by
    cases after with
    | nil => rfl
    | cons c rest => exact List.takeWhile_cons_of_neg (by simp [h c rfl])
  rw [List.takeWhile_append]
  split
  · rename_i hline
    rw [hafter, List.append_nil, (List.takeWhile_prefix p).eq_of_length hline]
  · rfl

/-- What may follow a text that is cut at the end of a line. -/
def IsTail (after : List Char) : Prop := ∀ c ∈ after.head?, c = '\n'

namespace IsTail

variable {after : List Char} {p : Char → Bool}

theorem nil : IsTail [] := nofun

theorem dropWhile (text : List Char) : IsTail (text.dropWhile (· != '\n')) := by
  intro c hc
  simpa using head_dropWhile_eq hc

theorem newline (after : List Char) : IsTail ('\n' :: after) := fun _ h => (Option.some.inj h).symm

theorem takeWhile_append (h : IsTail after) (hp : p '\n' = false) (line : List Char) :
    (line ++ after).takeWhile p = line.takeWhile p :=
  takeWhile_append_of_head (fun c hc => h c hc ▸ hp) line

theorem dropWhile_append (h : IsTail after) (hp : p '\n' = false) (line : List Char) :
    (line ++ after).dropWhile p = line.dropWhile p ++ after := by
  have hafter : after.dropWhile p = after := by
    cases after with
    | nil => rfl
    | cons c rest =>
      obtain rfl := h c rfl
      exact List.dropWhile_cons_of_neg (by simp [hp])
  rw [List.dropWhile_append]
  split
  · rename_i hline
    rw [hafter, List.isEmpty_iff.mp hline, List.nil_append]
  · rfl

end IsTail

/-! ## Lexemes -/

/-- What stands after a lexeme and cannot be part of it. -/
def EndsLexeme (after : List Char) : Prop := ∀ c ∈ after.head?, c = ' ' ∨ c = '\n'

theorem IsTail.endsLexeme {after : List Char} (h : IsTail after) : EndsLexeme after :=
  fun c hc => .inr (h c hc)

/-- No lexeme goes on with what stands first. -/
structure StopsLexeme (after : List Char) : Prop where
  namePart : ∀ c ∈ after.head?, isNamePart c = false
  digit : ∀ c ∈ after.head?, isAsciiDigit c = false
  equals : after.head? ≠ some '='
  point : after.head? ≠ some '.'

theorem StopsLexeme.of_head {after : List Char}
    (h : ∀ c ∈ after.head?, c = ' ' ∨ c = '\n' ∨ c = '\r') : StopsLexeme after where
  namePart c hc := by rcases h c hc with rfl | rfl | rfl <;> rfl
  digit c hc := by rcases h c hc with rfl | rfl | rfl <;> rfl
  equals heq := by rcases h '=' heq with h | h | h <;> cases h
  point heq := by rcases h '.' heq with h | h | h <;> cases h

theorem EndsLexeme.stops {after : List Char} (h : EndsLexeme after) : StopsLexeme after :=
  .of_head fun c hc => (h c hc).imp_right .inl

namespace Lexeme

variable {after text : List Char}

/-- Only an equals sign can be the second character of a symbol. -/
theorem symbol?_eq_singleton (c : Char) {rest : List Char} (h : rest.head? ≠ some '=') :
    symbol? (c :: rest) = symbol? [c] := by
  rw [symbol?.eq_def (c :: rest)]
  split
  iterate 4
    rename_i heq
    cases heq
    exact absurd rfl h
  · rename_i heq
    cases heq
    rw [symbol?.eq_def]
    split
    all_goals first | rfl | skip
    split <;> simp_all
  · rename_i heq
    cases heq

theorem symbol?_equals (c : Char) (rest rest' : List Char) :
    symbol? (c :: '=' :: rest) = symbol? (c :: '=' :: rest') := by
  rw [symbol?.eq_def (c :: '=' :: rest)]
  split
  iterate 4
    rename_i heq
    cases heq
    rfl
  · rename_i heq
    cases heq
    rw [symbol?.eq_def]
    split <;> simp_all
  · rename_i heq
    cases heq

theorem symbol?_append (h : StopsLexeme after) (htext : text ≠ []) :
    symbol? (text ++ after) = symbol? text := by
  obtain ⟨c, rest, rfl⟩ := List.exists_cons_of_ne_nil htext
  rw [List.cons_append]
  cases rest with
  | nil => exact symbol?_eq_singleton c h.equals
  | cons d rest =>
    by_cases hd : d = '='
    · subst hd
      exact symbol?_equals c _ _
    · have hne (row : List Char) : (d :: row).head? ≠ some '=' :=
        fun heq => hd (Option.some.inj heq)
      rw [List.cons_append, symbol?_eq_singleton c (hne _), symbol?_eq_singleton c (hne _)]

theorem word?_append_tail (h : StopsLexeme after) (htext : text ≠ []) :
    word? (text ++ after) = word? text := by
  obtain ⟨c, rest, rfl⟩ := List.exists_cons_of_ne_nil htext
  have htake := takeWhile_append_of_head h.namePart (c :: rest)
  unfold word?
  rw [htake]
  rfl

theorem number?_append (h : StopsLexeme after) (text : List Char) :
    number? (text ++ after) = number? text := by
  unfold number?
  dsimp only
  rw [takeWhile_append_of_head h.digit, List.drop_append_of_le_length (List.takeWhile_prefix _).length_le]
  cases hrest : text.drop (text.takeWhile isAsciiDigit).length with
  | nil =>
    cases after with
    | nil => rfl
    | cons c rest =>
      have hc : c ≠ '.' := fun heq => h.point (heq ▸ rfl)
      split <;> simp_all
  | cons c rest =>
    rw [List.cons_append]
    by_cases hc : c = '.'
    · subst hc
      simp only [takeWhile_append_of_head h.digit]
    · split <;> simp_all

theorem longest?_append (h : StopsLexeme after) (htext : text ≠ []) :
    longest? (text ++ after) = longest? text := by
  unfold longest?
  rw [symbol?_append h htext, word?_append_tail h htext, number?_append h]

theorem length_le_of_symbol? {kind : TokenKind} {n : Nat} (h : symbol? text = some (kind, n)) :
    n ≤ text.length := by
  unfold symbol? at h
  split at h
  iterate 4
    cases h
    exact Nat.le_add_left 2 _
  · rename_i c rest _ _ _ _
    have hone : n = 1 := by
      split at h <;> cases h <;> rfl
    rw [hone]
    exact Nat.le_add_left 1 _
  · cases h

theorem length_le_of_word? {kind : TokenKind} {n : Nat} (h : word? text = some (kind, n)) :
    n ≤ text.length := by
  unfold word? at h
  split at h
  · cases h
  · split at h
    · cases h
      exact (List.takeWhile_prefix _).length_le
    · cases h

theorem length_le_of_number? {kind : TokenKind} {n : Nat} (h : number? text = some (kind, n)) :
    n ≤ text.length := by
  have hwhole := (List.takeWhile_prefix (l := text) isAsciiDigit).length_le
  unfold number? at h
  dsimp only at h
  split at h
  · cases h
  split at h
  · rename_i rest hrest
    have hlength := congrArg List.length hrest
    have hfraction := (List.takeWhile_prefix (l := rest) isAsciiDigit).length_le
    rw [List.length_drop, List.length_cons] at hlength
    split at h
    · cases h
      exact hwhole
    · cases h
      omega
  · cases h
    exact hwhole

/-- A lexeme is part of the text. -/
theorem length_le_of_longest? {kind : TokenKind} {n : Nat} (h : longest? text = some (kind, n)) :
    n ≤ text.length := by
  obtain h | h | h := longest?_eq_some h
  · exact length_le_of_symbol? h
  · exact length_le_of_word? h
  · exact length_le_of_number? h

end Lexeme

/-! ## Steps -/

/-- The place with more text after what it has left to read. -/
def Place.before (p : Place) (after : List Char) : Place := { p with rest := p.rest ++ after }

/-- A string that goes on after the end of the line. -/
def Token.Spans (t : Token) (line : Nat) : Prop :=
  t.kind = .string ∧ t.position.line ≤ line ∧
    line < t.position.line + t.lexeme.toList.count '\n'

namespace Cursor

open Place (ofCursor)

/-- Both steps fail, or they have the same terminals and lead to the same place, but that there is
more to read after the second one. -/
def Alike (after : List Char) : Except LexicalError (List Token × Cursor) →
    Except LexicalError (List Token × Cursor) → Prop
  | .ok (ts, next), .ok (ts', next') =>
    terminals ts' = terminals ts ∧ ofCursor next' = (ofCursor next).before after
  | .error _, .error _ => True
  | _, _ => False

variable {c c' : Cursor} {after : List Char}

theorem terminals_token_eq (c c' : Cursor) (kind : TokenKind) (value : TokenValue)
    (lexeme : List Char) :
    terminals [c'.token kind value lexeme] = terminals [c.token kind value lexeme] := by
  by_cases hkind : kind = .whitespace <;>
    simp [terminals, token, Token.isWhitespace, Terminal.ofToken, hkind]

theorem terminals_levelTokens_eq {level : Nat} (h : c'.level = c.level) :
    terminals (c'.levelTokens level) = terminals (c.levelTokens level) := by
  rw [Place.terminals_levelTokens, Place.terminals_levelTokens, h]

theorem Alike.ite {p : Prop} [Decidable p] {a b a' b' : Except LexicalError (List Token × Cursor)}
    (h : Alike after a a') (h' : Alike after b b') :
    Alike after (if p then a else b) (if p then a' else b') := by
  split
  · exact h
  · exact h'

theorem ofCursor_eq_before : ofCursor c' = (ofCursor c).before after ↔
    c'.rest = c.rest ++ after ∧ c'.level = c.level ∧ c'.brackets = c.brackets ∧
      c'.atLineStart = c.atLineStart := by
  simp [ofCursor, Place.before]

theorem indentation_alike (h : IsTail after) (hc : ofCursor c' = (ofCursor c).before after) :
    Alike after c.indentation c'.indentation := by
  obtain ⟨hrest, hlevel, hbrackets, -⟩ := ofCursor_eq_before.mp hc
  have hspaces : c'.spaces = c.spaces := by
    unfold spaces
    rw [hrest]
    exact h.takeWhile_append rfl _
  have hafter : c'.afterSpaces = c.afterSpaces ++ after := by
    unfold afterSpaces
    rw [hrest]
    exact h.dropWhile_append rfl _
  have hblank : Alike after (.ok (c.spaceTokens c.spaces, c.pass c.spaces c.afterSpaces))
      (.ok (c'.spaceTokens c'.spaces, c'.pass c'.spaces c'.afterSpaces)) := by
    refine ⟨?_, ofCursor_eq_before.mpr ⟨hafter, hlevel, hbrackets, rfl⟩⟩
    rw [Place.terminals_spaceTokens, Place.terminals_spaceTokens]
  have hleveled : Alike after c.leveled c'.leveled := by
    unfold leveled
    dsimp only
    rw [hspaces, hlevel]
    refine .ite trivial (.ite trivial ⟨?_, ofCursor_eq_before.mpr ⟨hafter, rfl, hbrackets, rfl⟩⟩)
    rw [terminals_append, terminals_append, Place.terminals_spaceTokens,
      Place.terminals_spaceTokens, terminals_levelTokens_eq hlevel]
  rw [indentation_eq_if, indentation_eq_if]
  cases hhead : c.afterSpaces.head? with
  | none =>
    have hend : c'.afterSpaces.head?.all endsBlank = true := by
      rw [hafter, List.head?_eq_none_iff.mp hhead, List.nil_append, Option.all_eq_true]
      intro d hd
      obtain rfl := h d hd
      rfl
    rw [if_pos hend]
    exact hblank
  | some d =>
    rw [hafter, List.head?_append, hhead, ← hafter, Option.some_or]
    exact .ite hblank (.ite trivial hleveled)

theorem string_alike {quote : Char} {tail : List Char} (hquote : quote ∈ tail)
    (hc : ofCursor c' = (ofCursor c).before after) :
    Alike after (c.string quote tail) (c'.string quote (tail ++ after)) := by
  obtain ⟨-, hlevel, hbrackets, -⟩ := ofCursor_eq_before.mp hc
  obtain ⟨content, rest, rfl, hcontent⟩ := List.eq_append_cons_of_mem hquote
  rw [List.append_assoc, List.cons_append, Place.string_closed c hcontent,
    Place.string_closed c' hcontent]
  exact ⟨rfl, ofCursor_eq_before.mpr ⟨rfl, hlevel, hbrackets, rfl⟩⟩

theorem symbolOrWord_alike (h : IsTail after) (hrest : c.rest ≠ []) (first : Char)
    (hc : ofCursor c' = (ofCursor c).before after) :
    Alike after (c.symbolOrWord first) (c'.symbolOrWord first) := by
  obtain ⟨hrest', hlevel, hbrackets, -⟩ := ofCursor_eq_before.mp hc
  unfold symbolOrWord
  rw [hrest', hbrackets, Lexeme.longest?_append h.endsLexeme.stops hrest]
  cases hlongest : Lexeme.longest? c.rest with
  | none => trivial
  | some found =>
    obtain ⟨kind, n⟩ := found
    have hn := Lexeme.length_le_of_longest? hlongest
    dsimp only
    rw [List.take_append_of_le_length hn, List.drop_append_of_le_length hn]
    cases Lexeme.value? kind (c.rest.take n) with
    | none => trivial
    | some value =>
      cases hopen : bracketsAfter? c.brackets kind with
      | none => trivial
      | some brackets =>
        exact ⟨terminals_token_eq c c' kind value _, ofCursor_eq_before.mpr ⟨rfl, hlevel, rfl, rfl⟩⟩

/-- A step goes alike in the whole text, unless it is a string that the cut leaves open. -/
theorem step_alike {first : Char} {tail : List Char} (h : IsTail after)
    (hrest : c.rest = first :: tail) (hc : ofCursor c' = (ofCursor c).before after)
    (hstring : c.IsInside → first = '"' ∨ first = '\'' → first ∈ tail) :
    Alike after (c.step first tail) (c'.step first (tail ++ after)) := by
  obtain ⟨hrest', hlevel, hbrackets, hstart⟩ := ofCursor_eq_before.mp hc
  unfold step
  rw [hstart, hbrackets]
  split
  · exact indentation_alike h hc
  rename_i hstart'
  have hinside : c.IsInside := isInside_iff.mpr (Bool.eq_false_iff.mpr hstart')
  split
  · refine ⟨?_, ofCursor_eq_before.mpr ⟨rfl, hlevel, hbrackets, rfl⟩⟩
    rw [hbrackets]
    exact terminals_token_eq c c' _ _ _
  case h_2 | h_3 | h_4 =>
    refine ⟨rfl, ofCursor_eq_before.mpr ⟨?_, hlevel, hbrackets, rfl⟩⟩
    rw [hrest']
    exact h.dropWhile_append rfl _
  · refine ⟨rfl, ofCursor_eq_before.mpr ⟨?_, hlevel, hbrackets, rfl⟩⟩
    rw [hrest']
    exact h.dropWhile_append rfl _
  · exact string_alike (hstring hinside (.inl rfl)) hc
  · exact string_alike (hstring hinside (.inr rfl)) hc
  · exact symbolOrWord_alike h (hrest ▸ List.cons_ne_nil first tail) first hc

/-! ## Runs -/

variable {first : Char} {tail : List Char} {ts : List Token} {next last : Cursor}

theorem Alike.ok {r : Except LexicalError (List Token × Cursor)}
    (h : Alike after (.ok (ts, next)) r) : ∃ ts' next', r = .ok (ts', next') ∧
      terminals ts' = terminals ts ∧ ofCursor next' = (ofCursor next).before after := by
  cases r with
  | error => exact h.elim
  | ok found => exact ⟨found.1, found.2, rfl, h⟩

theorem Alike.ok' {r : Except LexicalError (List Token × Cursor)} {ts' : List Token} {next' : Cursor}
    (h : Alike after r (.ok (ts', next'))) : ∃ ts next, r = .ok (ts, next) ∧
      terminals ts' = terminals ts ∧ ofCursor next' = (ofCursor next).before after := by
  cases r with
  | error => exact h.elim
  | ok found => exact ⟨found.1, found.2, rfl, h⟩

theorem string_of_step (h : c.step first tail = .ok (ts, next)) (hinside : c.IsInside)
    (hquote : first = '"' ∨ first = '\'') : c.string first tail = .ok (ts, next) := by
  cases moves_of_step h with
  | indentation hstart hbrackets => exact absurd hbrackets (hinside hstart)
  | lineEnd _ hfirst => rcases hquote with rfl | rfl <;> cases hfirst
  | blanks _ hfirst => rcases hquote with rfl | rfl <;> cases hfirst
  | comment _ hfirst => rcases hquote with rfl | rfl <;> cases hfirst
  | string _ _ h => exact h
  | lexeme _ hfirst => rcases hquote with rfl | rfl <;> cases hfirst

theorem quote_mem_of_step (h : c.step first tail = .ok (ts, next)) (hinside : c.IsInside)
    (hquote : first = '"' ∨ first = '\'') : first ∈ tail := by
  obtain ⟨content, rest, rfl, -⟩ := string_eq_ok (string_of_step h hinside hquote)
  simp

/-- A step in the text that is cut is made in the whole text too. -/
theorem reads_step (h : IsTail after) (hrest : c.rest = first :: tail)
    (hstep : c.step first tail = .ok (ts, next)) :
    Place.Reads ((ofCursor c).before after) (terminals ts) ((ofCursor next).before after) := by
  apply Place.reads_of_step
  intro c' hc'
  have halike := step_alike h hrest hc' (quote_mem_of_step hstep)
  rw [hstep] at halike
  obtain ⟨ts', next', hstep', hts, hnext⟩ := halike.ok
  refine ⟨first, tail ++ after, ts', next', ?_, hstep', hts, hnext⟩
  rw [(ofCursor_eq_before.mp hc').1, hrest, List.cons_append]

/-- Where a cursor gets does not depend on its position. -/
theorem Scans.reads (h : c.Scans ts last) :
    Place.Reads (ofCursor c) (terminals ts) (ofCursor last) := by
  induction h with
  | refl c => exact .refl _
  | @step c mid last first tail ts us hrest hstep _ ih =>
    have hfirst := reads_step .nil hrest hstep
    simp only [Place.before, List.append_nil] at hfirst
    rw [terminals_append]
    exact hfirst.trans ih

/-! ## Lines that end between two steps -/

variable {c₀ : Cursor} {y : List Char}

theorem spans_of_open {first : Char} {tail tail₀ : List Char} {next : Cursor} (hy : IsTail y)
    (htail : tail = tail₀ ++ y) (hquote : first = '"' ∨ first = '\'') (hopen : first ∉ tail₀)
    (hstring : c.string first tail = .ok (ts, next)) :
    ∃ t ∈ ts, t.Spans (c.position.line + (first :: tail₀).count '\n') := by
  have hfirst : first ≠ '\n' := by
    rcases hquote with rfl | rfl <;> decide
  have hhead (rest : List Char) : y ≠ first :: rest := by
    rintro rfl
    exact hfirst (hy first rfl)
  obtain ⟨content, after, rfl, hcontent, rfl, -⟩ := string_eq_ok hstring
  -- The quote that ends the string stands behind the cut, and so does a line end before it.
  obtain ⟨inner, rfl⟩ : ∃ inner, content = tail₀ ++ '\n' :: inner := by
    obtain ⟨row, rfl, hrow⟩ | ⟨row, rfl, hrow⟩ := List.append_eq_append_iff.mp htail
    · cases row with
      | nil => exact absurd hrow.symm (hhead after)
      | cons d row =>
        obtain rfl := (List.cons.inj hrow).1
        exact absurd (List.mem_append_right _ List.mem_cons_self) hopen
    · cases row with
      | nil => exact absurd hrow (hhead after)
      | cons d row =>
        obtain rfl := hy d (by rw [hrow]; rfl)
        exact ⟨row, rfl⟩
  refine ⟨_, List.mem_singleton_self _, rfl, Nat.le_add_right _ _, ?_⟩
  simp [token, List.count_append, hfirst]

/-- Between two steps a run passes the end of each line, unless a string goes on there. With another
text behind the line, the steps up to its end are made alike. -/
theorem Scans.cut (hy : IsTail y) (h : c.Scans ts last) (hend : last.rest = [])
    (hc : ofCursor c = (ofCursor c₀).before y) :
    (∃ us vs mid mid₀, ts = us ++ vs ∧ c.Scans us mid ∧ mid.Scans vs last ∧
      ofCursor mid = (ofCursor mid₀).before y ∧ mid₀.rest = [] ∧
      ∀ z, IsTail z → Place.Reads ((ofCursor c₀).before z) (terminals us)
        ((ofCursor mid₀).before z)) ∨
      ∃ t ∈ ts, t.Spans (c.position.line + c₀.rest.count '\n') := by
  induction h generalizing c₀ with
  | refl c =>
    have hnil : c₀.rest = [] := by
      rw [(ofCursor_eq_before.mp hc).1] at hend
      exact (List.append_eq_nil_iff.mp hend).1
    exact .inl ⟨[], [], c, c₀, rfl, .refl c, .refl c, hc, hnil, fun _ _ => .refl _⟩
  | @step c mid last first tail ts us hrest hstep hscans ih =>
    cases hrest₀ : c₀.rest with
    | nil => exact .inl ⟨[], ts ++ us, c, c₀, rfl, .refl c, .step hrest hstep hscans, hc, hrest₀,
        fun _ _ => .refl _⟩
    | cons first₀ tail₀ =>
      obtain ⟨hcut, hlevel, hbrackets, hstart⟩ := ofCursor_eq_before.mp hc
      rw [hrest, hrest₀, List.cons_append] at hcut
      obtain ⟨rfl, htail⟩ := List.cons.inj hcut
      by_cases hopen : c₀.IsInside ∧ (first = '"' ∨ first = '\'') ∧ first ∉ tail₀
      · obtain ⟨hinside, hquote, hmem⟩ := hopen
        have hinside' : c.IsInside := by
          unfold IsInside
          rw [hstart, hbrackets]
          exact hinside
        obtain ⟨t, ht, hspans⟩ := spans_of_open hy htail hquote hmem
          (string_of_step hstep hinside' hquote)
        exact .inr ⟨t, List.mem_append_left _ ht, hspans⟩
      · have hstring : c₀.IsInside → first = '"' ∨ first = '\'' → first ∈ tail₀ :=
          fun hinside hquote => by_contra fun hmem => hopen ⟨hinside, hquote, hmem⟩
        have halike := step_alike hy hrest₀ hc hstring
        rw [← htail, hstep] at halike
        obtain ⟨ts₀, mid₀, hstep₀, hts, hmid⟩ := halike.ok'
        obtain ⟨lexeme, hpasses⟩ := passes_of_moves hrest (moves_of_step hstep)
        have hrest₀' : c₀.rest = lexeme ++ mid₀.rest := by
          have hwhole := hpasses.rest
          rw [(ofCursor_eq_before.mp hmid).1, (ofCursor_eq_before.mp hc).1, ← List.append_assoc]
            at hwhole
          exact List.append_cancel_right hwhole
        obtain ⟨us', vs, m, m₀, rfl, hfirst, hsecond, hm, hm₀, hreads⟩ | ⟨t, ht, hspans⟩ := ih hend hmid
        · refine .inl ⟨ts ++ us', vs, m, m₀, (List.append_assoc ..).symm, .step hrest hstep hfirst,
            hsecond, hm, hm₀, fun z hz => ?_⟩
          rw [terminals_append, hts]
          exact (reads_step hz hrest₀ hstep₀).trans (hreads z hz)
        · refine .inr ⟨t, List.mem_append_right _ ht, ?_⟩
          rw [hpasses.position, Position.line_advance, Nat.add_assoc, ← List.count_append,
            ← hrest₀'] at hspans
          rwa [← hrest₀]

end Cursor

end Offside
