import Offside.Proofs.Decimal.RoundTrip
import Offside.Proofs.Token.Bookkeeping

/-!
# Tokens keep the whole text

The lexemes of the tokens, with the comments between them, make up the text again. So every token
has a place in the text, and its position is the line and the column of that place.
-/

namespace Offside

open Text (Position)
open Decimal (IsDigits digitsValue)

/-! ## Texts and their tokens -/

/-- The lexeme is one of the token's kind, and the value is what it spells. -/
def Token.IsSpelled (t : Token) : Prop :=
  match t.kind with
  | .string => ∃ quote content, (quote = '"' ∨ quote = '\'') ∧ quote ∉ content ∧
      t.lexeme.toList = quote :: content ++ [quote] ∧ t.value = .string (String.ofList content)
  | .name => t.value = .name t.lexeme
  | .int => IsDigits t.lexeme.toList ∧
      ∃ n : Int64, t.value = .int n ∧ n.toInt = digitsValue t.lexeme.toList
  | .indent | .dedent | .endOfFile => t.lexeme = ""
  | .newline => t.lexeme = "" ∨ t.lexeme = "\n"
  | .whitespace => t.lexeme = "\n" ∨ t.lexeme ≠ "" ∧ ∀ c ∈ t.lexeme.toList, Cursor.isBlank c = true
  | _ => t.lexeme ≠ ""

/-- What follows `before` in a text is made up of the lexemes of the tokens, each with the position
of its lexeme, and of comments. A comment goes on to the end of its line. -/
inductive Text.Decomposes : (before rest : List Char) → List Token → Prop where
  | nil (before : List Char) : Decomposes before [] []
  | token {before rest : List Char} {t : Token} {ts : List Token} :
    t.position = .after before → t.IsSpelled →
    Decomposes (before ++ t.lexeme.toList) rest ts →
    Decomposes before (t.lexeme.toList ++ rest) (t :: ts)
  | comment {before content rest : List Char} {ts : List Token} :
    '\n' ∉ content → (∀ c ∈ rest.head?, c = '\n') →
    Decomposes (before ++ '#' :: content) rest ts →
    Decomposes before ('#' :: content ++ rest) ts

open Text (Decomposes)

namespace Text.Decomposes

variable {c : Cursor} {before rest lexeme : List Char} {ts us : List Token} {kind : TokenKind}
  {value : TokenValue}

theorem single (hc : c.position = .after before) (hspelled : (c.token kind value lexeme).IsSpelled)
    (h : Decomposes (before ++ lexeme) rest ts) :
    Decomposes before (lexeme ++ rest) (c.token kind value lexeme :: ts) := by
  have htoken := @token before rest (c.token kind value lexeme) ts hc hspelled
  simp only [Cursor.token, String.toList_ofList] at htoken
  exact htoken h

/-- Tokens that no text stands for. -/
theorem synthesized (hts : ∀ t ∈ ts, t.position = .after before ∧ t.lexeme = "" ∧ t.IsSpelled)
    (h : Decomposes before rest us) : Decomposes before rest (ts ++ us) := by
  induction ts with
  | nil => exact h
  | cons t ts ih =>
    rw [List.forall_mem_cons] at hts
    obtain ⟨⟨hposition, hlexeme, hspelled⟩, hts⟩ := hts
    have htoken := @token before rest t (ts ++ us) hposition hspelled
    simp only [hlexeme, String.toList_empty, List.append_nil, List.nil_append] at htoken
    exact htoken (ih hts)

/-- Where a token stands in the text. -/
theorem mem (h : Decomposes before rest ts) {t : Token} (ht : t ∈ ts) :
    ∃ pre suffix, rest = pre ++ t.lexeme.toList ++ suffix ∧
      t.position = .after (before ++ pre) ∧ t.IsSpelled := by
  induction h with
  | nil => cases ht
  | @token before rest u us hposition hspelled _ ih =>
    obtain rfl | ht := List.mem_cons.mp ht
    · exact ⟨[], rest, rfl, by rwa [List.append_nil], hspelled⟩
    · obtain ⟨pre, suffix, rfl, hat, ht⟩ := ih ht
      exact ⟨u.lexeme.toList ++ pre, suffix, by simp, by rwa [← List.append_assoc], ht⟩
  | @comment before content rest us _ _ _ ih =>
    obtain ⟨pre, suffix, rfl, hat, ht⟩ := ih ht
    exact ⟨'#' :: content ++ pre, suffix, by simp, by rwa [← List.append_assoc], ht⟩

end Text.Decomposes

/-! ## Lexemes -/

namespace Lexeme

variable {text : List Char} {kind : TokenKind} {value : TokenValue} {n : Nat}

theorem symbol?_ne_int : symbol? text ≠ some (.int, n) := by
  intro h
  unfold symbol? at h
  split at h <;> try split at h
  all_goals cases h

theorem keyword?_ne_int (word : String) : keyword? word ≠ some .int := by
  unfold keyword?
  split <;> nofun

theorem word?_ne_int : word? text ≠ some (.int, n) := by
  intro h
  unfold word? at h
  split at h
  · cases h
  split at h
  · injection h with h
    injection h with hkind
    cases hkeyword : keyword? (String.ofList _) with
    | none => rw [hkeyword] at hkind; cases hkind
    | some kind =>
      rw [hkeyword] at hkind
      exact keyword?_ne_int _ (hkeyword.trans (congrArg some hkind))
  · cases h

/-- An integer is all digits. -/
theorem isDigits_of_longest? (h : longest? text = some (.int, n)) : IsDigits (text.take n) := by
  obtain h | h | h := longest?_eq_some h
  · exact absurd h symbol?_ne_int
  · exact absurd h word?_ne_int
  have hn : n = (text.takeWhile Text.isAsciiDigit).length ∧ n ≠ 0 := by
    unfold number? at h
    dsimp only at h
    split at h
    · cases h
    rename_i hne
    split at h
    · split at h
      all_goals cases h
      exact ⟨rfl, hne⟩
    · cases h
      exact ⟨rfl, hne⟩
  have htake : text.take n = text.takeWhile Text.isAsciiDigit := by
    rw [hn.1, take_length_takeWhile]
  rw [htake]
  constructor
  · apply List.ne_nil_of_length_pos
    omega
  · exact fun c hc => List.mem_takeWhile_imp hc

theorem take_ne_nil_of_longest? (h : longest? text = some (kind, n)) : text.take n ≠ [] := by
  have hpos := length_pos_of_longest? h
  cases text with
  | nil => cases h
  | cons c rest => simp; omega

theorem isSpelled_of_longest? {t : Token} (h : longest? text = some (t.kind, n))
    (hlexeme : t.lexeme = String.ofList (text.take n))
    (hvalue : value? t.kind (text.take n) = some t.value) : t.IsSpelled := by
  have hkind := isLexeme_of_longest? h
  obtain ⟨kind, value, lexeme, position⟩ := t
  dsimp only at h hlexeme hvalue hkind
  subst hlexeme
  unfold Token.IsSpelled
  dsimp only
  split
  case h_1 | h_4 | h_5 | h_6 | h_7 | h_8 => cases hkind
  · cases hvalue
    rfl
  · obtain ⟨k, hk, rfl⟩ := Option.map_eq_some_iff.mp hvalue
    rw [String.toList_ofList]
    exact ⟨isDigits_of_longest? h, k, rfl, toInt_of_integer? hk⟩
  · have hne := take_ne_nil_of_longest? h
    simpa using hne

end Lexeme

/-! ## Steps and runs -/

namespace Cursor

variable {c next last : Cursor} {first : Char} {tail before rest : List Char} {ts us : List Token}

theorem decomposes_levelTokens (hc : c.position = .after before) (level : Nat)
    (h : Decomposes before rest us) : Decomposes before rest (c.levelTokens level ++ us) := by
  refine .synthesized (fun t ht => ?_) h
  unfold levelTokens at ht
  split at ht
  · rw [List.mem_singleton.mp ht]
    exact ⟨hc, rfl, rfl⟩
  · rw [List.eq_of_mem_replicate ht]
    exact ⟨hc, rfl, rfl⟩

theorem isSpelled_whitespace {run : List Char} (hne : run ≠ [])
    (hrun : ∀ d ∈ run, isBlank d = true) : (c.token .whitespace .none run).IsSpelled := by
  refine .inr ⟨?_, ?_⟩
  · simpa [token] using hne
  · simpa [token] using hrun

theorem decomposes_spaceTokens (hc : c.position = .after before)
    (h : Decomposes (before ++ c.spaces) rest us) :
    Decomposes before (c.spaces ++ rest) (c.spaceTokens c.spaces ++ us) := by
  unfold spaceTokens
  split
  · rename_i hempty
    rw [List.isEmpty_iff.mp hempty] at h ⊢
    rwa [List.append_nil] at h
  · rename_i hne
    refine .single hc (isSpelled_whitespace (by simpa using hne) fun d hd => ?_) h
    have hspace : (d == ' ') = true := List.mem_takeWhile_imp (p := (· == ' ')) hd
    rw [eq_of_beq hspace]
    rfl

/-- A step cuts its tokens off the text. -/
theorem Moves.decomposes (h : c.Moves first tail ts next) (hrest : c.rest = first :: tail)
    (hc : c.position = .after before)
    (hnext : ∀ before, next.position = .after before → Decomposes before next.rest us) :
    Decomposes before c.rest (ts ++ us) := by
  have hpass (lexeme : List Char) : c.position.advance lexeme = .after (before ++ lexeme) := by
    rw [hc, Position.advance_after]
  cases h with
  | indentation _ _ h =>
    obtain ⟨level, -, rfl, rfl⟩ := indentation_eq_ok h
    have hspaces := decomposes_spaceTokens hc (hnext _ (hpass c.spaces))
    rw [List.append_assoc, show c.rest = c.spaces ++ c.afterSpaces from
      List.takeWhile_append_dropWhile.symm]
    exact decomposes_levelTokens hc level hspaces
  | lineEnd _ hfirst =>
    subst hfirst
    rw [hrest]
    refine .single hc ?_ (hnext _ (hpass ['\n']))
    unfold token
    split
    · exact .inr rfl
    · exact .inl rfl
  | blanks _ hblank =>
    rw [← List.takeWhile_append_dropWhile (p := isBlank) (l := c.rest)]
    refine .single hc (isSpelled_whitespace ?_ fun d hd => List.mem_takeWhile_imp hd)
      (hnext _ (hpass _))
    rw [hrest, List.takeWhile_cons_of_pos hblank]
    exact List.cons_ne_nil _ _
  | comment _ hfirst =>
    subst hfirst
    have htake : c.rest.takeWhile (· != '\n') = '#' :: tail.takeWhile (· != '\n') := by
      rw [hrest, List.takeWhile_cons_of_pos (by decide)]
    rw [← List.takeWhile_append_dropWhile (p := (· != '\n')) (l := c.rest), htake]
    refine .comment (newline_notMem_takeWhile rfl tail) (fun d hd => ?_) ?_
    · simpa using head_dropWhile_eq hd
    · rw [← htake]
      exact hnext _ (hpass _)
  | string _ hquote h =>
    obtain ⟨content, after, rfl, hcontent, rfl, rfl⟩ := string_eq_ok h
    have hlexeme : c.rest = (first :: content ++ [first]) ++ after := by simp [hrest]
    rw [hlexeme]
    refine .single hc ⟨first, content, hquote, hcontent, ?_, rfl⟩ (hnext _ (hpass _))
    exact String.toList_ofList
  | lexeme _ _ h =>
    obtain ⟨kind, n, value, brackets, hlongest, hvalue, -, rfl, rfl⟩ := symbolOrWord_eq_ok h
    have hsingle := Decomposes.single hc (Lexeme.isSpelled_of_longest? hlongest rfl hvalue)
      (hnext _ (hpass _))
    simp only [pass, List.take_append_drop] at hsingle
    exact hsingle

theorem Scans.decomposes (h : c.Scans ts last) (hc : c.position = .after before)
    (hlast : ∀ before, last.position = .after before → Decomposes before last.rest us) :
    Decomposes before c.rest (ts ++ us) := by
  induction h generalizing before with
  | refl => exact hlast before hc
  | step hrest hstep _ ih =>
    rw [List.append_assoc]
    exact (moves_of_step hstep).decomposes hrest hc fun before hmid => ih hmid hlast

theorem decomposes_closing (hc : c.position = .after before) : Decomposes before [] c.closing := by
  rw [← List.append_nil c.closing]
  refine .synthesized (fun t ht => ?_) (.nil before)
  simp only [closing, List.cons_append, List.mem_cons, List.mem_append, List.not_mem_nil,
    or_false] at ht
  obtain rfl | ht | rfl := ht
  · exact ⟨hc, rfl, .inl rfl⟩
  · rw [List.eq_of_mem_replicate ht]
    exact ⟨hc, rfl, rfl⟩
  · exact ⟨hc, rfl, rfl⟩

theorem Scans.decomposes_text {text : List Char} (h : (ofText text).Scans ts last)
    (hend : last.rest = []) : Decomposes [] text (ts ++ last.closing) := by
  refine h.decomposes rfl fun before hlast => ?_
  rw [hend]
  exact decomposes_closing hlast

end Cursor

/-! ## Whole texts -/

/-- The lexemes of the tokens and the comments between them make up the text. Every token stands
where its position says, and its value is what its lexeme spells. The lexer finds them in a run that
is never out of bounds. Whenever it comes to the head of its loop, it knows the line that it has
read up to and where that line begins. -/
theorem tokens_decompose {text : String} {ts : List Token} (h : tokens text = .ok ts) :
    Decomposes [] text.toList ts ∧
    (∀ s, Lexer.Reaches text.toList s → ∃ before, s.1.Tracks text.toList before) ∧
    ∃ last now closed, Lexer.Reaches text.toList (last, now) ∧ last.rest = [] ∧
      last.close = .ok closed ∧ Lexer.run text.toList = .ok closed ∧ closed.found.toList = ts := by
  obtain ⟨us, last, hscans, hend, hts⟩ := scans_of_tokens h
  obtain ⟨closed, hrun, hfound⟩ := run_of_tokens h
  obtain ⟨stop, now, hreaches, hstop, hclose⟩ := Lexer.run_reaches hrun
  refine ⟨?_, fun s => Lexer.Reaches.tracks, stop, now, closed, hreaches, hstop, hclose, hrun,
    hfound⟩
  rw [hts]
  exact hscans.decomposes_text hend

/-- A comment after a string of two lines, in a block whose head has a letter of two bytes. -/
def commentedText : String := "if λ:\n    x = 'a\nb' # c\n"

def commentedTokens : List Token :=
  [⟨.ifWord, .none, "if", ⟨1, 1⟩⟩, ⟨.whitespace, .none, " ", ⟨1, 3⟩⟩,
    ⟨.name, .name "λ", "λ", ⟨1, 4⟩⟩, ⟨.colon, .none, ":", ⟨1, 6⟩⟩,
    ⟨.newline, .none, "\n", ⟨1, 7⟩⟩, ⟨.indent, .none, "", ⟨2, 1⟩⟩,
    ⟨.whitespace, .none, "    ", ⟨2, 1⟩⟩, ⟨.name, .name "x", "x", ⟨2, 5⟩⟩,
    ⟨.whitespace, .none, " ", ⟨2, 6⟩⟩, ⟨.assign, .none, "=", ⟨2, 7⟩⟩,
    ⟨.whitespace, .none, " ", ⟨2, 8⟩⟩, ⟨.string, .string "a\nb", "'a\nb'", ⟨2, 9⟩⟩,
    ⟨.whitespace, .none, " ", ⟨3, 3⟩⟩, ⟨.newline, .none, "\n", ⟨3, 7⟩⟩,
    ⟨.newline, .none, "", ⟨4, 1⟩⟩, ⟨.dedent, .none, "", ⟨4, 1⟩⟩,
    ⟨.endOfFile, .none, "", ⟨4, 1⟩⟩]

theorem decompose_commentedText :
    tokens commentedText = .ok commentedTokens ∧
      Decomposes [] commentedText.toList commentedTokens ∧
      ∃ last now, Lexer.Reaches commentedText.toList (last, now) ∧ last.line = 4 ∧
        last.lineStart = 25 := by
  have htokens : tokens commentedText = .ok commentedTokens := by decide +kernel
  obtain ⟨hdecomposes, htracks, last, now, closed, hreaches, hend, -⟩ := tokens_decompose htokens
  obtain ⟨before, hbefore⟩ := htracks _ hreaches
  have hall : commentedText.toList = before := by
    have hrest := hbefore.rest
    rwa [hend, List.append_nil] at hrest
  subst hall
  refine ⟨htokens, hdecomposes, last, now, hreaches, ?_, ?_⟩
  · rw [hbefore.line]
    decide
  · rw [hbefore.lineStart]
    decide +kernel

end Offside
