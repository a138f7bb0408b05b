import Offside.Machine
import Offside.Proofs.Grammar.Balance
import Offside.Proofs.Grammar.Concatenation
import Offside.Proofs.Layout.BlankLines
import Offside.Proofs.Layout.WellFormed
import Offside.Proofs.Token.Lossless

/-!
# Texts one after the other

A text whose last line is ended leaves the cursor at the start of a line, maybe inside blocks. A
second text reads there as it does on its own, but that its first line closes those blocks. So two
programs can be read and run one by one, or as one.
-/

namespace Offside

open Grammar (Derives Terminal Unindented balance bracketChange terminals terminals_append)
open Grammar.Terminal (word)
open Place (lineEndTerminals ofCursor)

/-! ## Brackets along a run -/

namespace Cursor

variable {c next last : Cursor} {first : Char} {tail : List Char} {ts : List Token}

theorem balance_leveling (level target : Nat) : balance (Place.leveling level target) = 0 := by
  unfold Place.leveling
  split
  · rfl
  · exact Grammar.balance_dedents _

theorem balance_lineEndTerminals (brackets : List Char) :
    balance (lineEndTerminals brackets) = 0 := by
  unfold lineEndTerminals
  split <;> rfl

theorem balance_closing (c : Cursor) : balance (terminals c.closing) = 0 := by
  rw [terminals_closing, Grammar.balance_append, Grammar.balance_cons, Grammar.balance_dedents]
  rfl

theorem terminals_lineEnd (c : Cursor) (tail : List Char) :
    terminals (c.lineEnd tail).1 = lineEndTerminals c.brackets := by
  unfold lineEndTerminals
  split <;> simp_all [lineEnd, terminals, token, Token.isWhitespace, Terminal.ofToken, word]

theorem bracketChange_of_bracketsAfter? {kind : TokenKind} {brackets brackets' : List Char}
    (h : bracketsAfter? brackets kind = some brackets') :
    bracketChange kind + brackets.length = brackets'.length := by
  unfold bracketChange
  obtain ⟨bracket, hopener, -, rfl⟩ | ⟨hopener, hcloses, rfl⟩ | ⟨bracket, hcloses, rfl⟩ :=
    Layout.bracketsAfter?_eq_some h
  · simp only [hopener, Option.isSome_some, if_true, List.length_cons]
    omega
  · simp only [hopener, hcloses, Option.isSome_none, Bool.false_eq_true, if_false]
    omega
  · have hopener : opener? kind = none := by
      cases kind <;> first | rfl | cases hcloses
    simp only [hopener, hcloses, Option.isSome_none, Option.isSome_some, Bool.false_eq_true,
      if_false, if_true, List.length_cons]
    omega

theorem Moves.balance (h : c.Moves first tail ts next) :
    balance (terminals ts) + c.brackets.length = next.brackets.length := by
  cases h with
  | indentation _ _ h =>
    obtain ⟨level, -, rfl, rfl⟩ := indentation_eq_ok h
    rw [terminals_append, Place.terminals_levelTokens, Place.terminals_spaceTokens,
      List.append_nil, balance_leveling]
    simp [pass]
  | lineEnd =>
    rw [terminals_lineEnd, balance_lineEndTerminals, Int.zero_add]
    rfl
  | blanks => simp [Cursor.blanks, pass, terminals, token, Token.isWhitespace]
  | comment => simp [Cursor.comment, pass, terminals]
  | string _ _ h =>
    obtain ⟨content, after, -, -, rfl, rfl⟩ := string_eq_ok h
    rw [terminals_string, Grammar.balance_cons, Grammar.balance_nil, Int.add_zero]
    exact bracketChange_of_bracketsAfter? rfl
  | lexeme _ _ h =>
    obtain ⟨kind, n, value, brackets, hlongest, -, hbrackets, rfl, rfl⟩ := symbolOrWord_eq_ok h
    rw [terminals_token (Lexeme.ne_whitespace_of_longest? hlongest), Grammar.balance_cons,
      Grammar.balance_nil, Int.add_zero]
    exact bracketChange_of_bracketsAfter? hbrackets

theorem Scans.balance (h : c.Scans ts last) :
    balance (terminals ts) + c.brackets.length = last.brackets.length := by
  induction h with
  | refl => simp [terminals]
  | step _ hstep _ ih =>
    have hfirst := (moves_of_step hstep).balance
    rw [terminals_append, Grammar.balance_append]
    omega

end Cursor

/-! ## The first text -/

variable {x : List Char} {ts : List Token}

/-- No string goes on after the last line end. -/
theorem not_spans_lineEnd (h : tokens (String.ofList (x ++ ['\n'])) = .ok ts) {t : Token}
    (ht : t ∈ ts) : ¬ t.Spans (1 + x.count '\n') := by
  rintro ⟨hkind, -, hlate⟩
  obtain ⟨us, last, hscans, hend, rfl⟩ := scans_of_tokens h
  rw [String.toList_ofList] at hscans
  obtain ⟨pre, suffix, hcut, hposition, hspelled⟩ := (hscans.decomposes_text hend).mem ht
  unfold Token.IsSpelled at hspelled
  rw [hkind] at hspelled
  obtain ⟨quote, content, hquote, -, hlexeme, -⟩ := hspelled
  -- The string ends with a quote, so that the line end stands behind it.
  obtain ⟨more, rfl⟩ : ∃ more, suffix = more ++ ['\n'] := by
    cases suffix using List.reverseRecOn with
    | nil =>
      rw [hlexeme, List.append_nil, ← List.append_assoc] at hcut
      have hlast := (List.append_inj' hcut rfl).2
      rcases hquote with rfl | rfl <;> cases hlast
    | append_singleton more d _ =>
      rw [← List.append_assoc] at hcut
      exact ⟨more, by rw [(List.append_inj' hcut rfl).2]⟩
  rw [← List.append_assoc] at hcut
  have hx := congrArg (List.count '\n') (List.append_cancel_right hcut)
  rw [List.count_append, List.count_append] at hx
  rw [hposition] at hlate
  simp only [Text.Position.after, List.nil_append] at hlate
  omega

/-- Before a second text, a text that a program is read from leads to the start of a line, outside of
all brackets. -/
theorem reads_first (h : tokens (String.ofList (x ++ ['\n'])) = .ok ts) {p : Program}
    (hp : Derives (.program p) (terminals ts)) :
    ∃ u level, terminals ts = u ++ word .newline :: word .newline ::
        (List.replicate level (word .dedent) ++ [word .endOfFile]) ∧
      ∀ second, Place.Reads (.newLine 0 (x ++ '\n' :: second)) (u ++ [word .newline])
        (.newLine level second) := by
  obtain ⟨all, last, hscans, hend, rfl⟩ := scans_of_tokens h
  rw [String.toList_ofList] at hscans
  have hc : ofCursor (Cursor.ofText (x ++ ['\n'])) =
      (ofCursor (Cursor.ofText x)).before ['\n'] := rfl
  obtain ⟨us, vs, mid, mid₀, rfl, hfirst, hsecond, hm, hm₀, hreads⟩ | ⟨t, ht, hspans⟩ :=
    hscans.cut (.newline []) hend hc
  · obtain ⟨hrest, hlevel, hbrackets, hstart⟩ := Cursor.ofCursor_eq_before.mp hm
    rw [hm₀, List.nil_append] at hrest
    obtain ⟨ts₁, vs', next, rfl, hlast, hts₁, hnext, -⟩ :=
      Cursor.behind_newline hrest hsecond hend
    obtain ⟨hnil, hnextLevel, hnextBrackets, -⟩ := Place.mk.inj hnext
    obtain ⟨rfl, rfl⟩ : vs' = [] ∧ last = next := by
      cases hlast with
      | refl => exact ⟨rfl, rfl⟩
      | step hcons =>
        rw [hnil] at hcons
        cases hcons
    have hopen : mid.brackets = [] := by
      have hrun := hscans.balance
      have hall := Grammar.derives_balance hp
      rw [terminals_append, Grammar.balance_append, Cursor.balance_closing] at hall
      rw [← hnextBrackets]
      apply List.eq_nil_of_length_eq_zero
      simp only [Cursor.ofText, List.length_nil] at hrun
      omega
    have hone : lineEndTerminals mid.brackets = [word .newline] := by rw [hopen]; rfl
    refine ⟨terminals us, mid.level, ?_, fun second => ?_⟩
    · rw [terminals_append, Cursor.terminals_closing, terminals_append, List.append_nil, hts₁, hone,
        hnextLevel]
      simp
    · have hbefore := hreads ('\n' :: second) (.newline second)
      have hend : (ofCursor mid₀).before ('\n' :: second) =
          ⟨'\n' :: second, mid.level, mid.brackets, mid.atLineStart⟩ := by
        simp [ofCursor, Place.before, hm₀, hlevel, hbrackets, hstart]
      rw [hend, hopen] at hbefore
      exact hbefore.trans Place.reads_lineEnd
  · exact absurd hspans (not_spans_lineEnd h (List.mem_append_left _ ht))

/-! ## The second text -/

namespace Place

/-- The text is read to its end with these terminals, the layout at its end included. -/
def ReadsToEnd (p : Place) (us : List Terminal) : Prop :=
  ∃ vs level brackets atLineStart, Reads p vs ⟨[], level, brackets, atLineStart⟩ ∧
    us = vs ++ word .newline :: List.replicate level (word .dedent)

variable {p q : Place} {us vs : List Terminal} {level : Nat}

theorem Reads.toEnd (h : Reads p us q) (h' : ReadsToEnd q vs) : ReadsToEnd p (us ++ vs) := by
  obtain ⟨ws, level, brackets, atLineStart, hreads, rfl⟩ := h'
  exact ⟨us ++ ws, level, brackets, atLineStart, h.trans hreads, (List.append_assoc ..).symm⟩

theorem tokens_of_readsToEnd {text : List Char} (h : ReadsToEnd (newLine 0 text) us) :
    ∃ ts, tokens (String.ofList text) = .ok ts ∧ terminals ts = us ++ [word .endOfFile] := by
  obtain ⟨ws, level, brackets, atLineStart, hreads, rfl⟩ := h
  exact tokens_of_reads hreads

end Place

open Place (ReadsToEnd)

namespace Cursor

variable {c next last : Cursor} {first : Char} {tail : List Char} {us : List Token}

theorem Scans.readsToEnd (h : c.Scans us last) (hend : last.rest = []) :
    ∃ v, terminals (us ++ last.closing) = v ++ [word .endOfFile] ∧ ReadsToEnd (ofCursor c) v := by
  refine ⟨terminals us ++ word .newline :: List.replicate last.level (word .dedent), ?_,
    terminals us, last.level, last.brackets, last.atLineStart, ?_, rfl⟩
  · rw [terminals_append, terminals_closing]
    simp
  · rw [← hend]
    exact h.reads

/-- With these terminals the text is read to its end from its own start. Inside of blocks it is read
in the same way, but that dedents follow the line ends that come first. -/
def ReadsDeeper (c : Cursor) (us : List Terminal) : Prop :=
  ∃ lines v, us = List.replicate lines (word .newline) ++ v ++ [word .endOfFile] ∧
    ∀ level, ReadsToEnd ⟨c.rest, level, [], c.atLineStart⟩
      (List.replicate lines (word .newline) ++ List.replicate level (word .dedent) ++ v)

theorem ReadsDeeper.of_lines {us : List Terminal} {n : Nat}
    (hreads : ∀ level, Place.Reads ⟨c.rest, level, [], c.atLineStart⟩
      (List.replicate n (word .newline)) ⟨next.rest, level, [], next.atLineStart⟩)
    (h : next.ReadsDeeper us) : c.ReadsDeeper (List.replicate n (word .newline) ++ us) := by
  obtain ⟨lines, v, rfl, hnext⟩ := h
  refine ⟨n + lines, v, by rw [List.replicate_add]; simp only [List.append_assoc], fun level => ?_⟩
  have hrun := (hreads level).toEnd (hnext level)
  rwa [List.append_assoc, ← List.append_assoc, ← List.replicate_add, ← List.append_assoc] at hrun

/-- At the end of a text without content. -/
theorem readsDeeper_closing (hend : c.rest = []) (hlevel : c.level = 0) :
    c.ReadsDeeper (terminals c.closing) := by
  refine ⟨1, [], ?_, fun level => ?_⟩
  · rw [terminals_closing, hlevel]
    rfl
  · rw [hend]
    exact ⟨[], level, [], _, .refl _, by simp⟩

/-- The first line with content is not indented, so that its dedents close all blocks. -/
theorem readsDeeper_content {level : Nat} (hlevel : c.level = 0) (hstart : c.atLineStart = true)
    (hspaces : c.spaces = List.replicate (4 * level) ' ') (hlast : level ≤ c.level + 1)
    (hafter : c.afterSpaces = first :: tail) (hfirst : Place.startsContent first = true)
    (hbrackets : c.brackets = [])
    (h : ({ c.pass c.spaces c.afterSpaces with level := level } : Cursor).Scans us last)
    (hend : last.rest = [])
    (hhead : Unindented (Place.leveling c.level level ++ terminals (us ++ last.closing))) :
    c.ReadsDeeper (Place.leveling c.level level ++ terminals (us ++ last.closing)) := by
  obtain ⟨v, hv, hreads⟩ := h.readsToEnd hend
  obtain rfl : level = 0 := by
    by_contra hne
    have hup : Place.leveling c.level level = [word .indent] := if_pos (by omega)
    rw [hup] at hhead
    exact hhead 0 _ rfl
  have hnone : Place.leveling c.level 0 = [] := by rw [hlevel]; rfl
  have hrest : c.rest = first :: tail := by rw [rest_eq_spaces_append, hspaces, hafter]; rfl
  refine ⟨0, v, ?_, fun level => ?_⟩
  · rw [hnone, hv]
    rfl
  · have hout : Place.Reads (.newLine level (first :: tail)) (Place.leveling level 0)
        (.inLine 0 [] (first :: tail)) := Place.reads_indentation (Nat.zero_le _) hfirst
    rw [show Place.leveling level 0 = List.replicate level (word .dedent) from rfl] at hout
    simp only [ofCursor, pass, hafter, hbrackets] at hreads
    rw [hrest, hstart]
    exact hout.toEnd hreads

/-- The spaces of a line without content. -/
theorem reads_spaces_blank (hrest : c.rest ≠ []) (h : ∀ d ∈ c.afterSpaces.head?, endsBlank d = true)
    (level : Nat) :
    Place.Reads (.newLine level c.rest) [] (.inLine level [] c.afterSpaces) := by
  rw [rest_eq_spaces_append] at hrest ⊢
  exact Place.reads_indentation_blank (fun _ => mem_spaces) h hrest

theorem reads_comment_rest {atLineStart : Bool} {brackets : List Char}
    (hplace : atLineStart = true → brackets ≠ []) (tail : List Char) (level : Nat) :
    Place.Reads ⟨'#' :: tail, level, brackets, atLineStart⟩ []
      (.inLine level brackets (('#' :: tail).dropWhile (· != '\n'))) := by
  have hcut : '#' :: tail = '#' :: tail.takeWhile (· != '\n') ++ tail.dropWhile (· != '\n') := by
    rw [List.cons_append, List.takeWhile_append_dropWhile]
  rw [List.dropWhile_cons_of_pos rfl, hcut]
  exact Place.reads_comment hplace (newline_notMem_takeWhile rfl tail) (.dropWhile tail)

/-- Nothing but a comment is left of the line. -/
def EndsLine (c : Cursor) : Prop := ∀ d ∈ c.rest.head?, d = '#' ∨ d = '\n'

/-- From the start of a line, or where nothing but a comment is left of it. -/
theorem Scans.readsDeeper (h : c.Scans us last) (hend : last.rest = []) (hlevel : c.level = 0)
    (hbrackets : c.brackets = []) (hreturn : '\r' ∉ c.rest)
    (hblank : c.atLineStart = true ∨ c.EndsLine)
    (hhead : Unindented (terminals (us ++ last.closing))) :
    c.ReadsDeeper (terminals (us ++ last.closing)) := by
  induction h with
  | refl c => exact readsDeeper_closing hend hlevel
  | @step c next last first tail ts us hrest hstep hscans ih =>
    rw [List.append_assoc, terminals_append] at hhead ⊢
    have hmoves := moves_of_step hstep
    obtain ⟨lexeme, hpasses⟩ := passes_of_moves hrest hmoves
    have hreturn' : '\r' ∉ next.rest := by
      rw [hpasses.rest] at hreturn
      exact fun h => hreturn (List.mem_append_right _ h)
    have hinside (h : c.IsInside) : first = '#' ∨ first = '\n' := by
      obtain hstart | hblank := hblank
      · exact absurd hbrackets (h hstart)
      · exact hblank first (by rw [hrest]; rfl)
    -- A step without content gives line ends alone, at every level.
    have hsilent (n : Nat) (hts : terminals ts = List.replicate n (word .newline))
        (hsame : next.level = c.level ∧ next.brackets = c.brackets)
        (hnext : next.atLineStart = true ∨ next.EndsLine)
        (hreads : ∀ level, Place.Reads ⟨c.rest, level, [], c.atLineStart⟩
          (List.replicate n (word .newline)) ⟨next.rest, level, [], next.atLineStart⟩) :
        c.ReadsDeeper (terminals ts ++ terminals (us ++ last.closing)) := by
      rw [hts] at hhead ⊢
      exact .of_lines hreads (ih hend (hsame.1.trans hlevel) (hsame.2.trans hbrackets) hreturn' hnext
        hhead.of_lines)
    cases hmoves with
    | indentation hstart _ h =>
      have hne : c.rest ≠ [] := by
        rw [hrest]
        exact List.cons_ne_nil first tail
      obtain ⟨hstops, rfl, rfl⟩ | ⟨level, d, rest, hdeep, hspaces, hafter, hd, rfl, rfl⟩ :=
        indentation_cases h
      · refine hsilent 0 (Place.terminals_spaceTokens c c.spaces) ⟨rfl, rfl⟩ (.inr fun d hd => ?_)
          fun level => hstart ▸ reads_spaces_blank hne hstops level
        have hnotReturn : d ≠ '\r' := by
          rintro rfl
          exact hreturn' (List.mem_of_mem_head? hd)
        have hstop := hstops d hd
        simp_all [endsBlank, or_comm]
      · rw [terminals_append, Place.terminals_levelTokens, Place.terminals_spaceTokens,
          List.append_nil] at hhead ⊢
        exact readsDeeper_content hlevel hstart hspaces hdeep hafter hd hbrackets hscans hend hhead
    | lineEnd _ hfirst =>
      subst hfirst
      have hts : terminals (c.lineEnd tail).1 = [word .newline] := by
        rw [terminals_lineEnd, hbrackets]
        rfl
      exact hsilent 1 hts ⟨rfl, rfl⟩ (.inl rfl) fun level => hrest ▸ Place.reads_lineEnd
    | blanks h hblank => rcases hinside h with rfl | rfl <;> cases hblank
    | comment h hfirst =>
      subst hfirst
      have hplace : c.atLineStart = true → ([] : List Char) ≠ [] :=
        fun hstart => absurd hbrackets (h hstart)
      refine hsilent 0 rfl ⟨rfl, rfl⟩ (.inr fun d hd => .inr (IsTail.dropWhile c.rest d hd))
        fun level => ?_
      rw [hrest]
      exact hrest ▸ reads_comment_rest hplace tail level
    | string h hquote => rcases hinside h with rfl | rfl <;> rcases hquote with hq | hq <;> cases hq
    | lexeme h hfirst => rcases hinside h with rfl | rfl <;> cases hfirst

end Cursor

/-! ## Both texts -/

/-- Two programs one after the other make one program. -/
theorem Program.ofTokens_append {first second : List Char} {ts₁ ts₂ : List Token} {p₁ p₂ : Program}
    (h₁ : tokens (String.ofList (first ++ ['\n'])) = .ok ts₁) (hp₁ : Program.ofTokens ts₁ = .ok p₁)
    (h₂ : tokens (String.ofList second) = .ok ts₂) (hp₂ : Program.ofTokens ts₂ = .ok p₂)
    (hreturn : '\r' ∉ second) :
    ∃ ts, tokens (String.ofList (first ++ '\n' :: second)) = .ok ts ∧
      Program.ofTokens ts = .ok (p₁ ++ p₂) := by
  have hderives₁ := Grammar.derives_of_ofTokens (tokens_agree h₁) hp₁
  have hderives₂ := Grammar.derives_of_ofTokens (tokens_agree h₂) hp₂
  obtain ⟨u, level, hfirst, hreads⟩ := reads_first h₁ hderives₁
  obtain ⟨us, last, hscans, hend, rfl⟩ := scans_of_tokens h₂
  rw [String.toList_ofList] at hscans
  obtain ⟨lines, v, hsecond, hdeeper⟩ := hscans.readsDeeper hend rfl rfl hreturn (.inl rfl)
    (Grammar.unindented_of_program hderives₂)
  obtain ⟨ts, hts, hterminals⟩ := Place.tokens_of_readsToEnd ((hreads second).toEnd (hdeeper level))
  refine ⟨ts, hts, Grammar.ofTokens_of_derives ?_⟩
  rw [hfirst] at hderives₁
  rw [hsecond] at hderives₂
  have hboth := Grammar.program_append hderives₁ hderives₂
  rw [hterminals]
  simpa using hboth

theorem tokens_empty : tokens "" =
    .ok [⟨.newline, .none, "", ⟨1, 1⟩⟩, ⟨.endOfFile, .none, "", ⟨1, 1⟩⟩] := by decide +kernel

/-! ## Running both programs -/

/-- Goes on with the store of a program that finished. -/
def Ending.andThen (e : Ending) (next : Store → Ending) : Ending :=
  match e with
  | .finished store => next store
  | .stopped why store => .stopped why store
  | .outOfFuel => .outOfFuel

theorem Program.run_append (p q : Program) (fuel : Nat) (globals : Scope) (s : Store) :
    Program.run fuel globals (p ++ q) s =
      (p.run fuel globals s).andThen (Program.run fuel globals q) := by
  induction p generalizing s with
  | nil => rfl
  | cons st p ih =>
    rw [List.cons_append]
    unfold Program.run
    cases st.execTopLevel fuel globals s with
    | done _ s' => exact ih s'
    | failed => rfl
    | outOfFuel => rfl

/-- Two texts, the first of which has no line that is not ended, make one program of the two. It runs
like the first one and then, if that finishes, the second one. -/
theorem Program.run_pieces {first second : String} {ts₁ ts₂ : List Token} {p₁ p₂ : Program}
    (hended : first = "" ∨ ∃ lines, first = lines ++ "\n") (hreturn : '\r' ∉ second.toList)
    (h₁ : tokens first = .ok ts₁) (hp₁ : Program.ofTokens ts₁ = .ok p₁)
    (h₂ : tokens second = .ok ts₂) (hp₂ : Program.ofTokens ts₂ = .ok p₂) :
    ∃ ts, tokens (first ++ second) = .ok ts ∧ Program.ofTokens ts = .ok (p₁ ++ p₂) ∧
      ∀ fuel globals s, Program.run fuel globals (p₁ ++ p₂) s =
        (p₁.run fuel globals s).andThen (Program.run fuel globals p₂) := by
  obtain rfl | ⟨lines, rfl⟩ := hended
  · obtain rfl := Except.ok.inj (tokens_empty.symm.trans h₁)
    cases hp₁
    refine ⟨ts₂, ?_, hp₂, Program.run_append [] p₂⟩
    rwa [String.empty_append]
  · have hfirst : lines ++ "\n" = String.ofList (lines.toList ++ ['\n']) := by
      simp
    rw [hfirst] at h₁
    rw [← String.ofList_toList (s := second)] at h₂
    obtain ⟨ts, hts, hp⟩ := Program.ofTokens_append h₁ hp₁ h₂ hp₂ hreturn
    have htext : lines ++ "\n" ++ second =
        String.ofList (lines.toList ++ '\n' :: second.toList) := by
      apply String.toList_inj.mp
      simp
    exact ⟨ts, htext ▸ hts, hp, Program.run_append p₁ p₂⟩

/-- A line of its own behind an empty line and a comment. -/
def lateTokens : List Token :=
  [⟨.newline, .none, "\n", ⟨1, 1⟩⟩, ⟨.whitespace, .none, "  ", ⟨2, 1⟩⟩,
    ⟨.newline, .none, "\n", ⟨2, 8⟩⟩, ⟨.name, .name "z", "z", ⟨3, 1⟩⟩,
    ⟨.newline, .none, "\n", ⟨3, 2⟩⟩, ⟨.newline, .none, "", ⟨4, 1⟩⟩,
    ⟨.endOfFile, .none, "", ⟨4, 1⟩⟩]

theorem run_pieces_branch :
    (∃ lines, "if x:\n    y\n" = lines ++ "\n") ∧ '\r' ∉ "\n  # end\nz\n".toList ∧
      tokens "if x:\n    y\n" = .ok branchTokens ∧
      Program.ofTokens branchTokens = .ok branchProgram ∧
      tokens "\n  # end\nz\n" = .ok lateTokens ∧
      Program.ofTokens lateTokens = .ok [.expression (.name "z")] ∧
      ∃ ts, tokens ("if x:\n    y\n" ++ "\n  # end\nz\n") = .ok ts ∧
        Program.ofTokens ts = .ok (branchProgram ++ [.expression (.name "z")]) ∧
        ∀ fuel globals s, Program.run fuel globals (branchProgram ++ [.expression (.name "z")]) s =
          (branchProgram.run fuel globals s).andThen
            (Program.run fuel globals [.expression (.name "z")]) := by
  have hended : ∃ lines, "if x:\n    y\n" = lines ++ "\n" := ⟨"if x:\n    y", rfl⟩
  have hreturn : '\r' ∉ "\n  # end\nz\n".toList := by decide
  have hfirst : tokens "if x:\n    y\n" = .ok branchTokens := by decide +kernel
  have hsecond : tokens "\n  # end\nz\n" = .ok lateTokens := by decide +kernel
  exact ⟨hended, hreturn, hfirst, rfl, hsecond, rfl,
    Program.run_pieces (.inr hended) hreturn hfirst rfl hsecond rfl⟩

end Offside
