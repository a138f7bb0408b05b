import Offside.Proofs.Layout.WellFormed
import Offside.Proofs.Token.Lossless

/-!
# The column of a line shows its block

The first token with content in a line stands four columns to the right for each block that it is
inside of. The exception is a line that has a carriage return after its spaces, if any: it is taken
to be blank, and what comes after the carriage return belongs to the block of the line before.
-/

namespace Offside

/-- A kind of token that stands for something other than white space or layout. -/
def TokenKind.isContent : TokenKind → Bool
  | .whitespace | .newline | .indent | .dedent | .endOfFile => false
  | _ => true

theorem Text.Position.column_advance_spaces (p : Text.Position) (n : Nat) :
    (p.advance (List.replicate n ' ')).column = p.column + n := by
  induction n generalizing p with
  | zero => rfl
  | succ n ih =>
    rw [List.replicate_succ, Text.Position.advance_cons, ih]
    show p.column + 1 + n = p.column + (n + 1)
    omega

theorem TokenKind.isContent_of_isLexeme {kind : TokenKind} (h : kind.isLexeme = true) :
    kind.isContent = true := by
  cases kind <;> first | rfl | cases h

theorem Token.IsLayout.isContent {t : Token} (h : t.IsLayout) : t.kind.isContent = false := by
  obtain ⟨-, hkind, hstring⟩ := h
  obtain ⟨kind, value, lexeme, position⟩ := t
  cases kind
  case string => exact absurd rfl hstring
  all_goals first | rfl | cases hkind

namespace Layout

variable {before : List Token} {t : Token}

/-- How many blocks are open after the tokens. -/
def blocks (before : List Token) : Nat :=
  (before.map Token.kind).count .indent - (before.map Token.kind).count .dedent

/-- There has been no content since a line end or the start of the text. -/
def OpensLine (before : List Token) : Prop :=
  ∃ head gap, before = head ++ gap ∧ AtLineStart (head.map Token.kind) ∧
    ∀ u ∈ gap, u.kind.isContent = false

/-- The line so far is white space, in which a carriage return comes right after the spaces. -/
def OpensWithReturn (before : List Token) : Prop :=
  ∃ head spaces run, before = head ++ spaces ++ [run] ∧ AtLineStart (head.map Token.kind) ∧
    (∀ u ∈ spaces, u.kind = .whitespace ∧ ∀ d ∈ u.lexeme.toList, d = ' ') ∧
    run.kind = .whitespace ∧ run.lexeme.toList.head? = some '\r'

theorem opensLine_of_atLineStart (h : AtLineStart (before.map Token.kind)) : OpensLine before :=
  ⟨before, [], (List.append_nil _).symm, h, List.forall_mem_nil _⟩

/-- A token opens a line, or leaves it as it is. -/
theorem OpensLine.of_concat (h : OpensLine (before ++ [t])) :
    t.kind = .newline ∨ t.kind.isContent = false ∧ OpensLine before := by
  obtain ⟨head, gap, heq, hstart, hgap⟩ := h
  obtain rfl | ⟨gap, u, rfl⟩ := List.eq_nil_or_concat gap
  · obtain rfl : before ++ [t] = head := by simpa using heq
    obtain hnil | hlast := hstart
    · simp at hnil
    · exact .inl (by simpa using hlast)
  · rw [List.concat_eq_append, ← List.append_assoc] at heq
    rw [List.concat_eq_append, List.forall_mem_append, List.forall_mem_singleton] at hgap
    obtain ⟨rfl, hu⟩ := List.append_inj' heq rfl
    cases hu
    exact .inr ⟨hgap.2, head, gap, rfl, hstart, hgap.1⟩

end Layout

open Layout (AtLineStart OpensLine OpensWithReturn blocks)

namespace Cursor

variable {c next last : Cursor} {first : Char} {tail : List Char} {before us ts : List Token}
  {t : Token}

/-! ## How far a line has been read -/

/-- Where the cursor is in its line after the tokens before it. -/
inductive InLine (before : List Token) (c : Cursor) : Prop where
  | start : c.atLineStart = true → c.brackets = [] → c.position.column = 1 → InLine before c
  | leveled : c.atLineStart = false → c.position.column = 4 * c.level + 1 →
    (∀ first ∈ c.rest.head?, Place.startsContent first = true) → InLine before c
  | blank {head spaces : List Token} : c.atLineStart = false → c.brackets = [] →
    before = head ++ spaces → AtLineStart (head.map Token.kind) →
    (∀ u ∈ spaces, u.kind = .whitespace ∧ ∀ d ∈ u.lexeme.toList, d = ' ') →
    (∀ first ∈ c.rest.head?, endsBlank first = true) → InLine before c
  | returned : c.atLineStart = false → c.brackets = [] → OpensWithReturn before →
    (∀ first ∈ c.rest.head?, isBlank first = false) → InLine before c
  | inside : ¬ OpensLine before → InLine before c

theorem inLine_ofText (text : List Char) : InLine [] (ofText text) := .start rfl rfl rfl

theorem lexeme_of_mem_spaceTokens {u : Token} (h : u ∈ c.spaceTokens c.spaces) :
    u.kind = .whitespace ∧ ∀ d ∈ u.lexeme.toList, d = ' ' := by
  refine ⟨(isLayout_of_mem_spaceTokens h).2, fun d hd => ?_⟩
  unfold spaceTokens at h
  split at h
  · cases h
  · rw [List.mem_singleton.mp h] at hd
    simp only [token, String.toList_ofList] at hd
    exact eq_of_beq (mem_spaces hd)

/-- At the start of a line its spaces are read. -/
theorem inLine_indentation (hstart : AtLineStart (before.map Token.kind)) (hbrackets : c.brackets = [])
    (hcolumn : c.position.column = 1) (h : c.indentation = .ok (ts, next)) :
    InLine (before ++ ts) next := by
  obtain ⟨hblank, rfl, rfl⟩ | ⟨level, first, tail, -, hspaces, hafter, hfirst, rfl, rfl⟩ :=
    indentation_cases h
  · exact .blank rfl hbrackets rfl hstart (fun _ => lexeme_of_mem_spaceTokens) hblank
  · refine .leveled rfl ?_ fun d hd => ?_
    · show (c.position.advance c.spaces).column = _
      rw [hspaces, Text.Position.column_advance_spaces, hcolumn]
      exact Nat.add_comm ..
    · replace hd : d ∈ c.afterSpaces.head? := hd
      rw [hafter] at hd
      exact Option.some.inj hd ▸ hfirst

theorem not_opensLine_concat (h : ¬ OpensLine before) (hkind : t.kind ≠ .newline) :
    ¬ OpensLine (before ++ [t]) := by
  intro hopens
  rcases hopens.of_concat with hnewline | ⟨-, hbefore⟩
  · exact hkind hnewline
  · exact h hbefore

theorem not_opensLine_content (h : t.kind.isContent = true) : ¬ OpensLine (before ++ [t]) := by
  intro hopens
  rcases hopens.of_concat with hnewline | ⟨hcontent, -⟩
  · rw [hnewline] at h
    cases h
  · rw [h] at hcontent
    cases hcontent

theorem isBlank_of_startsContent (h : Place.startsContent first = true) : isBlank first = false := by
  simp only [Place.startsContent, Bool.and_eq_true, Bool.not_eq_true'] at h
  exact h.1.1

theorem inLine_blanks (hrest : c.rest = first :: tail) (hinside : c.IsInside)
    (hfirst : isBlank first = true) (hc : InLine before c) :
    InLine (before ++ c.blanks.1) c.blanks.2 := by
  have hhead : first ∈ c.rest.head? := by rw [hrest]; rfl
  cases hc with
  | start hstart hbrackets => exact absurd hbrackets (hinside hstart)
  | leveled _ _ hcontent =>
    cases hfirst.symm.trans (isBlank_of_startsContent (hcontent first hhead))
  | @blank head spaces _ hbrackets hbefore hstart hspaces hends =>
    have hreturn : first = '\r' := by
      have hend := hends first hhead
      simp only [endsBlank, isBlank, Bool.or_eq_true, beq_iff_eq] at hend hfirst
      rcases hend with (rfl | rfl) | rfl
      · simp at hfirst
      · rfl
      · simp at hfirst
    refine .returned rfl hbrackets ?_ fun d hd => head_dropWhile_eq hd
    refine ⟨head, spaces, _, congrArg (· ++ _) hbefore, hstart, hspaces, rfl, ?_⟩
    simp [token, hrest, hreturn, isBlank]
  | returned _ _ _ hends => cases hfirst.symm.trans (hends first hhead)
  | inside hclosed =>
    have hkind : TokenKind.whitespace ≠ .newline := by decide
    exact .inside (not_opensLine_concat hclosed hkind)

theorem inLine_comment (hrest : c.rest = '#' :: tail) (hinside : c.IsInside) (hc : InLine before c) :
    InLine (before ++ c.comment.1) c.comment.2 := by
  have hend : ∀ d ∈ (c.rest.dropWhile (· != '\n')).head?, d = '\n' := by
    intro d hd
    simpa using head_dropWhile_eq hd
  rw [show c.comment.1 = [] from rfl, List.append_nil]
  cases hc with
  | start hstart hbrackets => exact absurd hbrackets (hinside hstart)
  | leveled _ _ hcontent => cases hcontent '#' (by rw [hrest]; rfl)
  | blank _ hbrackets hbefore hstart hspaces _ =>
    exact .blank rfl hbrackets hbefore hstart hspaces fun d hd => hend d hd ▸ rfl
  | returned _ hbrackets hreturn _ =>
    exact .returned rfl hbrackets hreturn fun d hd => hend d hd ▸ rfl
  | inside hclosed => exact .inside hclosed

theorem inLine_lineEnd (hrest : c.rest = '\n' :: tail) (hc : InLine before c) :
    InLine (before ++ (c.lineEnd tail).1) (c.lineEnd tail).2 := by
  by_cases hbrackets : c.brackets = []
  · exact .start rfl hbrackets rfl
  · have hclosed : ¬ OpensLine before := by
      cases hc with
      | start _ hopen | blank _ hopen | returned _ hopen => exact absurd hopen hbrackets
      | leveled _ _ hcontent => cases hcontent '\n' (by rw [hrest]; rfl)
      | inside hclosed => exact hclosed
    refine .inside (not_opensLine_concat hclosed ?_)
    show (if c.brackets.isEmpty then TokenKind.newline else .whitespace) ≠ .newline
    rw [if_neg (by simpa using hbrackets)]
    nofun

/-- Each step keeps track of the line. -/
theorem Moves.inLine (h : c.Moves first tail ts next) (hrest : c.rest = first :: tail)
    (hafter : c.IsAfter (before.map Token.kind)) (hc : InLine before c) :
    InLine (before ++ ts) next := by
  cases h with
  | indentation hstart hbrackets h =>
    have hline := hafter.start hstart hbrackets
    have hcolumn : c.position.column = 1 := by
      cases hc with
      | start _ _ hcolumn => exact hcolumn
      | leveled hno | blank hno | returned hno => cases hstart.symm.trans hno
      | inside hclosed => exact absurd (Layout.opensLine_of_atLineStart hline) hclosed
    exact inLine_indentation hline hbrackets hcolumn h
  | lineEnd _ hfirst => exact inLine_lineEnd (hfirst ▸ hrest) hc
  | blanks hinside hfirst => exact inLine_blanks hrest hinside hfirst hc
  | comment hinside hfirst => exact inLine_comment (hfirst ▸ hrest) hinside hc
  | string _ _ h =>
    obtain ⟨content, after, -, -, rfl, rfl⟩ := string_eq_ok h
    exact .inside (not_opensLine_content rfl)
  | lexeme _ _ h =>
    obtain ⟨kind, n, value, brackets, hlongest, -, -, rfl, rfl⟩ := symbolOrWord_eq_ok h
    have hkind := Lexeme.isLexeme_of_longest? hlongest
    exact .inside (not_opensLine_content (TokenKind.isContent_of_isLexeme hkind))

theorem Scans.inLine (h : c.Scans ts last) (hafter : c.IsAfter (before.map Token.kind))
    (hc : InLine before c) : InLine (before ++ ts) last := by
  induction h generalizing before with
  | refl => rwa [List.append_nil]
  | step hrest hstep _ ih =>
    have hmoves := moves_of_step hstep
    rw [← List.append_assoc]
    refine ih ?_ (hmoves.inLine hrest hafter hc)
    rw [List.map_append]
    exact hmoves.isAfter hafter

/-! ## Tokens with content -/

/-- A token with content is the only one of its step, which begins with its first character. -/
theorem Moves.content (h : c.Moves first tail ts next) (ht : t ∈ ts)
    (hcontent : t.kind.isContent = true) :
    ts = [t] ∧ c.IsInside ∧ Place.startsContent first = true := by
  cases h with
  | indentation _ _ h =>
    obtain ⟨level, -, rfl, -⟩ := indentation_eq_ok h
    have hlayout : t.IsLayout := (List.mem_append.mp ht).elim isLayout_of_mem_levelTokens
      fun ht => (isLayout_of_mem_spaceTokens ht).1
    cases hcontent.symm.trans hlayout.isContent
  | lineEnd =>
    rw [List.mem_singleton.mp ht] at hcontent
    unfold token at hcontent
    split at hcontent <;> cases hcontent
  | blanks =>
    rw [List.mem_singleton.mp ht] at hcontent
    cases hcontent
  | comment => cases ht
  | string hinside hquote h =>
    obtain ⟨content, after, -, -, rfl, -⟩ := string_eq_ok h
    refine ⟨by rw [List.mem_singleton.mp ht], hinside, ?_⟩
    rcases hquote with rfl | rfl <;> rfl
  | lexeme hinside hword h =>
    obtain ⟨kind, n, value, brackets, hlongest, -, -, rfl, -⟩ := symbolOrWord_eq_ok h
    refine ⟨by rw [List.mem_singleton.mp ht], hinside, ?_⟩
    simp_all [Place.startsWord, Place.startsContent]

/-- The step of a token with content comes right after those of the tokens before it. -/
theorem Scans.content {after : List Token} (h : c.Scans ts last) (hts : ts = before ++ t :: after)
    (hcontent : t.kind.isContent = true) :
    ∃ mid next first tail, c.Scans before mid ∧ mid.rest = first :: tail ∧
      mid.Moves first tail [t] next := by
  induction h generalizing before with
  | refl => simp at hts
  | @step c mid last first tail ts us hrest hstep hscans ih =>
    have hmoves := moves_of_step hstep
    have hlater (row : List Token) (hbefore : before = ts ++ row) (hus : us = row ++ t :: after) :
        ∃ mid next first tail, c.Scans before mid ∧ mid.rest = first :: tail ∧
          mid.Moves first tail [t] next := by
      obtain ⟨mid', next, first', tail', hrow, hrest', hmoves'⟩ := ih hus
      exact ⟨mid', next, first', tail', hbefore ▸ .step hrest hstep hrow, hrest', hmoves'⟩
    -- the token comes after those of this step, unless it is the one that this step gives
    obtain ⟨row, hbefore, hus⟩ | ⟨row, hts', hrow⟩ := List.append_eq_append_iff.mp hts
    · exact hlater row hbefore hus
    · cases row with
      | nil => exact hlater [] (by rw [hts', List.append_nil, List.append_nil]) hrow.symm
      | cons u row =>
        obtain ⟨rfl, -⟩ := List.cons.inj hrow
        obtain ⟨hsingle, -⟩ := hmoves.content (hts' ▸ List.mem_append_right _ List.mem_cons_self)
          hcontent
        obtain ⟨rfl, -⟩ | ⟨-, hnil⟩ := List.append_eq_singleton_iff.mp (hts'.symm.trans hsingle)
        · exact ⟨c, mid, first, tail, .refl c, hrest, hsingle ▸ hmoves⟩
        · cases hnil

theorem InLine.column (hc : InLine before c) (hrest : c.rest = first :: tail) (hinside : c.IsInside)
    (hfirst : Place.startsContent first = true) (hopens : OpensLine before) :
    c.position.column = 4 * c.level + 1 ∨ OpensWithReturn before := by
  cases hc with
  | start hstart hbrackets => exact absurd hbrackets (hinside hstart)
  | leveled _ hcolumn => exact .inl hcolumn
  | blank _ _ _ _ _ hends =>
    have hend := hends first (by rw [hrest]; rfl)
    simp_all [Place.startsContent, endsBlank, isBlank]
  | returned _ _ hreturn => exact .inr hreturn
  | inside hclosed => exact absurd hopens hclosed

end Cursor

/-! ## Whole texts -/

theorem Layout.OpensWithReturn.mem {before ts : List Token} {text : List Char}
    (h : OpensWithReturn before) (hbefore : before ⊆ ts) (htext : Text.Decomposes [] text ts) :
    '\r' ∈ text := by
  obtain ⟨head, spaces, run, rfl, -, -, -, hreturn⟩ := h
  have hrun := hbefore (List.mem_append_right _ (List.mem_singleton_self run))
  obtain ⟨pre, suffix, rfl, -⟩ := htext.mem hrun
  have hmem : '\r' ∈ run.lexeme.toList := List.mem_of_mem_head? hreturn
  simp [hmem]

/-- The column of the first token with content in a line is the one for the blocks that are open, or
a carriage return hides the indentation of the line. -/
theorem tokens_column {text : String} {before after : List Token} {t : Token}
    (h : tokens text = .ok (before ++ t :: after)) (hopens : OpensLine before)
    (hcontent : t.kind.isContent = true) :
    t.position.column = 4 * blocks before + 1 ∨ OpensWithReturn before ∧ '\r' ∈ text.toList := by
  obtain ⟨us, last, hscans, hend, hus⟩ := scans_of_tokens h
  have hclosing : t ∉ last.closing := by
    intro ht
    cases hcontent.symm.trans (Cursor.mem_closing ht).1.isContent
  obtain ⟨row, rfl⟩ : ∃ row, us = before ++ t :: row := by
    obtain ⟨row, -, hrow⟩ | ⟨row, hrow, hafter⟩ := List.append_eq_append_iff.mp hus.symm
    · exact absurd (hrow ▸ List.mem_append_right _ List.mem_cons_self) hclosing
    · cases row with
      | nil =>
        rw [List.nil_append] at hafter
        exact absurd (hafter ▸ List.mem_cons_self) hclosing
      | cons u row =>
        obtain ⟨rfl, -⟩ := List.cons.inj hafter
        exact ⟨row, hrow⟩
  obtain ⟨mid, next, first, tail, hbefore, hrest, hmoves⟩ := hscans.content rfl hcontent
  obtain ⟨-, hinside, hfirst⟩ := hmoves.content (List.mem_singleton_self t) hcontent
  have hstart : (Cursor.ofText text.toList).IsAfter (([] : List Token).map Token.kind) :=
    Cursor.isAfter_ofText text.toList
  have hafter := hbefore.isAfter hstart
  have hline := hbefore.inLine hstart (Cursor.inLine_ofText text.toList)
  have hblocks : blocks before = mid.level := by
    have hlevel := hafter.reaches.level
    rw [List.map_nil, List.nil_append] at hlevel
    unfold blocks
    omega
  obtain ⟨lexeme, hpasses⟩ := Cursor.passes_of_moves hrest hmoves
  rw [hpasses.tokens t (List.mem_singleton_self t), hblocks]
  refine (hline.column hrest hinside hfirst hopens).imp_right fun hreturn => ⟨hreturn, ?_⟩
  refine hreturn.mem (fun u hu => ?_) (hscans.decomposes_text hend)
  exact List.mem_append_left _ (List.mem_append_left _ hu)

theorem column_unclosedText :
    tokens unclosedText = .ok (unclosedTokens.take 7 ++
      ⟨.name, .name "y", "y", ⟨2, 5⟩⟩ :: unclosedTokens.drop 8) ∧
    OpensLine (unclosedTokens.take 7) ∧
    (5 = 4 * blocks (unclosedTokens.take 7) + 1 ∨
      OpensWithReturn (unclosedTokens.take 7) ∧ '\r' ∈ unclosedText.toList) := by
  have htokens : tokens unclosedText = .ok (unclosedTokens.take 7 ++
      ⟨.name, .name "y", "y", ⟨2, 5⟩⟩ :: unclosedTokens.drop 8) := by decide +kernel
  have hopens : OpensLine (unclosedTokens.take 7) :=
    ⟨unclosedTokens.take 5, (unclosedTokens.take 7).drop 5, rfl, .inr rfl, by decide⟩
  exact ⟨htokens, hopens, tokens_column htokens hopens rfl⟩

/-- A line that is indented by two spaces, with a carriage return after them. -/
def returnText : String := "if x:\n    y\n  \rz\n"

def returnTokens : List Token :=
  [⟨.ifWord, .none, "if", ⟨1, 1⟩⟩, ⟨.whitespace, .none, " ", ⟨1, 3⟩⟩,
    ⟨.name, .name "x", "x", ⟨1, 4⟩⟩, ⟨.colon, .none, ":", ⟨1, 5⟩⟩,
    ⟨.newline, .none, "\n", ⟨1, 6⟩⟩, ⟨.indent, .none, "", ⟨2, 1⟩⟩,
    ⟨.whitespace, .none, "    ", ⟨2, 1⟩⟩, ⟨.name, .name "y", "y", ⟨2, 5⟩⟩,
    ⟨.newline, .none, "\n", ⟨2, 6⟩⟩, ⟨.whitespace, .none, "  ", ⟨3, 1⟩⟩,
    ⟨.whitespace, .none, "\r", ⟨3, 3⟩⟩]

/-- The line is taken into the block of the line before, which is indented by four spaces. -/
theorem column_returnText : ∃ t after, tokens returnText = .ok (returnTokens ++ t :: after) ∧
    OpensLine returnTokens ∧ t.kind.isContent = true ∧
    t.position.column ≠ 4 * blocks returnTokens + 1 := by
  refine ⟨⟨.name, .name "z", "z", ⟨3, 4⟩⟩, [⟨.newline, .none, "\n", ⟨3, 5⟩⟩,
    ⟨.newline, .none, "", ⟨4, 1⟩⟩, ⟨.dedent, .none, "", ⟨4, 1⟩⟩,
    ⟨.endOfFile, .none, "", ⟨4, 1⟩⟩], by decide +kernel, ?_, rfl, by decide⟩
  exact ⟨returnTokens.take 9, returnTokens.drop 9, rfl, .inr rfl, by decide⟩

end Offside
