import Offside.Proofs.Token.Steps

/-!
# Well-formed layout

Indents and dedents pair up and stand only where lines begin. Brackets pair up within a line: no
token inside them breaks the line. A text whose end comes inside a block or a bracket is cut into
tokens as well; the layout at its end closes the blocks, and brackets may stay open.
-/

namespace Offside

open Cursor (opener? closes? bracketsAfter?)

namespace Layout

variable {kinds inner : List TokenKind} {kind opening closing : TokenKind} {bracket : Char}
  {brackets brackets' : List Char} {level level' : Nat}

/-! ## Where tokens may stand -/

/-- The kinds that divide a text into lines and blocks. -/
def breaksLine : TokenKind → Bool
  | .newline | .indent | .dedent => true
  | _ => false

/-- Every bracket among the kinds has its partner among them. -/
inductive Balanced : List TokenKind → Prop where
  | nil : Balanced []
  | other {kinds : List TokenKind} {kind : TokenKind} :
    Balanced kinds → opener? kind = none → closes? kind = none → Balanced (kinds ++ [kind])
  | bracketed {kinds inner : List TokenKind} {opening closing : TokenKind} {bracket : Char} :
    Balanced kinds → opener? opening = some bracket → Balanced inner →
    closes? closing = some bracket → Balanced (kinds ++ opening :: inner ++ [closing])

/-- What may stand between an opening bracket and the one that closes it. -/
structure Enclosed (inner : List TokenKind) : Prop where
  balanced : Balanced inner
  unbroken : ∀ kind ∈ inner, breaksLine kind = false

/-- At the start of the text or after a line end. -/
def AtLineStart (before : List TokenKind) : Prop := before = [] ∨ before.getLast? = some .newline

/-- What holds of the kinds before a token of the given kind. No indent comes right after an indent
or a dedent, and dedents come in runs. -/
structure Follows (before : List TokenKind) (kind : TokenKind) : Prop where
  indent : kind = .indent → AtLineStart before
  dedent : kind = .dedent → AtLineStart before ∨ before.getLast? = some .dedent
  /-- The innermost bracket that is open is the one that the token closes. -/
  closes : ∀ bracket, closes? kind = some bracket → ∃ outer opening inner,
    before = outer ++ opening :: inner ∧ opener? opening = some bracket ∧ Enclosed inner

structure WellFormed (kinds : List TokenKind) : Prop where
  ends : ∃ body n, kinds = body ++ .newline :: List.replicate n .dedent ++ [.endOfFile] ∧
    .endOfFile ∉ body
  depth : ∀ before, before <+: kinds → before.count .dedent ≤ before.count .indent
  level : kinds.count .indent = kinds.count .dedent
  follows : ∀ before kind after, kinds = before ++ kind :: after → Follows before kind

/-! ## Brackets -/

theorem breaksLine_of_isLexeme (h : kind.isLexeme = true) : breaksLine kind = false := by
  cases kind <;> first | rfl | cases h

theorem breaksLine_of_opener? (h : opener? kind = some bracket) : breaksLine kind = false := by
  cases kind <;> first | rfl | cases h

theorem breaksLine_of_closes? (h : closes? kind = some bracket) : breaksLine kind = false := by
  cases kind <;> first | rfl | cases h

theorem Enclosed.nil : Enclosed [] := ⟨.nil, List.forall_mem_nil _⟩

theorem Enclosed.other (h : Enclosed kinds) (hopener : opener? kind = none)
    (hcloses : closes? kind = none) (hbreak : breaksLine kind = false) :
    Enclosed (kinds ++ [kind]) := by
  refine ⟨.other h.balanced hopener hcloses, fun k hk => ?_⟩
  obtain hk | hk := List.mem_append.mp hk
  · exact h.unbroken k hk
  · rwa [List.mem_singleton.mp hk]

theorem Enclosed.bracketed (h : Enclosed kinds) (hopener : opener? opening = some bracket)
    (hinner : Enclosed inner) (hcloses : closes? closing = some bracket) :
    Enclosed (kinds ++ opening :: inner ++ [closing]) := by
  refine ⟨.bracketed h.balanced hopener hinner.balanced hcloses, fun k hk => ?_⟩
  simp only [List.mem_append, List.mem_cons, List.not_mem_nil, or_false] at hk
  obtain (hk | rfl | hk) | rfl := hk
  · exact h.unbroken k hk
  · exact breaksLine_of_opener? hopener
  · exact hinner.unbroken k hk
  · exact breaksLine_of_closes? hcloses

/-- The brackets are open at the end of the kinds, the innermost first. -/
inductive Open : List TokenKind → List Char → Prop where
  | outside (kinds : List TokenKind) : Open kinds []
  | inside {outer inner : List TokenKind} {opening : TokenKind} {bracket : Char}
    {brackets : List Char} :
    Open outer brackets → opener? opening = some bracket → Enclosed inner →
    Open (outer ++ opening :: inner) (bracket :: brackets)

theorem Open.other (h : Open kinds brackets) (hopener : opener? kind = none)
    (hcloses : closes? kind = none) (hbreak : breaksLine kind = false) :
    Open (kinds ++ [kind]) brackets := by
  cases h with
  | outside => exact .outside _
  | inside houter hopening hinner =>
    rw [List.append_assoc, List.cons_append]
    exact .inside houter hopening (hinner.other hopener hcloses hbreak)

theorem Open.opens (h : Open kinds brackets) (hopener : opener? kind = some bracket) :
    Open (kinds ++ [kind]) (bracket :: brackets) := .inside h hopener .nil

theorem Open.closes (h : Open kinds (bracket :: brackets)) (hcloses : closes? kind = some bracket) :
    Open (kinds ++ [kind]) brackets := by
  cases h with
  | inside houter hopening hinner =>
    cases houter with
    | outside => exact .outside _
    | inside houter hopening' hinner' =>
      have hbracketed := hinner'.bracketed hopening hinner hcloses
      have hopen := Open.inside houter hopening' hbracketed
      simpa using hopen

/-- The token closes the innermost bracket, if any. -/
theorem bracketsAfter?_eq_some (h : bracketsAfter? brackets kind = some brackets') :
    (∃ bracket, opener? kind = some bracket ∧ closes? kind = none ∧
      brackets' = bracket :: brackets) ∨
    (opener? kind = none ∧ closes? kind = none ∧ brackets' = brackets) ∨
    ∃ bracket, closes? kind = some bracket ∧ brackets = bracket :: brackets' := by
  unfold bracketsAfter? at h
  split at h
  · rename_i bracket hopener
    cases h
    refine .inl ⟨bracket, hopener, ?_, rfl⟩
    cases kind <;> first | rfl | cases hopener
  · rename_i hopener hcloses
    cases h
    exact .inr (.inl ⟨hopener, hcloses, rfl⟩)
  · rename_i bracket _ hcloses
    split at h
    · split at h
      · rename_i hinnermost
        cases h
        exact .inr (.inr ⟨bracket, hcloses, by rw [hinnermost]⟩)
      · cases h
    · cases h

/-! ## One more token -/

/-- The kinds reach this level and leave these brackets open. -/
structure Reaches (kinds : List TokenKind) (level : Nat) (brackets : List Char) : Prop where
  unended : .endOfFile ∉ kinds
  depth : ∀ before, before <+: kinds → before.count .dedent ≤ before.count .indent
  level : kinds.count .indent = kinds.count .dedent + level
  follows : ∀ before kind after, kinds = before ++ kind :: after → Follows before kind
  brackets : Open kinds brackets

theorem reaches_nil : Reaches [] 0 [] where
  unended := List.not_mem_nil
  depth before h := by rw [List.prefix_nil.mp h]; exact Nat.le_refl 0
  level := rfl
  follows before kind after h := by simp at h
  brackets := .outside []

theorem Follows.other (hindent : kind ≠ .indent) (hdedent : kind ≠ .dedent)
    (hcloses : closes? kind = none) : Follows kinds kind where
  indent h := absurd h hindent
  dedent h := absurd h hdedent
  closes bracket h := by rw [hcloses] at h; cases h

theorem follows_concat
    (h : ∀ before kind after, kinds = before ++ kind :: after → Follows before kind)
    (hkind : Follows kinds kind) (before : List TokenKind) (k : TokenKind) (after : List TokenKind)
    (heq : kinds ++ [kind] = before ++ k :: after) : Follows before k := by
  cases List.eq_nil_or_concat after with
  | inl hnil =>
    subst hnil
    obtain ⟨rfl, hk⟩ := List.append_inj' heq rfl
    cases hk
    exact hkind
  | inr hconcat =>
    obtain ⟨rest, last, rfl⟩ := hconcat
    rw [List.concat_eq_append, ← List.cons_append, ← List.append_assoc] at heq
    exact h before k rest (List.append_inj' heq rfl).1

theorem depth_concat (h : ∀ before, before <+: kinds → before.count .dedent ≤ before.count .indent)
    (hkind : (kinds ++ [kind]).count .dedent ≤ (kinds ++ [kind]).count .indent)
    (before : List TokenKind) (hbefore : before <+: kinds ++ [kind]) :
    before.count .dedent ≤ before.count .indent := by
  obtain rfl | hbefore := List.prefix_concat_iff.mp hbefore
  · exact hkind
  · exact h before hbefore

theorem Reaches.push (h : Reaches kinds level brackets) (hfollows : Follows kinds kind)
    (hlevel : level + [kind].count .indent = level' + [kind].count .dedent)
    (hopen : Open (kinds ++ [kind]) brackets') (hend : kind ≠ .endOfFile) :
    Reaches (kinds ++ [kind]) level' brackets' := by
  have hcount := h.level
  refine ⟨?_, depth_concat h.depth ?_, ?_, follows_concat h.follows hfollows, hopen⟩
  · simpa using ⟨h.unended, hend.symm⟩
  · rw [List.count_append, List.count_append]
    omega
  · rw [List.count_append, List.count_append]
    omega

theorem Reaches.indent (h : Reaches kinds level []) (hstart : AtLineStart kinds) :
    Reaches (kinds ++ [.indent]) (level + 1) [] :=
  h.push ⟨fun _ => hstart, nofun, nofun⟩ rfl (.outside _) nofun

theorem Reaches.dedents {n : Nat} (h : Reaches kinds (level + n) [])
    (hstart : AtLineStart kinds ∨ kinds.getLast? = some .dedent) :
    Reaches (kinds ++ List.replicate n .dedent) level [] := by
  induction n generalizing kinds with
  | zero => simpa using h
  | succ n ih =>
    have hpush : Reaches (kinds ++ [.dedent]) (level + n) [] :=
      h.push ⟨nofun, fun _ => hstart, nofun⟩ rfl (.outside _) nofun
    have hdedents := ih hpush (.inr (by simp))
    rwa [List.append_assoc, List.singleton_append, ← List.replicate_succ] at hdedents

theorem Reaches.newline (h : Reaches kinds level []) : Reaches (kinds ++ [.newline]) level [] :=
  h.push (.other nofun nofun rfl) rfl (.outside _) nofun

/-- White space and strings may stand everywhere. -/
theorem Reaches.inert (h : Reaches kinds level brackets)
    (hkind : kind = .whitespace ∨ kind = .string) : Reaches (kinds ++ [kind]) level brackets := by
  rcases hkind with rfl | rfl
  · exact h.push (.other nofun nofun rfl) rfl (h.brackets.other rfl rfl rfl) nofun
  · exact h.push (.other nofun nofun rfl) rfl (h.brackets.other rfl rfl rfl) nofun

theorem Reaches.lexeme (h : Reaches kinds level brackets) (hkind : kind.isLexeme = true)
    (hbrackets : bracketsAfter? brackets kind = some brackets') :
    Reaches (kinds ++ [kind]) level brackets' := by
  have hne (k : TokenKind) (hk : k.isLexeme = false) : kind ≠ k := by
    rintro rfl
    cases hk.symm.trans hkind
  have hlevel : level + [kind].count .indent = level + [kind].count .dedent := by
    simp [hne .indent rfl, hne .dedent rfl]
  obtain ⟨bracket, hopener, hcloses, rfl⟩ | ⟨hopener, hcloses, rfl⟩ | ⟨bracket, hcloses, rfl⟩ :=
    bracketsAfter?_eq_some hbrackets
  · exact h.push (.other (hne _ rfl) (hne _ rfl) hcloses) hlevel (h.brackets.opens hopener)
      (hne _ rfl)
  · have hbreak := breaksLine_of_isLexeme hkind
    exact h.push (.other (hne _ rfl) (hne _ rfl) hcloses) hlevel
      (h.brackets.other hopener hcloses hbreak) (hne _ rfl)
  · refine h.push ⟨fun hk => absurd hk (hne _ rfl), fun hk => absurd hk (hne _ rfl), ?_⟩ hlevel
      (h.brackets.closes hcloses) (hne _ rfl)
    intro bracket' hbracket'
    cases hcloses.symm.trans hbracket'
    cases h.brackets with
    | inside _ hopening hinner => exact ⟨_, _, _, rfl, hopening, hinner⟩

/-- All blocks are closed before the end. -/
theorem Reaches.ended {body : List TokenKind} {n : Nat}
    (h : Reaches kinds 0 brackets) (hkinds : kinds = body ++ .newline :: List.replicate n .dedent) :
    WellFormed (kinds ++ [.endOfFile]) where
  ends := by
    refine ⟨body, n, by rw [hkinds], fun hbody => h.unended ?_⟩
    rw [hkinds]
    exact List.mem_append_left _ hbody
  depth := depth_concat h.depth (by simp [h.level])
  level := by simp [h.level]
  follows := follows_concat h.follows (.other nofun nofun rfl)

/-- The layout at the end of a text, whatever brackets are open. -/
theorem Reaches.wellFormed (h : Reaches kinds level brackets) :
    WellFormed (kinds ++ .newline :: List.replicate level .dedent ++ [.endOfFile]) := by
  have hnewline := Reaches.newline ⟨h.unended, h.depth, h.level, h.follows, .outside _⟩
  rw [← Nat.zero_add level] at hnewline
  have hdedents := hnewline.dedents (.inl (.inr (by simp)))
  rw [List.append_assoc, List.singleton_append] at hdedents
  exact hdedents.ended rfl

end Layout

/-! ## Steps and runs -/

namespace Cursor

open Layout (AtLineStart Reaches WellFormed)

variable {c next last : Cursor} {first : Char} {tail : List Char} {ts : List Token}
  {kinds : List TokenKind}

/-- The tokens of these kinds may stand before the cursor. -/
structure IsAfter (c : Cursor) (kinds : List TokenKind) : Prop where
  reaches : Reaches kinds c.level c.brackets
  start : c.atLineStart = true → c.brackets = [] → AtLineStart kinds

theorem isAfter_ofText (text : List Char) : (ofText text).IsAfter [] :=
  ⟨Layout.reaches_nil, fun _ _ => .inl rfl⟩

theorem reaches_levelTokens {level : Nat} (hlevel : level ≤ c.level + 1)
    (h : Reaches kinds c.level []) (hstart : AtLineStart kinds) :
    Reaches (kinds ++ (c.levelTokens level).map Token.kind) level [] := by
  unfold levelTokens
  split
  · have : level = c.level + 1 := by omega
    subst this
    exact h.indent hstart
  · have hsum : level + (c.level - level) = c.level := by omega
    rw [← hsum] at h
    rw [List.map_replicate]
    exact h.dedents (.inl hstart)

theorem reaches_spaceTokens {level : Nat} {brackets : List Char} (spaces : List Char)
    (h : Reaches kinds level brackets) :
    Reaches (kinds ++ (c.spaceTokens spaces).map Token.kind) level brackets := by
  unfold spaceTokens
  split
  · simpa using h
  · exact h.inert (.inl rfl)

theorem Moves.isAfter (h : c.Moves first tail ts next) (hc : c.IsAfter kinds) :
    next.IsAfter (kinds ++ ts.map Token.kind) := by
  cases h with
  | indentation hstart hbrackets h =>
    obtain ⟨level, hlevel, rfl, rfl⟩ := indentation_eq_ok h
    refine ⟨?_, nofun⟩
    have hreaches := hc.reaches
    rw [hbrackets] at hreaches
    have hlevels := reaches_levelTokens hlevel hreaches (hc.start hstart hbrackets)
    have hspaces := reaches_spaceTokens (c := c) c.spaces hlevels
    rw [List.append_assoc, ← List.map_append] at hspaces
    show Reaches _ level c.brackets
    rwa [hbrackets]
  | lineEnd =>
    refine ⟨?_, fun _ hbrackets => .inr ?_⟩
    · show Reaches (kinds ++ [if c.brackets.isEmpty then .newline else .whitespace]) c.level
        c.brackets
      split
      · rename_i hempty
        have hreaches := hc.reaches
        rw [List.isEmpty_iff.mp hempty] at hreaches ⊢
        exact hreaches.newline
      · exact hc.reaches.inert (.inl rfl)
    · have hempty : c.brackets.isEmpty = true := List.isEmpty_iff.mpr hbrackets
      show (kinds ++ [if c.brackets.isEmpty then TokenKind.newline else .whitespace]).getLast? = _
      simp [hempty]
  | blanks => exact ⟨hc.reaches.inert (.inl rfl), nofun⟩
  | comment =>
    refine ⟨?_, nofun⟩
    show Reaches (kinds ++ []) c.level c.brackets
    rw [List.append_nil]
    exact hc.reaches
  | string _ _ h =>
    obtain ⟨content, after, -, -, rfl, rfl⟩ := string_eq_ok h
    exact ⟨hc.reaches.inert (.inr rfl), nofun⟩
  | lexeme _ _ h =>
    obtain ⟨kind, n, value, brackets, hlongest, -, hbrackets, rfl, rfl⟩ := symbolOrWord_eq_ok h
    exact ⟨hc.reaches.lexeme (Lexeme.isLexeme_of_longest? hlongest) hbrackets, nofun⟩

theorem Scans.isAfter (h : c.Scans ts last) (hc : c.IsAfter kinds) :
    last.IsAfter (kinds ++ ts.map Token.kind) := by
  induction h generalizing kinds with
  | refl => simpa using hc
  | step hrest hstep _ ih =>
    rw [List.map_append, ← List.append_assoc]
    exact ih ((moves_of_step hstep).isAfter hc)

end Cursor

/-! ## Whole texts -/

theorem tokens_wellFormed {text : String} {ts : List Token} (h : tokens text = .ok ts) :
    Layout.WellFormed (ts.map Token.kind) := by
  obtain ⟨us, last, hscans, -, rfl⟩ := scans_of_tokens h
  have hafter := hscans.isAfter (Cursor.isAfter_ofText text.toList)
  have hwell := hafter.reaches.wellFormed
  rw [List.map_append]
  simpa [Cursor.closing, Cursor.token] using hwell

/-- A block with brackets over two lines, a comment at no level, and a bracket that stays open. -/
def unclosedText : String := "if x:\n    y[(\n1)]\n  # end\nz("

def unclosedTokens : List Token :=
  [⟨.ifWord, .none, "if", ⟨1, 1⟩⟩, ⟨.whitespace, .none, " ", ⟨1, 3⟩⟩,
    ⟨.name, .name "x", "x", ⟨1, 4⟩⟩, ⟨.colon, .none, ":", ⟨1, 5⟩⟩,
    ⟨.newline, .none, "\n", ⟨1, 6⟩⟩, ⟨.indent, .none, "", ⟨2, 1⟩⟩,
    ⟨.whitespace, .none, "    ", ⟨2, 1⟩⟩, ⟨.name, .name "y", "y", ⟨2, 5⟩⟩,
    ⟨.openBracket, .none, "[", ⟨2, 6⟩⟩, ⟨.openParen, .none, "(", ⟨2, 7⟩⟩,
    ⟨.whitespace, .none, "\n", ⟨2, 8⟩⟩, ⟨.int, .int 1, "1", ⟨3, 1⟩⟩,
    ⟨.closeParen, .none, ")", ⟨3, 2⟩⟩, ⟨.closeBracket, .none, "]", ⟨3, 3⟩⟩,
    ⟨.newline, .none, "\n", ⟨3, 4⟩⟩, ⟨.whitespace, .none, "  ", ⟨4, 1⟩⟩,
    ⟨.newline, .none, "\n", ⟨4, 8⟩⟩, ⟨.dedent, .none, "", ⟨5, 1⟩⟩,
    ⟨.name, .name "z", "z", ⟨5, 1⟩⟩, ⟨.openParen, .none, "(", ⟨5, 2⟩⟩,
    ⟨.newline, .none, "", ⟨5, 3⟩⟩, ⟨.endOfFile, .none, "", ⟨5, 3⟩⟩]

theorem unclosedText_wellFormed :
    tokens unclosedText = .ok unclosedTokens ∧
      Layout.WellFormed (unclosedTokens.map Token.kind) := by
  have htokens : tokens unclosedText = .ok unclosedTokens := by decide +kernel
  exact ⟨htokens, tokens_wellFormed htokens⟩

end Offside
