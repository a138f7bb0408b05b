import Offside.Proofs.Grammar.ErrorPlaces

/-!
# Where constructs begin

A reader that finds nothing says that its construct cannot begin with the next token, and nothing
else: once that token may begin the construct, the construct is read or broken. So where one reader
is tried after another, no tokens that the first has taken are lost, and where a construct has to
stand, as a statement has between the ends of a block, something is always found.

Two readers look further. An assignment is not found after a whole expression either, if no sign of
an assignment follows, and the expression is then read once more as a statement. A branch with a
condition is not found where its second word is missing, and the first is left to the last branch.
-/

namespace Offside

namespace Reader

variable {α β : Type} {r s : Reader α} {f : α → Reader β} {begins begins' : Token → Bool}

/-! ## Readers that find something everywhere -/

def Certain (r : Reader α) : Prop := ∀ context tokens, r context tokens ≠ .absent

theorem certain_pure {a : α} : Certain (pure a : Reader α) := fun _ _ => pure_ne_absent

theorem certain_here : Certain here := fun _ _ => here_ne_absent

theorem certain_skipNewlines : Certain skipNewlines := fun _ _ => skipNewlines_ne_absent

theorem certain_breakAt {kind : SyntaxErrorKind} {start : List Token} :
    Certain (breakAt kind start : Reader α) := fun _ _ => breakAt_ne_absent

theorem certain_commit {kind : SyntaxErrorKind} : Certain (commit kind r) :=
  fun _ _ => commit_ne_absent

theorem certain_require {kind : TokenKind} : Certain (require kind) := certain_commit

theorem certain_requireIdentifier : Certain requireIdentifier := certain_commit

theorem certain_many {limit : Nat} : Certain (many r limit) := fun _ _ => many_ne_absent

theorem Certain.bind (hr : Certain r) (hf : ∀ a, Certain (f a)) : Certain (r >>= f) := by
  intro context tokens h
  rcases bind_eq_absent.mp h with h | ⟨a, mid, -, h⟩
  · exact hr _ _ h
  · exact hf a _ _ h

theorem Certain.within {construct : Construct} (hr : Certain r) : Certain (within construct r) :=
  fun _ _ => hr _ _

theorem Certain.startingAt {start : List Token} (hr : Certain r) : Certain (startingAt start r) :=
  fun _ _ => hr _ _

theorem Certain.after (hs : Certain s) : Certain (r <|> s) :=
  fun _ _ h => hs _ _ (orElse_eq_absent.mp h).2

theorem certain_optional : Certain (optional r) := Certain.after certain_pure

theorem certain_separated {missing : SyntaxErrorKind} {limit : Nat} :
    Certain (separated missing limit r) := Certain.after certain_pure

/-! ## Readers that the next token decides -/

/-- The reader finds nothing at the end of the list, and before each token that its construct does
not begin with. Before the others it reads the construct or finds it broken. -/
def BeginsAt (begins : Token → Bool) (r : Reader α) : Prop :=
  ∀ context tokens, r context tokens = .absent ↔ tokens.head?.any begins = false

theorem begins_token {test : Token → Option α} :
    (token test).BeginsAt fun t => (test t).isSome := by
  intro context tokens
  rw [token_eq_absent]
  cases tokens <;> simp

theorem begins_expect {kind : TokenKind} : (expect kind).BeginsAt fun t => t.kind = kind := by
  intro context tokens
  rw [expect_eq_absent]
  cases tokens <;> simp

theorem BeginsAt.bind (hr : r.BeginsAt begins) (hf : ∀ a, Certain (f a)) :
    (r >>= f).BeginsAt begins := by
  intro context tokens
  rw [bind_eq_absent, ← hr context tokens]
  exact or_iff_left fun ⟨a, mid, _, h⟩ => hf a _ _ h

theorem BeginsAt.orElse (hr : r.BeginsAt begins) (hs : s.BeginsAt begins') :
    (r <|> s).BeginsAt fun t => begins t || begins' t := by
  intro context tokens
  rw [orElse_eq_absent, hr context tokens, hs context tokens]
  cases tokens <;> simp

theorem BeginsAt.congr (hr : r.BeginsAt begins) (h : ∀ t, begins t = begins' t) :
    r.BeginsAt begins' :=
  funext h ▸ hr

/-- Before a token that the construct begins with, the construct is read or broken. -/
theorem BeginsAt.outcome (hr : r.BeginsAt begins) (context : List Construct) (t : Token)
    (rest : List Token) :
    begins t = false ∧ r context (t :: rest) = .absent ∨
      begins t = true ∧ ((∃ a mid, r context (t :: rest) = .read a mid) ∨
        ∃ e, r context (t :: rest) = .broken e) := by
  have habsent : r context (t :: rest) = .absent ↔ begins t = false := hr context (t :: rest)
  cases hread : r context (t :: rest) with
  | absent => exact Or.inl ⟨habsent.mp hread, rfl⟩
  | read a mid => exact Or.inr ⟨by simpa [hread] using habsent, Or.inl ⟨a, mid, rfl⟩⟩
  | broken e => exact Or.inr ⟨by simpa [hread] using habsent, Or.inr ⟨e, rfl⟩⟩

end Reader

namespace Grammar

open Reader

/-! ## Expressions -/

/-- Whether a name or a literal may stand for the value. -/
def carriesOperand : TokenValue → Bool
  | .name _ | .string _ | .int _ | .float _ => true
  | .none => false

/-- Whether an operand begins with the token, told by its value or else by its kind. -/
def beginsOperand (t : Token) : Bool :=
  carriesOperand t.value ||
    t.kind ∈ [.trueWord, .falseWord, .nullWord, .openParen, .openBracket, .openBrace]

/-- Whether an expression begins with the token: a sign may stand before its first operand. -/
def beginsExpression (t : Token) : Bool :=
  carriesOperand t.value ||
    t.kind ∈ [.trueWord, .falseWord, .nullWord, .not, .minus, .openParen, .openBracket, .openBrace]

theorem beginsExpression_eq (t : Token) :
    beginsExpression t = ((sign? t).isSome || beginsOperand t) := by
  cases h : t.kind <;> simp [beginsExpression, beginsOperand, sign?, h]

theorem isSome_atom? (t : Token) :
    (atom? t).isSome = (carriesOperand t.value || t.kind ∈ [.trueWord, .falseWord, .nullWord]) := by
  cases hvalue : t.value <;> cases hkind : t.kind <;> simp [atom?, carriesOperand, hvalue, hkind]

section Expressions

variable {inner : Reader Expr} {limit : Nat}

theorem begins_list : (list inner limit).BeginsAt fun t => t.kind = .openBracket :=
  begins_expect.bind fun _ => Certain.within <| certain_separated.bind fun _ =>
    certain_require.bind fun _ => certain_pure

theorem begins_dictionary : (dictionary inner limit).BeginsAt fun t => t.kind = .openBrace :=
  begins_expect.bind fun _ => Certain.within <| certain_separated.bind fun _ =>
    certain_require.bind fun _ => certain_pure

theorem begins_parenthesized : (parenthesized inner).BeginsAt fun t => t.kind = .openParen :=
  begins_expect.bind fun _ => Certain.within <| certain_commit.bind fun _ =>
    certain_require.bind fun _ => certain_pure

theorem begins_primary : (primary inner limit).BeginsAt beginsOperand := by
  refine (begins_token.orElse <| begins_list.orElse <|
    begins_dictionary.orElse begins_parenthesized).congr fun t => ?_
  rw [isSome_atom?]
  cases h : t.kind <;> simp [beginsOperand, h]

theorem begins_postfixed : (postfixed inner limit).BeginsAt beginsOperand :=
  begins_primary.bind fun _ => certain_many.bind fun _ => certain_pure

theorem certain_signed : Certain (signed inner limit) :=
  certain_many.bind fun _ => certain_commit.bind fun _ => certain_pure

/-- What the signs stand before is missed as an error, so that they begin an expression alone. -/
theorem begins_unary : (unary inner (limit + 1)).BeginsAt beginsExpression := by
  intro context tokens
  cases hsigned : beginsSigned tokens with
  | true =>
    rw [unary_signed hsigned]
    refine iff_of_false (certain_signed context tokens) ?_
    cases tokens with
    | nil => cases hsigned
    | cons t rest =>
      have hsign : (sign? t).isSome = true := hsigned
      simp [beginsExpression_eq, hsign]
  | false =>
    rw [unary_unsigned hsigned, begins_postfixed context tokens]
    cases tokens with
    | nil => rfl
    | cons t rest =>
      have hsign : (sign? t).isSome = false := hsigned
      simp [beginsExpression_eq, hsign]

theorem begins_comparison : (comparison inner (limit + 1)).BeginsAt beginsExpression := by
  have hproduct : (multiplicative inner (limit + 1)).BeginsAt beginsExpression :=
    begins_unary.bind fun _ => certain_many.bind fun _ => certain_pure
  have hsum : (additive inner (limit + 1)).BeginsAt beginsExpression :=
    hproduct.bind fun _ => certain_many.bind fun _ => certain_pure
  exact hsum.bind fun _ => certain_many.bind fun _ => certain_pure

theorem begins_expression {depth : Nat} : (expression (depth + 1)).BeginsAt beginsExpression :=
  begins_comparison

theorem begins_suffix :
    (suffix inner limit).BeginsAt fun t => t.kind ∈ [.openParen, .period, .openBracket] := by
  have hcall : (callSuffix inner limit).BeginsAt fun t => t.kind = .openParen := by
    refine begins_expect.bind fun _ => Certain.within <| certain_here.bind fun start =>
      certain_separated.bind fun arguments => ?_
    split
    · exact certain_require.bind fun _ => certain_pure
    · exact certain_breakAt
  have hmember : memberSuffix.BeginsAt fun t => t.kind = .period :=
    begins_expect.bind fun _ => certain_requireIdentifier.bind fun _ => certain_pure
  have hindex : (indexSuffix inner).BeginsAt fun t => t.kind = .openBracket :=
    begins_expect.bind fun _ => Certain.within <| certain_commit.bind fun _ =>
      certain_require.bind fun _ => certain_pure
  exact (hcall.orElse <| hmember.orElse hindex).congr fun t => by simp

/-- What the next token tells of each part that an expression goes on with, so that no part that has
begun is given up. -/
structure Continuations (inner : Reader Expr) (limit : Nat) : Prop where
  suffix : (suffix inner limit).BeginsAt fun t => t.kind ∈ [.openParen, .period, .openBracket]
  link : ∀ operator? operand, (link operator? operand).BeginsAt fun t => (operator? t).isSome
  comparisonLink : ∀ operand,
    (comparisonLink operand).BeginsAt fun t => (comparison? t).isSome

theorem continuations : Continuations inner limit where
  suffix := begins_suffix
  link _ _ := begins_token.bind fun _ => certain_commit.bind fun _ => certain_pure
  comparisonLink _ := begins_token.bind fun _ => Certain.within <| certain_commit.bind fun _ =>
    certain_pure

theorem begins_argument {depth : Nat} :
    (argument (expression (depth + 1))).BeginsAt beginsExpression := by
  intro context tokens
  cases hkey : beginsKeyword tokens with
  | false => rw [argument_positional hkey, map_eq_absent, begins_expression context tokens]
  | true =>
    obtain ⟨t, t', rest, n, rfl, ht, ht'⟩ := beginsKeyword_eq_true hkey
    rw [argument_keyword ht ht', map_eq_absent]
    refine iff_of_false (certain_commit context rest) ?_
    simp [beginsExpression, carriesOperand, ht]

end Expressions

/-! ## Statements -/

section Statements

variable {inner : Reader Block} {limit : Nat} {context : List Construct} {tokens : List Token}

theorem certain_statements : Certain (statements inner limit) :=
  certain_many.bind fun _ => certain_skipNewlines.bind fun _ => certain_pure

theorem certain_block : Certain (block inner limit) := by
  refine Certain.within <| certain_require.bind fun _ => certain_here.bind fun start =>
    certain_statements.bind fun body => ?_
  split
  · exact certain_breakAt
  · exact certain_require.bind fun _ => certain_pure

theorem certain_headedBlock : Certain (headedBlock inner limit) :=
  certain_require.bind fun _ => certain_require.bind fun _ => certain_block

theorem certain_statement (depth : Nat) : Certain (statement depth) := by
  cases depth with
  | zero => exact certain_commit.within
  | succ depth => exact certain_commit.within

/-- Statements go on up to the end of the block: each line is read or broken before. -/
theorem nextLine_eq_absent (hinner : Certain inner) :
    nextLine inner context tokens = .absent ↔
      endsHere (tokens.dropWhile fun t => t.kind = .newline) = true := by
  have hend {rest : List Token} : atEnd context rest = .read (endsHere rest) rest := by
    cases rest <;> rfl
  have hread : skipNewlines context tokens =
      .read () (tokens.dropWhile fun t => t.kind = .newline) := rfl
  unfold nextLine
  rw [bind_of_read hread, bind_of_read hend]
  cases endsHere (tokens.dropWhile fun t => t.kind = .newline) with
  | true => simp
  | false => simpa using hinner context _

theorem certain_endOfProgram : Certain endOfProgram := by
  refine certain_here.bind fun rest => ?_
  split
  · split
    · exact certain_pure
    · exact certain_breakAt
  · exact certain_breakAt

theorem certain_program (depth : Nat) : Certain (program depth) :=
  Certain.within <| certain_statements.bind fun _ => certain_endOfProgram.bind fun _ => certain_pure

/-- An assignment is not found where no expression begins, and where no sign of an assignment
follows the expression. -/
theorem assignment_eq_absent :
    assignment (limit + 1) context tokens = .absent ↔
      tokens.head?.any beginsExpression = false ∨
        ∃ e rest, expression (limit + 1) context tokens = .read e rest ∧
          ∀ t ∈ rest.head?, t.kind ≠ .assign := by
  simp only [assignment, required, bind_eq_absent, begins_expression context tokens,
    expect_eq_absent, within_apply, commit_ne_absent, require_ne_absent, pure_ne_absent, and_false,
    exists_false, or_false]

theorem certain_mutability : Certain mutability :=
  certain_optional.bind fun _ => certain_pure

theorem begins_declaration : (declaration limit).BeginsAt fun t => t.kind = .varWord := by
  refine begins_expect.bind fun _ => Certain.within <| certain_mutability.bind fun _ =>
    certain_here.bind fun start => certain_requireIdentifier.bind fun _ =>
      certain_here.bind fun after => ?_
  split
  · exact certain_commit.startingAt.bind fun _ => certain_pure
  · exact certain_require.bind fun _ => certain_pure

theorem begins_classDefinition :
    (classDefinition inner limit).BeginsAt fun t => t.kind = .classWord := by
  have hmembers : Certain (classMembers inner limit) :=
    certain_many.bind fun _ => certain_skipNewlines.bind fun _ => certain_pure
  refine begins_expect.bind fun _ => Certain.within <| certain_requireIdentifier.bind fun _ =>
    certain_require.bind fun _ => certain_require.bind fun _ => certain_require.bind fun _ =>
      certain_here.bind fun start => hmembers.bind fun members => ?_
  split
  · exact certain_breakAt
  · exact certain_require.bind fun _ => certain_pure

theorem certain_loopVariable : Certain loopVariable :=
  Certain.after <| certain_requireIdentifier.bind fun _ => certain_pure

/-- What the next token tells of each statement. An assignment alone takes more than that. -/
structure LineBeginnings (inner : Reader Block) (limit : Nat) : Prop where
  functionDefinition : (functionDefinition inner limit).BeginsAt fun t => t.kind = .funWord
  classDefinition : (classDefinition inner limit).BeginsAt fun t => t.kind = .classWord
  returnStatement : (returnStatement limit).BeginsAt fun t => t.kind = .returnWord
  ifStatement : (ifStatement inner limit).BeginsAt fun t => t.kind = .ifWord
  whileStatement : (whileStatement inner limit).BeginsAt fun t => t.kind = .whileWord
  forStatement : (forStatement inner limit).BeginsAt fun t => t.kind = .forWord
  wordStatement : ∀ word s, (wordStatement word s).BeginsAt fun t => t.kind = word
  assertStatement : (assertStatement limit).BeginsAt fun t => t.kind = .assertWord
  declaration : (declaration limit).BeginsAt fun t => t.kind = .varWord
  assignment : ∀ context tokens, assignment limit context tokens = .absent ↔
    tokens.head?.any beginsExpression = false ∨
      ∃ e rest, expression limit context tokens = .read e rest ∧
        ∀ t ∈ rest.head?, t.kind ≠ .assign
  expressionStatement : (expressionStatement limit).BeginsAt beginsExpression

theorem lineBeginnings : LineBeginnings inner (limit + 1) where
  functionDefinition := begins_expect.bind fun _ => Certain.within <|
    certain_requireIdentifier.bind fun _ => certain_require.bind fun _ =>
      certain_separated.bind fun _ => certain_require.bind fun _ =>
        certain_headedBlock.bind fun _ => certain_pure
  classDefinition := begins_classDefinition
  returnStatement := begins_expect.bind fun _ => Certain.within <| Certain.after <|
    certain_commit.bind fun _ => certain_require.bind fun _ => certain_pure
  ifStatement := begins_expect.bind fun _ => Certain.within <| certain_commit.bind fun _ =>
    certain_headedBlock.bind fun _ => certain_many.bind fun _ => certain_optional.bind fun _ =>
      certain_pure
  whileStatement := begins_expect.bind fun _ => Certain.within <| certain_commit.bind fun _ =>
    certain_headedBlock.bind fun _ => certain_pure
  forStatement := begins_expect.bind fun _ => Certain.within <| certain_loopVariable.bind fun _ =>
    certain_require.bind fun _ => certain_commit.bind fun _ =>
      certain_headedBlock.bind fun _ => certain_pure
  wordStatement _ _ := begins_expect.bind fun _ => certain_require.bind fun _ => certain_pure
  assertStatement := begins_expect.bind fun _ => Certain.within <| certain_commit.bind fun _ =>
    certain_require.bind fun _ => certain_pure
  declaration := begins_declaration
  assignment _ _ := assignment_eq_absent
  expressionStatement := begins_expression.bind fun _ => Certain.within <|
    certain_require.bind fun _ => certain_pure

end Statements

/-- A reader finds nothing only where its construct cannot begin. Statements and blocks are always
found, read or broken, so that statements go on up to the end of a block and the reader of a program
always says why it fails. An expression is not found exactly at the end of the list and before a
token that cannot begin one; from any other token on it is read or broken. -/
theorem absent_only_where_nothing_begins :
    (∀ depth context tokens, statement depth context tokens ≠ .absent) ∧
    (∀ depth limit context tokens,
      statements (statement depth) limit context tokens ≠ .absent ∧
      block (statement depth) limit context tokens ≠ .absent ∧
      (nextLine (statement depth) context tokens = .absent ↔
        endsHere (tokens.dropWhile fun t => t.kind = .newline) = true)) ∧
    (∀ depth context tokens, program depth context tokens ≠ .absent) ∧
    (∀ tokens e, Program.ofTokens tokens = .error e ↔
      program ((tokens.filter fun t => !t.isWhitespace).length + 1) []
        (tokens.filter fun t => !t.isWhitespace) = .broken e) ∧
    (∀ depth context tokens, expression (depth + 1) context tokens = .absent ↔
      tokens = [] ∨ ∃ t rest, tokens = t :: rest ∧ beginsExpression t = false) ∧
    (∀ depth context t rest,
      beginsExpression t = false ∧ expression (depth + 1) context (t :: rest) = .absent ∨
      beginsExpression t = true ∧
        ((∃ e mid, expression (depth + 1) context (t :: rest) = .read e mid) ∨
          ∃ error, expression (depth + 1) context (t :: rest) = .broken error)) ∧
    (∀ depth limit, (argument (expression (depth + 1))).BeginsAt beginsExpression ∧
      Continuations (expression depth) limit) ∧
    ∀ depth limit, LineBeginnings (statement depth) (limit + 1) := by
  refine ⟨certain_statement, ?_, certain_program, ?_, ?_, ?_,
    fun _ _ => ⟨begins_argument, continuations⟩, fun _ _ => lineBeginnings⟩
  · intro depth limit context tokens
    exact ⟨certain_statements _ _, certain_block _ _, nextLine_eq_absent (certain_statement depth)⟩
  · intro tokens e
    unfold Program.ofTokens
    dsimp only
    cases hread : program _ [] (tokens.filter fun t => !t.isWhitespace) with
    | absent => exact absurd hread (certain_program _ _ _)
    | read p rest => simp
    | broken e' => simp
  · intro depth context tokens
    rw [begins_expression context tokens]
    cases tokens <;> simp
  · intro depth context t rest
    exact begins_expression.outcome context t rest

end Grammar

end Offside
