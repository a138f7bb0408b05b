import Offside.Grammar.Statement
import Offside.Proofs.Grammar.Rules

/-!
# Readers see kinds and values only

A change of tokens that keeps their kinds and values changes nothing in what is read. The rest and
the token of an error are those that they were before, with the change made to them. A reader that
holds on to the tokens of a place is compared with the one that holds on to the changed tokens.
-/

namespace Offside

open Grammar (Terminal)

def SyntaxError.relabel (f : Token → Token) (e : SyntaxError) : SyntaxError :=
  { e with token := e.token.map f }

def Reading.relabel {α : Type} (f : Token → Token) : Reading α → Reading α
  | .read a rest => .read a (rest.map f)
  | .absent => .absent
  | .broken e => .broken (e.relabel f)

namespace Reader

/-- On changed tokens the second reader does what the first one does on the tokens as they were. -/
def Uniform {α : Type} (f : Token → Token) (r r' : Reader α) : Prop :=
  ∀ context tokens, r' context (tokens.map f) = (r context tokens).relabel f

section Combinators

variable {α β : Type} {f : Token → Token} {r r' s s' : Reader α} {k k' : α → Reader β}

theorem uniform_pure {a : α} : Uniform f (pure a) (pure a) := fun _ _ => rfl

theorem uniform_absent : Uniform f (absent : Reader α) absent := fun _ _ => rfl

theorem Uniform.bind (hr : Uniform f r r') (hk : ∀ a, Uniform f (k a) (k' a)) :
    Uniform f (r >>= k) (r' >>= k') := by
  intro context tokens
  show Reader.bind r' k' context (tokens.map f) = (Reader.bind r k context tokens).relabel f
  unfold Reader.bind
  rw [hr context tokens]
  cases r context tokens with
  | read a rest => exact hk a context rest
  | absent => rfl
  | broken e => rfl

/-- The tokens of a place are changed like all others. -/
theorem uniform_here {k k' : List Token → Reader β}
    (hk : ∀ start, Uniform f (k start) (k' (start.map f))) :
    Uniform f (here >>= k) (here >>= k') :=
  fun context tokens => hk tokens context tokens

theorem Uniform.map (hr : Uniform f r r') (g : α → β) : Uniform f (g <$> r) (g <$> r') :=
  hr.bind fun _ => uniform_pure

theorem Uniform.orElse (hr : Uniform f r r') (hs : Uniform f s s') :
    Uniform f (r <|> s) (r' <|> s') := by
  intro context tokens
  show Reader.orElse r' (fun _ => s') context (tokens.map f) =
    (Reader.orElse r (fun _ => s) context tokens).relabel f
  unfold Reader.orElse
  rw [hr context tokens]
  cases r context tokens with
  | read a rest => rfl
  | absent => exact hs context tokens
  | broken e => rfl

theorem Uniform.within {construct : Construct} (hr : Uniform f r r') :
    Uniform f (within construct r) (within construct r') :=
  fun context tokens => hr (construct :: context) tokens

theorem uniform_breakAt {kind : SyntaxErrorKind} {start : List Token} :
    Uniform f (breakAt kind start : Reader α) (breakAt kind (start.map f)) := by
  intro context tokens
  unfold breakAt Reading.relabel SyntaxError.relabel
  rw [List.head?_map]

theorem Uniform.startingAt (hr : Uniform f r r') (start : List Token) :
    Uniform f (startingAt start r) (startingAt (start.map f) r') :=
  fun context _ => hr context start

theorem Uniform.commit {kind : SyntaxErrorKind} (hr : Uniform f r r') :
    Uniform f (commit kind r) (commit kind r') := by
  intro context tokens
  unfold Reader.commit
  rw [hr context tokens]
  cases r context tokens with
  | read a rest => rfl
  | absent => exact uniform_breakAt context tokens
  | broken e => rfl

theorem Uniform.many (hr : Uniform f r r') (limit : Nat) :
    Uniform f (many r limit) (many r' limit) := by
  induction limit with
  | zero => exact uniform_pure
  | succ limit ih =>
    exact (hr.bind fun _ => ih.bind fun _ => uniform_pure).orElse uniform_pure

theorem Uniform.optional (hr : Uniform f r r') : Uniform f (optional r) (optional r') :=
  (hr.map some).orElse uniform_pure

end Combinators

/-! ## Single tokens -/

section Tokens

variable {α : Type} {f : Token → Token} (hf : ∀ t, Terminal.ofToken (f t) = Terminal.ofToken t)
include hf

theorem kind_eq (t : Token) : (f t).kind = t.kind := congrArg Terminal.kind (hf t)

theorem value_eq (t : Token) : (f t).value = t.value := congrArg Terminal.value (hf t)

omit hf in
theorem uniform_token {test : Token → Option α} (htest : ∀ t, test (f t) = test t) :
    Uniform f (token test) (token test) := by
  intro context tokens
  cases tokens with
  | nil => rfl
  | cons t rest =>
    rw [List.map_cons]
    unfold token
    dsimp only
    rw [htest]
    cases test t <;> rfl

theorem uniform_expect {kind : TokenKind} : Uniform f (expect kind) (expect kind) := by
  refine uniform_token fun t => ?_
  rw [kind_eq hf]

theorem uniform_require {kind : TokenKind} : Uniform f (require kind) (require kind) :=
  (uniform_expect hf).commit

theorem uniform_identifier : Uniform f identifier identifier := by
  refine uniform_token fun t => ?_
  unfold nameOf?
  rw [value_eq hf]

theorem uniform_requireIdentifier : Uniform f requireIdentifier requireIdentifier :=
  (uniform_identifier hf).commit

theorem uniform_skipNewlines : Uniform f skipNewlines skipNewlines := by
  intro context tokens
  unfold skipNewlines Reading.relabel
  rw [List.dropWhile_map]
  simp only [Function.comp_def, kind_eq hf]

theorem Uniform.separated {r : Reader α} (hr : Uniform f r r) (missing : SyntaxErrorKind)
    (limit : Nat) : Uniform f (separated missing limit r) (separated missing limit r) := by
  have hnext : Uniform f (do expect .comma; Reader.commit missing r)
      (do expect .comma; Reader.commit missing r) := (uniform_expect hf).bind fun _ => hr.commit
  exact (hr.bind fun _ => (hnext.many limit).bind fun _ => uniform_pure).orElse uniform_pure

/-- A test of the kind of the first token. -/
theorem any_head?_map (kind : TokenKind) (tokens : List Token) :
    ((tokens.map f).head?.any fun t => t.kind = kind) = tokens.head?.any fun t => t.kind = kind := by
  rw [List.head?_map, Option.any_map]
  simp only [kind_eq hf]

end Tokens

end Reader

namespace Grammar

open Reader

variable {f : Token → Token} (hf : ∀ t, Terminal.ofToken (f t) = Terminal.ofToken t)
include hf

/-! ## Expressions -/

section Expressions

variable {inner : Reader Expr} {limit : Nat} (hinner : Uniform f inner inner)
include hinner

omit hinner in
theorem atom_uniform : Uniform f (token atom?) (token atom?) := by
  refine uniform_token fun t => ?_
  unfold atom?
  rw [kind_eq hf, value_eq hf]

omit hf in
theorem required_uniform : Uniform f (required inner) (required inner) := hinner.commit

theorem list_uniform : Uniform f (list inner limit) (list inner limit) :=
  (uniform_expect hf).bind fun _ => Uniform.within <|
    (hinner.separated hf _ limit).bind fun _ => (uniform_require hf).bind fun _ => uniform_pure

theorem dictionary_uniform : Uniform f (dictionary inner limit) (dictionary inner limit) := by
  have hentry : Uniform f (dictionaryEntry inner) (dictionaryEntry inner) :=
    hinner.bind fun _ => (uniform_require hf).bind fun _ => (required_uniform hinner).bind fun _ =>
      uniform_pure
  exact (uniform_expect hf).bind fun _ => Uniform.within <|
    (hentry.separated hf _ limit).bind fun _ => (uniform_require hf).bind fun _ => uniform_pure

theorem parenthesized_uniform : Uniform f (parenthesized inner) (parenthesized inner) :=
  (uniform_expect hf).bind fun _ => Uniform.within <| (required_uniform hinner).bind fun _ =>
    (uniform_require hf).bind fun _ => uniform_pure

theorem primary_uniform : Uniform f (primary inner limit) (primary inner limit) :=
  (atom_uniform hf).orElse <| (list_uniform hf hinner).orElse <|
    (dictionary_uniform hf hinner).orElse (parenthesized_uniform hf hinner)

theorem argument_uniform : Uniform f (argument inner) (argument inner) :=
  ((uniform_identifier hf).bind fun _ => (uniform_expect hf).bind fun _ =>
    (required_uniform hinner).bind fun _ => uniform_pure).orElse (hinner.map _)

theorem callSuffix_uniform : Uniform f (callSuffix inner limit) (callSuffix inner limit) := by
  refine (uniform_expect hf).bind fun _ => Uniform.within <| uniform_here fun start =>
    ((argument_uniform hf hinner).separated hf _ limit).bind fun arguments => ?_
  split
  · exact (uniform_require hf).bind fun _ => uniform_pure
  · exact uniform_breakAt

theorem suffix_uniform : Uniform f (suffix inner limit) (suffix inner limit) := by
  refine (callSuffix_uniform hf hinner).orElse (Uniform.orElse ?_ ?_)
  · exact (uniform_expect hf).bind fun _ => (uniform_requireIdentifier hf).bind fun _ => uniform_pure
  · exact (uniform_expect hf).bind fun _ => Uniform.within <| (required_uniform hinner).bind fun _ =>
      (uniform_require hf).bind fun _ => uniform_pure

theorem postfixed_uniform : Uniform f (postfixed inner limit) (postfixed inner limit) :=
  (primary_uniform hf hinner).bind fun _ => ((suffix_uniform hf hinner).many limit).bind fun _ =>
    uniform_pure

theorem unary_uniform : Uniform f (unary inner limit) (unary inner limit) := by
  have hsign : Uniform f (token sign?) (token sign?) := by
    refine uniform_token fun t => ?_
    unfold sign?
    rw [kind_eq hf]
  refine (hsign.many limit).bind fun signs => ?_
  cases signs with
  | nil => exact postfixed_uniform hf hinner
  | cons s signs => exact (postfixed_uniform hf hinner).commit.bind fun _ => uniform_pure

omit hf hinner in
theorem leftGrouped_uniform {operator? : Token → Option Operator} {operand : Reader Expr}
    (hop : ∀ t, operator? (f t) = operator? t) (hoperand : Uniform f operand operand) :
    Uniform f (leftGrouped operator? operand limit) (leftGrouped operator? operand limit) := by
  have hlink : Uniform f (link operator? operand) (link operator? operand) :=
    (uniform_token hop).bind fun _ => hoperand.commit.bind fun _ => uniform_pure
  exact hoperand.bind fun _ => (hlink.many limit).bind fun _ => uniform_pure

theorem additive_uniform : Uniform f (additive inner limit) (additive inner limit) := by
  refine leftGrouped_uniform (fun t => ?_) (leftGrouped_uniform (fun t => ?_)
    (unary_uniform hf hinner))
  · unfold sum?
    rw [kind_eq hf]
  · unfold product?
    rw [kind_eq hf]

theorem comparison_uniform : Uniform f (comparison inner limit) (comparison inner limit) := by
  have hop : Uniform f (token comparison?) (token comparison?) := by
    refine uniform_token fun t => ?_
    unfold comparison?
    rw [kind_eq hf]
  have hlink : Uniform f (comparisonLink (additive inner limit))
      (comparisonLink (additive inner limit)) :=
    hop.bind fun _ => Uniform.within <| (additive_uniform hf hinner).commit.bind fun _ => uniform_pure
  exact (additive_uniform hf hinner).bind fun _ => (hlink.many limit).bind fun _ => uniform_pure

end Expressions

theorem expression_uniform (depth : Nat) : Uniform f (expression depth) (expression depth) := by
  induction depth with
  | zero => exact uniform_absent
  | succ depth ih => exact comparison_uniform hf ih

/-! ## Statements -/

section Statements

variable {inner : Reader Block} {limit : Nat}

theorem required_expression_uniform :
    Uniform f (required (expression limit)) (required (expression limit)) :=
  required_uniform (expression_uniform hf limit)

theorem atEnd_uniform : Uniform f atEnd atEnd := by
  intro context tokens
  cases tokens with
  | nil => rfl
  | cons t rest =>
    simp only [atEnd, List.map_cons, Reading.relabel, kind_eq hf]

theorem mutability_uniform : Uniform f mutability mutability :=
  (uniform_expect hf).optional.bind fun _ => uniform_pure

theorem loopVariable_uniform : Uniform f loopVariable loopVariable :=
  ((uniform_expect hf).bind fun _ => (mutability_uniform hf).bind fun _ =>
    (uniform_requireIdentifier hf).bind fun _ => uniform_pure).orElse
      ((uniform_requireIdentifier hf).map _)

theorem returnStatement_uniform : Uniform f (returnStatement limit) (returnStatement limit) := by
  refine (uniform_expect hf).bind fun _ => Uniform.within <| Uniform.orElse ?_ ?_
  · exact (uniform_expect hf).bind fun _ => uniform_pure
  · exact (required_expression_uniform hf).bind fun _ => (uniform_require hf).bind fun _ =>
      uniform_pure

theorem wordStatement_uniform {word : TokenKind} {s : Block} :
    Uniform f (wordStatement word s) (wordStatement word s) :=
  (uniform_expect hf).bind fun _ => (uniform_require hf).bind fun _ => uniform_pure

theorem assertStatement_uniform : Uniform f (assertStatement limit) (assertStatement limit) :=
  (uniform_expect hf).bind fun _ => Uniform.within <| (required_expression_uniform hf).bind fun _ =>
    (uniform_require hf).bind fun _ => uniform_pure

theorem assignment_uniform : Uniform f (assignment limit) (assignment limit) :=
  (expression_uniform hf limit).bind fun _ => (uniform_expect hf).bind fun _ => Uniform.within <|
    (required_expression_uniform hf).bind fun _ => (uniform_require hf).bind fun _ => uniform_pure

theorem declaration_uniform : Uniform f (declaration limit) (declaration limit) := by
  refine (uniform_expect hf).bind fun _ => Uniform.within <| (mutability_uniform hf).bind fun _ =>
    uniform_here fun start => (uniform_requireIdentifier hf).bind fun _ => uniform_here fun after => ?_
  rw [any_head?_map hf]
  split
  · exact ((assignment_uniform hf).commit.startingAt start).bind fun _ => uniform_pure
  · exact (uniform_require hf).bind fun _ => uniform_pure

theorem expressionStatement_uniform :
    Uniform f (expressionStatement limit) (expressionStatement limit) :=
  (expression_uniform hf limit).bind fun _ => Uniform.within <| (uniform_require hf).bind fun _ =>
    uniform_pure

variable (hinner : Uniform f inner inner)
include hinner

theorem statements_uniform : Uniform f (statements inner limit) (statements inner limit) := by
  have hnext : Uniform f (nextLine inner) (nextLine inner) := by
    refine (uniform_skipNewlines hf).bind fun _ => (atEnd_uniform hf).bind fun ended => ?_
    cases ended with
    | true => exact uniform_absent
    | false => exact hinner
  exact (hnext.many limit).bind fun _ => (uniform_skipNewlines hf).bind fun _ => uniform_pure

theorem headedBlock_uniform : Uniform f (headedBlock inner limit) (headedBlock inner limit) := by
  refine (uniform_require hf).bind fun _ => (uniform_require hf).bind fun _ => Uniform.within <|
    (uniform_require hf).bind fun _ => uniform_here fun start =>
      (statements_uniform hf hinner).bind fun body => ?_
  split
  · exact uniform_breakAt
  · exact (uniform_require hf).bind fun _ => uniform_pure

theorem functionDefinition_uniform :
    Uniform f (functionDefinition inner limit) (functionDefinition inner limit) :=
  (uniform_expect hf).bind fun _ => Uniform.within <| (uniform_requireIdentifier hf).bind fun _ =>
    (uniform_require hf).bind fun _ => ((uniform_identifier hf).separated hf _ limit).bind fun _ =>
      (uniform_require hf).bind fun _ => (headedBlock_uniform hf hinner).bind fun _ => uniform_pure

theorem classDefinition_uniform :
    Uniform f (classDefinition inner limit) (classDefinition inner limit) := by
  have hmember : Uniform f (classMember inner limit) (classMember inner limit) :=
    ((uniform_expect hf).bind fun _ => (uniform_require hf).bind fun _ => uniform_pure).orElse
      ((functionDefinition_uniform hf hinner).map _)
  have hnext : Uniform f (nextMember inner limit) (nextMember inner limit) := by
    refine (uniform_skipNewlines hf).bind fun _ => uniform_here fun start => ?_
    rw [any_head?_map hf]
    split
    · exact uniform_absent
    · exact hmember.commit
  have hmembers : Uniform f (classMembers inner limit) (classMembers inner limit) :=
    (hnext.many limit).bind fun _ => (uniform_skipNewlines hf).bind fun _ => uniform_pure
  refine (uniform_expect hf).bind fun _ => Uniform.within <| (uniform_requireIdentifier hf).bind
    fun _ => (uniform_require hf).bind fun _ => (uniform_require hf).bind fun _ =>
      (uniform_require hf).bind fun _ => uniform_here fun start => hmembers.bind fun members => ?_
  split
  · exact uniform_breakAt
  · exact (uniform_require hf).bind fun _ => uniform_pure

theorem ifStatement_uniform : Uniform f (ifStatement inner limit) (ifStatement inner limit) := by
  have helseIf : Uniform f (elseIf inner limit) (elseIf inner limit) :=
    (uniform_expect hf).bind fun _ => (uniform_expect hf).bind fun _ =>
      (required_expression_uniform hf).bind fun _ => (headedBlock_uniform hf hinner).bind fun _ =>
        uniform_pure
  have helse : Uniform f (do expect .elseWord; headedBlock inner limit)
      (do expect .elseWord; headedBlock inner limit) :=
    (uniform_expect hf).bind fun _ => headedBlock_uniform hf hinner
  exact (uniform_expect hf).bind fun _ => Uniform.within <| (required_expression_uniform hf).bind
    fun _ => (headedBlock_uniform hf hinner).bind fun _ => (helseIf.many limit).bind fun _ =>
      helse.optional.bind fun _ => uniform_pure

theorem whileStatement_uniform :
    Uniform f (whileStatement inner limit) (whileStatement inner limit) :=
  (uniform_expect hf).bind fun _ => Uniform.within <| (required_expression_uniform hf).bind fun _ =>
    (headedBlock_uniform hf hinner).bind fun _ => uniform_pure

theorem forStatement_uniform : Uniform f (forStatement inner limit) (forStatement inner limit) :=
  (uniform_expect hf).bind fun _ => Uniform.within <| (loopVariable_uniform hf).bind fun _ =>
    (uniform_require hf).bind fun _ => (required_expression_uniform hf).bind fun _ =>
      (headedBlock_uniform hf hinner).bind fun _ => uniform_pure

theorem line_uniform : Uniform f (line inner limit) (line inner limit) := by
  have hsingle {r : Reader Stmt} (hr : Uniform f r r) : Uniform f (single r) (single r) :=
    hr.bind fun _ => uniform_pure
  refine Uniform.within (Uniform.commit ?_)
  refine (hsingle ((functionDefinition_uniform hf hinner).map _)).orElse ?_
  refine (hsingle (classDefinition_uniform hf hinner)).orElse ?_
  refine (hsingle (returnStatement_uniform hf)).orElse ?_
  refine (hsingle (ifStatement_uniform hf hinner)).orElse ?_
  refine (hsingle (whileStatement_uniform hf hinner)).orElse ?_
  refine (hsingle (forStatement_uniform hf hinner)).orElse ?_
  refine (wordStatement_uniform hf).orElse ?_
  refine (wordStatement_uniform hf).orElse ?_
  refine (hsingle (assertStatement_uniform hf)).orElse ?_
  refine (declaration_uniform hf).orElse ?_
  refine (hsingle (assignment_uniform hf)).orElse ?_
  refine (wordStatement_uniform hf).orElse ?_
  exact hsingle (expressionStatement_uniform hf)

end Statements

theorem statement_uniform (depth : Nat) : Uniform f (statement depth) (statement depth) := by
  induction depth with
  | zero => exact uniform_absent.commit.within
  | succ depth ih => exact line_uniform hf ih

theorem endOfProgram_uniform : Uniform f endOfProgram endOfProgram := by
  refine uniform_here fun start => ?_
  match start with
  | [] => exact uniform_breakAt
  | [t] =>
    rw [List.map_cons, List.map_nil]
    dsimp only
    rw [kind_eq hf]
    split
    · exact uniform_pure
    · exact uniform_breakAt
  | _ :: _ :: _ => exact uniform_breakAt

theorem program_uniform (depth : Nat) : Uniform f (program depth) (program depth) :=
  Uniform.within <| (statements_uniform hf (statement_uniform hf depth)).bind fun _ =>
    (endOfProgram_uniform hf).bind fun _ => uniform_pure

end Grammar

/-! ## Programs -/

/-- A change of tokens that keeps kinds and values keeps the tree, or the error but for its token,
which is changed. -/
theorem Program.ofTokens_map {f : Token → Token}
    (hf : ∀ t, Terminal.ofToken (f t) = Terminal.ofToken t) (tokens : List Token) :
    Program.ofTokens (tokens.map f) = (Program.ofTokens tokens).mapError (SyntaxError.relabel f) := by
  have hfilter : (tokens.map f).filter (fun t => !t.isWhitespace) =
      (tokens.filter fun t => !t.isWhitespace).map f := by
    rw [List.filter_map]
    simp only [Function.comp_def, Token.isWhitespace, Reader.kind_eq hf]
  unfold Program.ofTokens
  rw [hfilter]
  dsimp only
  rw [List.length_map, Grammar.program_uniform hf, List.head?_map]
  cases Grammar.program _ [] (tokens.filter fun t => !t.isWhitespace) <;> rfl

end Offside
