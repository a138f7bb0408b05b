import Offside.Proofs.Grammar.Reading

/-!
# The shape of what is read

Whatever the tokens are, even ones whose kind and value disagree, a tree that is read has its
operators where they belong and no empty block. A reader gives values of a kind if all that it
ever reads are of that kind, and each way to build a reader keeps this.
-/

namespace Offside

/-! ## Well-formed trees -/

set_option autoImplicit true in
/-- Sums and products have an operator of theirs, and a chain of comparisons has an operator at
least, none of another sort, and an operand for each. -/
inductive Expr.WellFormed : Expr → Prop where
  | name : WellFormed (.name n)
  | integer : WellFormed (.integer n)
  | float : WellFormed (.float x)
  | string {text : String} : WellFormed (.string text)
  | boolean : WellFormed (.boolean b)
  | null : WellFormed .null
  | list {items : List Expr} : (∀ e ∈ items, WellFormed e) → WellFormed (.list items)
  | dictionary {entries : List (Expr × Expr)} :
    (∀ e ∈ entries, WellFormed e.1) → (∀ e ∈ entries, WellFormed e.2) →
    WellFormed (.dictionary entries)
  | not : WellFormed e → WellFormed (.not e)
  | negative : WellFormed e → WellFormed (.negative e)
  | binary :
    WellFormed left → Operator.isComparison op = false → WellFormed right →
    WellFormed (.binary left op right)
  | compare {ops : List Operator} {operands : List Expr} :
    WellFormed first → ops ≠ [] → (∀ op ∈ ops, op.isComparison = true) →
    operands.length = ops.length → (∀ e ∈ operands, WellFormed e) →
    WellFormed (.compare first ops operands)
  | call {args : List Expr} {keywords : List (String × Expr)} :
    WellFormed callee → (∀ e ∈ args, WellFormed e) → (∀ k ∈ keywords, WellFormed k.2) →
    WellFormed (.call callee args keywords)
  | index : WellFormed target → WellFormed key → WellFormed (.index target key)
  | member : WellFormed target → WellFormed (.member target n)

set_option autoImplicit true in
/-- No body is empty. -/
inductive Stmt.WellFormed : Stmt → Prop where
  | functionDef {f : FunctionDef} :
    f.body ≠ [] → (∀ s ∈ f.body, WellFormed s) → WellFormed (.functionDef f)
  | classDef {methods : List FunctionDef} :
    (∀ f ∈ methods, f.body ≠ []) → (∀ f ∈ methods, ∀ s ∈ f.body, WellFormed s) →
    WellFormed (.classDef n methods)
  | declare : WellFormed (.declare n isMutable)
  | assign : Expr.WellFormed target → Expr.WellFormed value → WellFormed (.assign target value)
  | ifElse {body : Block} {elseIfs : List ElseIf} {otherwise : Option Block} :
    Expr.WellFormed test → body ≠ [] → (∀ s ∈ body, WellFormed s) →
    (∀ b ∈ elseIfs, b.test.WellFormed ∧ b.body ≠ []) →
    (∀ b ∈ elseIfs, ∀ s ∈ b.body, WellFormed s) →
    (∀ b ∈ otherwise, b ≠ []) → (∀ b ∈ otherwise, ∀ s ∈ b, WellFormed s) →
    WellFormed (.ifElse test body elseIfs otherwise)
  | whileLoop {body : Block} :
    Expr.WellFormed test → body ≠ [] → (∀ s ∈ body, WellFormed s) →
    WellFormed (.whileLoop test body)
  | forLoop {body : Block} :
    Expr.WellFormed iterable → body ≠ [] → (∀ s ∈ body, WellFormed s) →
    WellFormed (.forLoop binder iterable body)
  | returnStmt {value : Option Expr} :
    (∀ e ∈ value, e.WellFormed) → WellFormed (.returnStmt value)
  | breakStmt : WellFormed .breakStmt
  | continueStmt : WellFormed .continueStmt
  | assertion : Expr.WellFormed test → WellFormed (.assertion test)
  | expression : Expr.WellFormed e → WellFormed (.expression e)

def Program.WellFormed (p : Program) : Prop := ∀ s ∈ p, s.WellFormed

/-- A block that may be a body. -/
def Stmt.IsBody (b : Block) : Prop := b ≠ [] ∧ ∀ s ∈ b, s.WellFormed

/-! ## What readers give -/

namespace Reader

/-- The reader reads nothing but values with the property. -/
def Gives {α : Type} (r : Reader α) (P : α → Prop) : Prop :=
  ∀ ⦃context tokens a rest⦄, r context tokens = .read a rest → P a

section Combinators

variable {α β : Type} {r r' : Reader α} {P : α → Prop} {Q : β → Prop}

theorem gives_anything : Gives r fun _ => True := fun _ _ _ _ _ => trivial

theorem gives_pure {a : α} (h : P a) : Gives (pure a) P := by
  intro context tokens b rest hread
  obtain ⟨rfl, -⟩ := pure_eq_read.mp hread
  exact h

theorem Gives.bind {f : α → Reader β} (hr : Gives r P) (hf : ∀ a, P a → Gives (f a) Q) :
    Gives (r >>= f) Q := by
  intro context tokens b rest hread
  obtain ⟨a, mid, ha, hb⟩ := bind_eq_read.mp hread
  exact hf a (hr ha) hb

/-- What is read first does not matter. -/
theorem gives_after {f : α → Reader β} (hf : ∀ a, Gives (f a) Q) : Gives (r >>= f) Q :=
  gives_anything.bind fun a _ => hf a

theorem Gives.map {f : α → β} (hr : Gives r P) (hf : ∀ a, P a → Q (f a)) : Gives (f <$> r) Q := by
  intro context tokens b rest hread
  obtain ⟨a, ha, rfl⟩ := map_eq_read.mp hread
  exact hf a (hr ha)

theorem Gives.orElse (hr : Gives r P) (hr' : Gives r' P) : Gives (r <|> r') P := by
  intro context tokens a rest hread
  rcases orElse_eq_read.mp hread with h | ⟨-, h⟩
  · exact hr h
  · exact hr' h

theorem Gives.commit {kind : SyntaxErrorKind} (hr : Gives r P) : Gives (commit kind r) P :=
  fun _ _ _ _ hread => hr (commit_eq_read.mp hread)

theorem Gives.within {construct : Construct} (hr : Gives r P) : Gives (within construct r) P :=
  fun _ _ _ _ hread => hr hread

theorem Gives.startingAt {start : List Token} (hr : Gives r P) : Gives (startingAt start r) P :=
  fun _ _ _ _ hread => hr hread

theorem gives_absent : Gives absent P := fun _ _ _ _ hread => nomatch hread

theorem gives_breakAt {kind : SyntaxErrorKind} {start : List Token} :
    Gives (breakAt kind start) P :=
  fun _ _ _ _ hread => absurd hread breakAt_ne_read

theorem gives_token {test : Token → Option α} (h : ∀ t a, test t = some a → P a) :
    Gives (token test) P := by
  intro context tokens a rest hread
  obtain ⟨t, -, ht⟩ := token_eq_read.mp hread
  exact h t a ht

theorem Gives.many (hr : Gives r P) (limit : Nat) :
    Gives (many r limit) fun as => ∀ a ∈ as, P a := by
  induction limit with
  | zero => exact gives_pure fun _ h => nomatch h
  | succ limit ih =>
    refine Gives.orElse (hr.bind fun a ha => ih.bind fun as has => gives_pure ?_)
      (gives_pure fun _ h => nomatch h)
    exact List.forall_mem_cons.mpr ⟨ha, has⟩

theorem Gives.separated (hr : Gives r P) (missing : SyntaxErrorKind) (limit : Nat) :
    Gives (separated missing limit r) fun as => ∀ a ∈ as, P a := by
  have hnext : Gives (do expect .comma; Reader.commit missing r) P :=
    gives_after fun _ => hr.commit
  refine Gives.orElse (hr.bind fun a ha => (hnext.many limit).bind fun as has => gives_pure ?_)
    (gives_pure fun _ h => nomatch h)
  exact List.forall_mem_cons.mpr ⟨ha, has⟩

theorem Gives.optional (hr : Gives r P) : Gives (optional r) fun o => ∀ a ∈ o, P a :=
  (hr.map fun _ ha _ hb => Option.some.inj hb ▸ ha).orElse (gives_pure fun _ h => nomatch h)

end Combinators

end Reader

namespace Grammar

open Reader

/-! ## Expressions -/

section Expressions

variable {inner : Reader Expr} {limit : Nat}

theorem atom_gives : Gives (token atom?) Expr.WellFormed := by
  refine gives_token fun t e ht => ?_
  unfold atom? at ht
  split at ht
  · cases ht
    constructor
  · split at ht <;> cases ht <;> constructor

variable (hinner : Gives inner Expr.WellFormed)
include hinner

theorem required_gives : Gives (required inner) Expr.WellFormed := hinner.commit

theorem list_gives : Gives (list inner limit) Expr.WellFormed :=
  gives_after fun _ => Gives.within <| (hinner.separated _ limit).bind fun _ hitems =>
    gives_after fun _ => gives_pure (.list hitems)

theorem dictionaryEntry_gives :
    Gives (dictionaryEntry inner) fun e => e.1.WellFormed ∧ e.2.WellFormed :=
  hinner.bind fun _ hkey => gives_after fun _ =>
    (required_gives hinner).bind fun _ hvalue => gives_pure ⟨hkey, hvalue⟩

theorem dictionary_gives : Gives (dictionary inner limit) Expr.WellFormed :=
  gives_after fun _ => Gives.within <|
    ((dictionaryEntry_gives hinner).separated _ limit).bind fun _ hentries =>
      gives_after fun _ => gives_pure
        (.dictionary (fun e he => (hentries e he).1) fun e he => (hentries e he).2)

theorem parenthesized_gives : Gives (parenthesized inner) Expr.WellFormed :=
  gives_after fun _ => Gives.within <| (required_gives hinner).bind fun _ he =>
    gives_after fun _ => gives_pure he

theorem primary_gives : Gives (primary inner limit) Expr.WellFormed :=
  atom_gives.orElse <| (list_gives hinner).orElse <|
    (dictionary_gives hinner).orElse (parenthesized_gives hinner)

omit hinner in
/-- The expression in an argument. -/
def Argument.value : Argument → Expr
  | positional value => value
  | keyword _ value => value

theorem argument_gives : Gives (argument inner) fun a => a.value.WellFormed := by
  refine Gives.orElse ?_ (hinner.map fun _ he => he)
  exact gives_after fun _ => gives_after fun _ =>
    (required_gives hinner).bind fun _ hvalue => gives_pure hvalue

omit hinner in
/-- A suffix that makes a well-formed operand of one. -/
def Suffix.KeepsShape (s : Suffix) : Prop := ∀ e : Expr, e.WellFormed → (s.apply e).WellFormed

theorem callSuffix_gives : Gives (callSuffix inner limit) Suffix.KeepsShape := by
  refine gives_after fun _ => Gives.within <| gives_after fun _ =>
    ((argument_gives hinner).separated _ limit).bind fun arguments harguments => ?_
  split
  · refine gives_after fun _ => gives_pure fun e he => .call he ?_ ?_
    · intro arg harg
      obtain ⟨a, ha, hpositional⟩ := List.mem_filterMap.mp harg
      cases a <;> cases hpositional
      exact harguments _ ha
    · intro k hk
      obtain ⟨a, ha, hkeyword⟩ := List.mem_filterMap.mp hk
      cases a <;> cases hkeyword
      exact harguments _ ha
  · exact gives_breakAt

theorem suffix_gives : Gives (suffix inner limit) Suffix.KeepsShape := by
  refine (callSuffix_gives hinner).orElse (Gives.orElse ?_ ?_)
  · exact gives_after fun _ => gives_after fun _ => gives_pure fun _ he => .member he
  · exact gives_after fun _ => Gives.within <| (required_gives hinner).bind fun _ hkey =>
      gives_after fun _ => gives_pure fun _ he => .index he hkey

theorem postfixed_gives : Gives (postfixed inner limit) Expr.WellFormed := by
  refine (primary_gives hinner).bind fun target htarget =>
    ((suffix_gives hinner).many limit).bind fun suffixes hsuffixes => gives_pure ?_
  clear hinner
  induction suffixes generalizing target with
  | nil => exact htarget
  | cons s rest ih =>
    rw [List.forall_mem_cons] at hsuffixes
    exact ih _ (hsuffixes.1 target htarget) hsuffixes.2

omit hinner in
theorem wellFormed_signs {e : Expr} (he : e.WellFormed) (signs : List Sign) :
    (signs.foldr Sign.apply e).WellFormed := by
  induction signs with
  | nil => exact he
  | cons s signs ih =>
    cases s with
    | not => exact .not ih
    | minus => exact .negative ih

theorem unary_gives : Gives (unary inner limit) Expr.WellFormed := by
  refine gives_after fun signs => ?_
  cases signs with
  | nil => exact postfixed_gives hinner
  | cons s signs =>
    exact (postfixed_gives hinner).commit.bind fun _ he =>
      gives_pure (wellFormed_signs he (s :: signs))

omit hinner in
theorem leftGrouped_gives {operator? : Token → Option Operator} {operand : Reader Expr}
    (hop : ∀ t op, operator? t = some op → op.isComparison = false)
    (hoperand : Gives operand Expr.WellFormed) :
    Gives (leftGrouped operator? operand limit) Expr.WellFormed := by
  have hlink : Gives (link operator? operand)
      fun l => l.1.isComparison = false ∧ l.2.WellFormed :=
    (gives_token hop).bind fun _ hop => hoperand.commit.bind fun _ he => gives_pure ⟨hop, he⟩
  refine hoperand.bind fun first hfirst =>
    (hlink.many limit).bind fun others hothers => gives_pure ?_
  unfold leftGroup
  induction others generalizing first with
  | nil => exact hfirst
  | cons l rest ih =>
    rw [List.forall_mem_cons] at hothers
    exact ih _ (.binary hfirst hothers.1.1 hothers.1.2) hothers.2

omit hinner in
theorem isComparison_of_product? (t : Token) (op : Operator) (h : product? t = some op) :
    op.isComparison = false := by
  unfold product? at h
  split at h <;> cases h <;> rfl

omit hinner in
theorem isComparison_of_sum? (t : Token) (op : Operator) (h : sum? t = some op) :
    op.isComparison = false := by
  unfold sum? at h
  split at h <;> cases h <;> rfl

omit hinner in
theorem isComparison_of_comparison? (t : Token) (op : Operator) (h : comparison? t = some op) :
    op.isComparison = true := by
  unfold comparison? at h
  split at h <;> cases h <;> rfl

theorem multiplicative_gives : Gives (multiplicative inner limit) Expr.WellFormed :=
  leftGrouped_gives isComparison_of_product? (unary_gives hinner)

theorem additive_gives : Gives (additive inner limit) Expr.WellFormed :=
  leftGrouped_gives isComparison_of_sum? (multiplicative_gives hinner)

omit hinner in
theorem wellFormed_compared {first : Expr} {links : List (Operator × Expr)}
    (hfirst : first.WellFormed)
    (hlinks : ∀ l ∈ links, l.1.isComparison = true ∧ l.2.WellFormed) :
    (compared first links).WellFormed := by
  unfold compared
  split
  · exact hfirst
  · rename_i hne
    refine .compare hfirst (by simpa using hne) ?_ (by simp) ?_
    · exact List.forall_mem_map.mpr fun l hl => (hlinks l hl).1
    · exact List.forall_mem_map.mpr fun l hl => (hlinks l hl).2

theorem comparison_gives : Gives (comparison inner limit) Expr.WellFormed := by
  have hlink : Gives (comparisonLink (additive inner limit))
      fun l => l.1.isComparison = true ∧ l.2.WellFormed :=
    (gives_token isComparison_of_comparison?).bind fun _ hop => Gives.within <|
      (additive_gives hinner).commit.bind fun _ he => gives_pure ⟨hop, he⟩
  exact (additive_gives hinner).bind fun _ hfirst =>
    (hlink.many limit).bind fun _ hlinks => gives_pure (wellFormed_compared hfirst hlinks)

end Expressions

theorem expression_gives (depth : Nat) : Gives (expression depth) Expr.WellFormed := by
  induction depth with
  | zero => exact gives_absent
  | succ depth ih => exact comparison_gives ih

/-! ## Statements -/

section Statements

variable {inner : Reader Block} {limit : Nat}

theorem required_expression_gives : Gives (required (expression limit)) Expr.WellFormed :=
  required_gives (expression_gives limit)

theorem returnStatement_gives : Gives (returnStatement limit) Stmt.WellFormed := by
  refine gives_after fun _ => Gives.within <| Gives.orElse ?_ ?_
  · exact gives_after fun _ => gives_pure (.returnStmt fun _ h => nomatch h)
  · exact required_expression_gives.bind fun _ he =>
      gives_after fun _ => gives_pure (.returnStmt fun _ h => Option.some.inj h ▸ he)

theorem assertStatement_gives : Gives (assertStatement limit) Stmt.WellFormed :=
  gives_after fun _ => Gives.within <| required_expression_gives.bind fun _ he =>
    gives_after fun _ => gives_pure (.assertion he)

theorem assignment_gives : Gives (assignment limit) Stmt.WellFormed :=
  (expression_gives limit).bind fun _ htarget => gives_after fun _ => Gives.within <|
    required_expression_gives.bind fun _ hvalue =>
      gives_after fun _ => gives_pure (.assign htarget hvalue)

theorem declaration_gives : Gives (declaration limit) Program.WellFormed := by
  refine gives_after fun _ => Gives.within <| gives_after fun _ => gives_after fun _ =>
    gives_after fun _ => gives_after fun _ => ?_
  split
  · refine (assignment_gives.commit.startingAt).bind fun s hs => gives_pure ?_
    exact List.forall_mem_cons.mpr ⟨.declare, List.forall_mem_singleton.mpr hs⟩
  · exact gives_after fun _ => gives_pure (List.forall_mem_singleton.mpr .declare)

theorem expressionStatement_gives : Gives (expressionStatement limit) Stmt.WellFormed :=
  (expression_gives limit).bind fun _ he => Gives.within <|
    gives_after fun _ => gives_pure (.expression he)

theorem wordStatement_gives {word : TokenKind} {b : Block} (h : Program.WellFormed b) :
    Gives (wordStatement word b) Program.WellFormed :=
  gives_after fun _ => gives_after fun _ => gives_pure h

theorem single_gives {r : Reader Stmt} (h : Gives r Stmt.WellFormed) :
    Gives (single r) Program.WellFormed :=
  h.bind fun _ hs => gives_pure (List.forall_mem_singleton.mpr hs)

variable (hinner : Gives inner Program.WellFormed)
include hinner

theorem statements_gives : Gives (statements inner limit) Program.WellFormed := by
  have hline : Gives (nextLine inner) Program.WellFormed := by
    refine gives_after fun _ => gives_after fun stop => ?_
    split
    · exact gives_absent
    · exact hinner
  refine (hline.many limit).bind fun lines hlines => gives_after fun _ => gives_pure fun s hs => ?_
  obtain ⟨b, hb, hs⟩ := List.mem_flatten.mp hs
  exact hlines b hb s hs

theorem block_gives : Gives (block inner limit) Stmt.IsBody := by
  refine Gives.within <| gives_after fun _ => gives_after fun _ =>
    (statements_gives hinner).bind fun body hbody => ?_
  split
  · exact gives_breakAt
  · rename_i hne
    exact gives_after fun _ => gives_pure ⟨by simpa using hne, hbody⟩

theorem headedBlock_gives : Gives (headedBlock inner limit) Stmt.IsBody :=
  gives_after fun _ => gives_after fun _ => block_gives hinner

theorem functionDefinition_gives :
    Gives (functionDefinition inner limit) fun f => Stmt.IsBody f.body :=
  gives_after fun _ => Gives.within <| gives_after fun _ => gives_after fun _ =>
    gives_after fun _ => gives_after fun _ =>
      (headedBlock_gives hinner).bind fun _ hbody => gives_pure hbody

theorem classDefinition_gives : Gives (classDefinition inner limit) Stmt.WellFormed := by
  have hmember : Gives (nextMember inner limit) fun m => ∀ f ∈ m, Stmt.IsBody f.body := by
    refine gives_after fun _ => gives_after fun rest => ?_
    split
    · exact gives_absent
    · refine Gives.commit (Gives.orElse ?_ ?_)
      · exact gives_after fun _ => gives_after fun _ => gives_pure fun _ h => nomatch h
      · exact (functionDefinition_gives hinner).map fun _ hf _ h => Option.some.inj h ▸ hf
  have hmembers : Gives (classMembers inner limit)
      fun ms => ∀ m ∈ ms, ∀ f ∈ m, Stmt.IsBody f.body :=
    (hmember.many limit).bind fun _ hms => gives_after fun _ => gives_pure hms
  refine gives_after fun _ => Gives.within <| gives_after fun _ => gives_after fun _ =>
    gives_after fun _ => gives_after fun _ => gives_after fun _ => hmembers.bind fun ms hms => ?_
  have hbody : ∀ f ∈ ms.filterMap id, Stmt.IsBody f.body := by
    intro f hf
    obtain ⟨m, hm, hf⟩ := List.mem_filterMap.mp hf
    exact hms m hm f hf
  split
  · exact gives_breakAt
  · exact gives_after fun _ =>
      gives_pure (.classDef (fun f hf => (hbody f hf).1) fun f hf => (hbody f hf).2)

theorem ifStatement_gives : Gives (ifStatement inner limit) Stmt.WellFormed := by
  have helseIf : Gives (elseIf inner limit) fun b => b.test.WellFormed ∧ Stmt.IsBody b.body :=
    gives_after fun _ => gives_after fun _ => required_expression_gives.bind fun _ htest =>
      (headedBlock_gives hinner).bind fun _ hbody => gives_pure ⟨htest, hbody⟩
  have helse : Gives (do expect .elseWord; headedBlock inner limit) Stmt.IsBody :=
    gives_after fun _ => headedBlock_gives hinner
  refine gives_after fun _ => Gives.within <| required_expression_gives.bind fun _ htest =>
    (headedBlock_gives hinner).bind fun _ hbody => (helseIf.many limit).bind fun _ helseIfs =>
      helse.optional.bind fun _ hotherwise => gives_pure ?_
  exact .ifElse htest hbody.1 hbody.2 (fun b hb => ⟨(helseIfs b hb).1, (helseIfs b hb).2.1⟩)
    (fun b hb => (helseIfs b hb).2.2) (fun b hb => (hotherwise b hb).1)
    fun b hb => (hotherwise b hb).2

theorem whileStatement_gives : Gives (whileStatement inner limit) Stmt.WellFormed :=
  gives_after fun _ => Gives.within <| required_expression_gives.bind fun _ htest =>
    (headedBlock_gives hinner).bind fun _ hbody => gives_pure (.whileLoop htest hbody.1 hbody.2)

theorem forStatement_gives : Gives (forStatement inner limit) Stmt.WellFormed :=
  gives_after fun _ => Gives.within <| gives_after fun _ => gives_after fun _ =>
    required_expression_gives.bind fun _ hiterable =>
      (headedBlock_gives hinner).bind fun _ hbody =>
        gives_pure (.forLoop hiterable hbody.1 hbody.2)

theorem line_gives : Gives (line inner limit) Program.WellFormed := by
  have hfunction : Gives (.functionDef <$> functionDefinition inner limit) Stmt.WellFormed :=
    (functionDefinition_gives hinner).map fun _ hf => .functionDef hf.1 hf.2
  refine Gives.within (Gives.commit ?_)
  refine (single_gives hfunction).orElse ?_
  refine (single_gives (classDefinition_gives hinner)).orElse ?_
  refine (single_gives returnStatement_gives).orElse ?_
  refine (single_gives (ifStatement_gives hinner)).orElse ?_
  refine (single_gives (whileStatement_gives hinner)).orElse ?_
  refine (single_gives (forStatement_gives hinner)).orElse ?_
  refine (wordStatement_gives (List.forall_mem_singleton.mpr .continueStmt)).orElse ?_
  refine (wordStatement_gives (List.forall_mem_singleton.mpr .breakStmt)).orElse ?_
  refine (single_gives assertStatement_gives).orElse ?_
  refine declaration_gives.orElse ?_
  refine (single_gives assignment_gives).orElse ?_
  refine (wordStatement_gives (List.forall_mem_nil _)).orElse ?_
  exact single_gives expressionStatement_gives

end Statements

theorem statement_gives (depth : Nat) : Gives (statement depth) Program.WellFormed := by
  induction depth with
  | zero => exact gives_absent.commit.within
  | succ depth ih => exact line_gives ih

theorem program_gives (depth : Nat) : Gives (program depth) Program.WellFormed :=
  Gives.within <| (statements_gives (statement_gives depth)).bind fun _ hbody =>
    gives_after fun _ => gives_pure hbody

end Grammar

/-! ## Programs -/

/-- Whatever a list of tokens is read as is well-formed. -/
theorem Program.wellFormed_of_ofTokens {tokens : List Token} {p : Program}
    (h : Program.ofTokens tokens = .ok p) : p.WellFormed := by
  unfold Program.ofTokens at h
  dsimp only at h
  split at h
  · rename_i hread
    cases h
    exact Grammar.program_gives _ hread
  · cases h
  · cases h

/-- Tokens that no text is cut into, as their kinds and values disagree. They are read as
`while a < 1:` over a body `b`. -/
def disagreeingTokens : List Token :=
  [⟨.whileWord, .string "", "", ⟨1, 1⟩⟩, ⟨.dedent, .name "a", "", ⟨1, 1⟩⟩,
    ⟨.less, .float 0, "", ⟨1, 1⟩⟩, ⟨.closeParen, .int 1, "", ⟨1, 1⟩⟩,
    ⟨.colon, .name "x", "", ⟨1, 1⟩⟩, ⟨.newline, .none, "", ⟨1, 1⟩⟩, ⟨.indent, .none, "", ⟨1, 1⟩⟩,
    ⟨.plus, .name "b", "", ⟨1, 1⟩⟩, ⟨.newline, .int 2, "", ⟨1, 1⟩⟩,
    ⟨.dedent, .none, "", ⟨1, 1⟩⟩, ⟨.endOfFile, .none, "", ⟨1, 1⟩⟩]

theorem wellFormed_disagreeing :
    Program.ofTokens disagreeingTokens =
        .ok [.whileLoop (.compare (.name "a") [.less] [.integer 1]) [.expression (.name "b")]] ∧
      Program.WellFormed
        [.whileLoop (.compare (.name "a") [.less] [.integer 1]) [.expression (.name "b")]] := by
  have h : Program.ofTokens disagreeingTokens =
      .ok [.whileLoop (.compare (.name "a") [.less] [.integer 1]) [.expression (.name "b")]] := rfl
  exact ⟨h, Program.wellFormed_of_ofTokens h⟩

end Offside
