import Offside.Proofs.Grammar.Exactness
import Offside.Proofs.Grammar.ExpressionLocality

/-!
# Where syntax errors are found

No reader of statements looks further than one token past its own either, so a syntax error rests on
the tokens up to the one that it reports. Three readers are brought into a form that decides one
token at a time first: what follows the branches of a condition, a declaration with a value, and an
expression that may be the target of an assignment.
-/

namespace Offside.Grammar

open Reader
open Terminal (ofToken word)

/-! ## Blocks -/

/-- Whether a block or the program ends here. -/
def endsHere : List Token → Bool
  | [] => true
  | t :: _ => t.kind = .endOfFile || t.kind = .dedent

theorem Alike.endsHere_eq {tokens tokens' : List Token} (h : Alike 1 tokens tokens') :
    endsHere tokens = endsHere tokens' := by
  apply h.congr_head
  intro t t' _ _ hhead
  simp [endsHere, show t.kind = t'.kind from congrArg Terminal.kind hhead]

theorem Alike.head_kind {kind : TokenKind} {tokens tokens' : List Token}
    (h : Alike 1 tokens tokens') :
    (tokens.head?.any fun t => t.kind = kind) = tokens'.head?.any fun t => t.kind = kind := by
  apply h.congr_head
  intro t t' _ _ hhead
  simp [show t.kind = t'.kind from congrArg Terminal.kind hhead]

/-- A whole expression, of which the limit is one more than it needs. -/
theorem whole_local {depth : Nat} :
    Local false (fun d => d + 1) (fun d => expression (d + 1)) depth :=
  Local.reindex (g := fun d => d + 1) (expression_local (depth + 1)) fun _ => Nat.le_refl _

theorem test_local {found : Bool} {depth : Nat} :
    Local found (fun d => d) (fun d => required (expression (d + 1))) depth :=
  required_local (whole_local.mono fun d => Nat.le_succ d)

/-- Every statement has a terminal. -/
theorem not_derives_statement_nil (b : Block) : ¬ Derives (.statement b) [] := by
  generalize hu : ([] : List Terminal) = u
  intro h
  cases h with
  | functionStatement h =>
    subst hu
    cases h
  | _ => simp at hu

theorem not_derives_members_nil (m : Option FunctionDef) : ¬ Derives (.members [m]) [] := by
  generalize hu : ([] : List Terminal) = u
  intro h
  cases h with
  | membersMethod h _ =>
    obtain ⟨rfl, -⟩ := List.append_eq_nil_iff.mp hu.symm
    cases h
  | _ => cases hu

section Blocks

variable {depth : Nat} (h : Local true (fun d => d) statement depth)
include h

theorem statements_local {limit : Nat → Nat} (hlimit : ∀ d, d ≤ limit d) :
    Local true (fun d => d) (fun d => statements (statement d) (limit d)) depth := by
  have hgo (d : Nat) (context : List Construct) (tokens : List Token) :
      (do if ← atEnd then absent else statement d : Reader Block) context tokens =
        (if endsHere tokens then absent else statement d) context tokens := by
    cases tokens <;> rfl
  have hstep : Local false (fun d => d)
      (fun d => do if ← atEnd then absent else statement d) depth :=
    Local.choose Alike.endsHere_eq hgo absent_local h.weaken
  refine hstep.lines ?_ (fun _ => pure_local) hlimit
  intro context tokens b rest hagree hlength hread
  rw [hgo] at hread
  split at hread
  · cases hread
  · exact (statement_follows depth).advances not_derives_statement_nil hagree hlength hread

theorem block_local : Local true (fun d => d) (fun d => block (statement d) (d + 1)) depth := by
  refine .within <| require_local.bind fun _ =>
    (statements_local h fun d => Nat.le_succ d).bind_here fun body => ?_
  by_cases hempty : body.isEmpty
  · exact Or.inl ⟨.emptyBlock, rfl, fun _ _ => if_pos hempty⟩
  · exact Or.inr ⟨_, require_local.bind fun _ => pure_local, fun _ _ => if_neg hempty⟩

theorem headedBlock_local :
    Local true (fun d => d) (fun d => headedBlock (statement d) (d + 1)) depth :=
  require_local.bind fun _ => require_local.bind fun _ => block_local h

/-! ## Definitions -/

theorem functionDefinition_local :
    Local false (fun d => d + 1) (fun d => functionDefinition (statement d) (d + 1)) depth := by
  have hparameters : Local true (fun d => d) (fun d => parameters (d + 1)) depth :=
    identifier_local.separated fun d => Nat.le_succ d
  exact .after <| .within <| requireIdentifier_local.bind fun _ => require_local.bind fun _ =>
    hparameters.bind fun _ => require_local.bind fun _ =>
      (headedBlock_local h).bind fun _ => pure_local

theorem classMembers_local :
    Local true (fun d => d) (fun d => classMembers (statement d) (d + 1)) depth := by
  have hfunction : Local false (fun d => d)
      (fun d => functionDefinition (statement d) (d + 1)) depth :=
    (functionDefinition_local h).mono fun d => Nat.le_succ d
  have hpass : Local false (fun d => d) (fun _ => do
      expect .passWord; require .newline; return (none : Option FunctionDef)) depth :=
    expect_local.bind fun _ => require_local.bind fun _ => pure_local
  have hmember : Local false (fun d => d) (fun d => classMember (statement d) (d + 1)) depth :=
    hpass.orElse hfunction.map
  have hstep : Local false (fun d => d) (fun d => do
      if (← here).head?.any fun t => t.kind = .dedent then absent
      else commit .invalidClassMember (classMember (statement d) (d + 1))) depth :=
    Local.choose Alike.head_kind (fun _ _ _ => rfl) absent_local hmember.commit
  refine hstep.lines ?_ (fun _ => pure_local) fun d => Nat.le_succ d
  intro context tokens m rest hagree _ hread
  simp only [bind_eq_read, here_eq_read] at hread
  obtain ⟨_, _, ⟨rfl, rfl⟩, hread⟩ := hread
  split at hread
  · cases hread
  · obtain ⟨used, rfl, hmembers⟩ :=
      classMember_eq_read (statement_follows depth) hagree (commit_eq_read.mp hread)
    cases used with
    | nil => exact absurd (hmembers .membersNil) (not_derives_members_nil m)
    | cons t used =>
      rw [List.cons_append, List.length_cons, List.length_append]
      omega

theorem classDefinition_local :
    Local false (fun d => d + 1) (fun d => classDefinition (statement d) (d + 1)) depth := by
  refine .after <| .within <| requireIdentifier_local.bind fun _ => require_local.bind fun _ =>
    require_local.bind fun _ => require_local.bind fun _ =>
      (classMembers_local h).bind_here fun members => ?_
  by_cases hempty : members.isEmpty
  · exact Or.inl ⟨.emptyBlock, rfl, fun _ _ => if_pos hempty⟩
  · exact Or.inr ⟨_, require_local.bind fun _ => pure_local, fun _ _ => if_neg hempty⟩

/-! ## Branches and loops -/

/-- One more branch, or what follows the last. -/
theorem branches_local :
    Local true (fun d => d) (fun d => either (elseIf (statement d) (d + 1))
      (optional do expect .elseWord; headedBlock (statement d) (d + 1))) depth := by
  have hbranch : Local false (fun d => d) (fun d => do
      expect .ifWord
      let test ← required (expression (d + 1))
      return (⟨test, ← headedBlock (statement d) (d + 1)⟩ : ElseIf)) depth :=
    expect_local.bind fun _ => test_local.bind fun _ =>
      (headedBlock_local h).bind fun _ => pure_local
  exact either_optional_local hbranch (headedBlock_local h)

theorem ifStatement_local :
    Local false (fun d => d + 1) (fun d => ifStatement (statement d) (d + 1)) depth := by
  have helseIf : Advances depth (elseIf (statement depth) (depth + 1)) :=
    (elseIf_follows (statement_follows depth)).advances fun _ => nofun
  exact .after <| .within <| test_local.bind fun _ => (headedBlock_local h).bind fun _ =>
    (branches_local h).loop helseIf (fun _ _ => pure_local) fun d => Nat.le_succ d

theorem whileStatement_local :
    Local false (fun d => d + 1) (fun d => whileStatement (statement d) (d + 1)) depth :=
  .after <| .within <| test_local.bind fun _ => (headedBlock_local h).bind fun _ => pure_local

omit h in
theorem mutability_local {ι : Type} {size : ι → Nat} {i : ι} :
    Local true size (fun _ => mutability) i :=
  expect_local.optional.bind fun _ => pure_local

omit h in
theorem loopVariable_local {ι : Type} {size : ι → Nat} {i : ι} :
    Local true size (fun _ => loopVariable) i := by
  have hdeclared : Local false size (fun _ => do
      expect .varWord
      let isMutable ← mutability
      return LoopVariable.declared (← requireIdentifier) isMutable) i :=
    expect_local.bind fun _ => mutability_local.bind fun _ =>
      requireIdentifier_local.bind fun _ => pure_local
  exact hdeclared.orElse requireIdentifier_local.map

theorem forStatement_local :
    Local false (fun d => d + 1) (fun d => forStatement (statement d) (d + 1)) depth :=
  .after <| .within <| loopVariable_local.bind fun _ => require_local.bind fun _ =>
    test_local.bind fun _ => (headedBlock_local h).bind fun _ => pure_local

end Blocks

/-! ## Simple statements -/

section Simple

variable {ι : Type} {size : ι → Nat} {i : ι} {depth limit : Nat} {context : List Construct}
  {tokens rest : List Token}

theorem single_local {found : Bool} {readers : ι → Reader Stmt} (h : Local found size readers i) :
    Local found size (fun i => single (readers i)) i :=
  h.bind fun _ => pure_local

theorem returnStatement_local :
    Local false (fun d => d + 1) (fun d => returnStatement (d + 1)) depth := by
  have hnothing : Local false (fun d => d)
      (fun _ => do expect .newline; return Stmt.returnStmt none) depth :=
    expect_local.bind fun _ => pure_local
  exact .after <| .within <| hnothing.orElse <| test_local.bind fun _ =>
    require_local.bind fun _ => pure_local

theorem wordStatement_local {kind : TokenKind} {b : Block} :
    Local false size (fun _ => wordStatement kind b) i :=
  expect_local.bind fun _ => require_local.bind fun _ => pure_local

theorem assertStatement_local :
    Local false (fun d => d + 1) (fun d => assertStatement (d + 1)) depth :=
  .after <| .within <| test_local.bind fun _ => require_local.bind fun _ => pure_local

/-- The sign of an assignment, and a value that makes statements of it. -/
def assigned (limit : Nat) (f : Expr → Block) : Reader Block := do
  expect .assign
  within .assignment do
    let value ← required (expression limit)
    require .newline
    return f value

theorem assigned_local {f : Expr → Block} :
    Local false (fun d => d + 1) (fun d => assigned (d + 1) f) depth :=
  .after <| .within <| test_local.bind fun _ => require_local.bind fun _ => pure_local

/-- What a declaration does after its words. -/
def declared (limit : Nat) (isMutable : Bool) : Reader Block := do
  let start ← here
  let name ← requireIdentifier
  if (← here).head?.any fun t => t.kind = .assign then
    let value ← startingAt start (commit .expectedStatement (assignment limit))
    return [Stmt.declare name isMutable, value]
  else
    require .newline
    return [Stmt.declare name isMutable]

theorem assigned_absent {f : Expr → Block} (h : ∀ t ∈ tokens.head?, t.kind ≠ .assign) :
    assigned limit f context tokens = .absent :=
  bind_of_absent (expect_eq_absent.mpr h)

theorem assigned_ne_absent {t : Token} {f : Expr → Block} (ht : t.kind = .assign) :
    assigned limit f context (t :: rest) ≠ .absent := by
  simp [assigned, required, ht]

theorem exists_of_head_kind {kind : TokenKind} (h : tokens.head?.any fun t => t.kind = kind) :
    ∃ t rest, tokens = t :: rest ∧ t.kind = kind := by
  cases tokens with
  | nil => cases h
  | cons t rest => exact ⟨t, rest, rfl, of_decide_eq_true h⟩

theorem head_kind_ne {kind : TokenKind} (h : ¬ tokens.head?.any fun t => t.kind = kind) :
    ∀ t ∈ tokens.head?, t.kind ≠ kind := by
  rintro t ht rfl
  simp [Option.mem_def.mp ht] at h

/-- The target and the sign of an assignment may be read before it. -/
theorem assignment_eq {t : Token} {target : Expr} {f : Stmt → Block}
    (hexpression : expression limit context tokens = .read target (t :: rest))
    (ht : t.kind = .assign) :
    (do return f (← assignment limit) : Reader Block) context tokens =
      assigned limit (fun value => f (.assign target value)) context (t :: rest) := by
  have hassign : expect .assign context (t :: rest) = .read () rest :=
    expect_eq_read.mpr ⟨t, rfl, ht⟩
  have hright : assigned limit (fun value => f (.assign target value)) context (t :: rest) = (do
      let value ← required (expression limit)
      require .newline
      return f (.assign target value) : Reader Block) (.assignment :: context) rest :=
    bind_of_read hassign
  have hleft : assignment limit context tokens = (do
      let value ← required (expression limit)
      require .newline
      return .assign target value : Reader Stmt) (.assignment :: context) rest :=
    (bind_of_read hexpression).trans (bind_of_read hassign)
  rw [hright]
  refine Eq.trans (bind_congr_reading hleft fun _ _ => rfl) ?_
  simp only [bind_assoc, pure_bind]

/-- The target is there, so that the assignment is read in any case. -/
theorem committed_assignment_eq {t : Token} {target : Expr} {f : Stmt → Block}
    (hexpression : expression limit context tokens = .read target (t :: rest))
    (ht : t.kind = .assign) :
    (do return f (← commit .expectedStatement (assignment limit)) : Reader Block) context tokens =
      assigned limit (fun value => f (.assign target value)) context (t :: rest) := by
  have hvalue := assignment_eq (f := f) hexpression ht
  have hfound : assignment limit context tokens ≠ .absent := fun habsent =>
    assigned_ne_absent ht (hvalue.symm.trans (bind_of_absent habsent))
  rw [← hvalue]
  exact bind_congr_reading (commit_of_ne_absent hfound) fun _ _ => rfl

/-- A declared name is the target of an assignment, so that it need not be read again. -/
theorem declared_eq {isMutable : Bool} (hagree : AllAgree tokens) :
    declared (limit + 1) isMutable context tokens = (do
      let name ← requireIdentifier
      assigned (limit + 1)
          (fun value => [.declare name isMutable, .assign (.name name) value]) <|> do
        require .newline
        return [Stmt.declare name isMutable] : Reader Block) context tokens := by
  show (requireIdentifier >>= fun name => here >>= fun mid =>
    if mid.head?.any fun t => t.kind = .assign then
      startingAt tokens (commit .expectedStatement (assignment (limit + 1))) >>= fun value =>
        pure [.declare name isMutable, value]
    else require .newline >>= fun _ => pure [.declare name isMutable]) context tokens = _
  cases hname : requireIdentifier context tokens with
  | absent => rw [bind_of_absent hname, bind_of_absent hname]
  | broken e => rw [bind_of_broken hname, bind_of_broken hname]
  | read n mid =>
    rw [bind_of_read hname, bind_of_read hname]
    obtain ⟨t, rfl, ht⟩ := requireIdentifier_eq_read.mp hname
    have hsign : sign? t = none := by
      have hkind : t.kind = .name :=
        congrArg Terminal.kind (ofToken_eq_name (allAgree_cons.mp hagree).1 ht)
      simp [sign?, hkind]
    by_cases hassign : mid.head?.any fun t => t.kind = .assign
    · obtain ⟨t', rest, rfl, ht'⟩ := exists_of_head_kind hassign
      have htarget : expression (limit + 1) context (t :: t' :: rest) =
          .read (.name n) (t' :: rest) :=
        expression_name_assign ht hsign ht'
      refine Eq.trans ?_ (orElse_of_ne_absent (assigned_ne_absent ht')).symm
      show (if (t' :: rest).head?.any fun t => t.kind = .assign then _ else _ : Reader Block)
        _ _ = _
      rw [if_pos hassign]
      exact committed_assignment_eq (f := fun s => [.declare n isMutable, s]) htarget ht'
    · refine Eq.trans ?_ (orElse_of_absent (assigned_absent (head_kind_ne hassign))).symm
      show (if mid.head?.any fun t => t.kind = .assign then _ else _ : Reader Block) _ _ = _
      rw [if_neg hassign]

theorem declaration_local :
    Local false (fun d => d + 1) (fun d => declaration (d + 1)) depth := by
  have hdeclared (isMutable : Bool) :
      Local true (fun d => d) (fun d => declared (d + 1) isMutable) depth := by
    have hvalue {f : Expr → Block} : Local false (fun d => d) (fun d => assigned (d + 1) f) depth :=
      assigned_local.mono fun d => Nat.le_succ d
    have hsame : Local true (fun d => d) (fun d => do
        let name ← requireIdentifier
        assigned (d + 1) (fun value => [.declare name isMutable, .assign (.name name) value]) <|> do
          require .newline
          return [Stmt.declare name isMutable]) depth :=
      requireIdentifier_local.bind fun _ => hvalue.orElse <| require_local.bind fun _ => pure_local
    exact hsame.congr fun _ _ _ hagree _ => declared_eq hagree
  exact .after <| .within <| mutability_local.bind hdeclared

/-- What stands at the end of an expression that is a statement. -/
def expressionEnd (e : Expr) : Reader Block :=
  within .expressionStatement do
    require .newline
    return [.expression e]

/-- An expression, and what may follow it: the sign of an assignment, or nothing. -/
def expressionOrTarget (limit : Nat) : Reader Block := do
  let e ← expression limit
  assigned limit (fun value => [.assign e value]) <|> expressionEnd e

theorem expressionStatement_eq {e : Expr} (h : expression limit context tokens = .read e rest) :
    single (expressionStatement limit) context tokens = expressionEnd e context rest := by
  have hleft : expressionStatement limit context tokens =
      (do require .newline; return .expression e : Reader Stmt) (.expressionStatement :: context)
        rest := bind_of_read h
  show (expressionStatement limit >>= fun s => pure [s]) context tokens = (do
    require .newline; return [.expression e] : Reader Block) (.expressionStatement :: context) rest
  refine Eq.trans (bind_congr_reading hleft fun _ _ => rfl) ?_
  simp only [bind_assoc, pure_bind]

theorem passWord_absent {e : Expr} (hagree : AllAgree tokens)
    (h : expression limit context tokens = .read e rest) :
    wordStatement .passWord [] context tokens = .absent := by
  refine bind_of_absent (expect_eq_absent.mpr ?_)
  rintro t ht hkind
  obtain ⟨tokens, rfl⟩ : ∃ tokens', tokens = t :: tokens' := by
    cases tokens with
    | nil => cases ht
    | cons t' tokens => exact ⟨tokens, by rw [Option.some.inj ht]⟩
  rw [expression_absent (ofToken_eq_word (allAgree_cons.mp hagree).1 hkind rfl) rfl] at h
  cases h

/-- What follows an expression tells whether it is a target. -/
theorem expressionOrTarget_of_read (hagree : AllAgree tokens)
    (hexpression : expression limit context tokens = .read e rest) :
    (single (assignment limit) <|> wordStatement .passWord [] <|>
      single (expressionStatement limit)) context tokens =
        (assigned limit (fun value => [.assign e value]) <|> expressionEnd e) context rest := by
  by_cases hassign : rest.head?.any fun t => t.kind = .assign
  · obtain ⟨t, rest, rfl, ht⟩ := exists_of_head_kind hassign
    have htarget : single (assignment limit) context tokens =
        assigned limit (fun value => [.assign e value]) context (t :: rest) :=
      assignment_eq (f := fun s => [s]) hexpression ht
    have hvalue : assigned limit (fun value => [.assign e value]) context (t :: rest) ≠ .absent :=
      assigned_ne_absent ht
    rw [orElse_of_ne_absent (by rwa [htarget]), orElse_of_ne_absent hvalue, htarget]
  · have habsent : expect .assign context rest = .absent :=
      expect_eq_absent.mpr (head_kind_ne hassign)
    have htarget : single (assignment limit) context tokens = .absent :=
      bind_of_absent ((bind_of_read hexpression).trans (bind_of_absent habsent))
    rw [orElse_of_absent htarget, orElse_of_absent (passWord_absent hagree hexpression),
      orElse_of_absent (assigned_absent (head_kind_ne hassign)),
      expressionStatement_eq hexpression]

/-- An expression is not read again to find that it is not the target of an assignment. -/
theorem expressionOrTarget_eq (hagree : AllAgree tokens) :
    (single (assignment limit) <|> wordStatement .passWord [] <|>
      single (expressionStatement limit)) context tokens =
        (expressionOrTarget limit <|> wordStatement .passWord []) context tokens := by
  cases hexpression : expression limit context tokens with
  | absent =>
    have htarget : single (assignment limit) context tokens = .absent :=
      bind_of_absent (bind_of_absent hexpression)
    have hwhole : single (expressionStatement limit) context tokens = .absent :=
      bind_of_absent (bind_of_absent hexpression)
    have hother : expressionOrTarget limit context tokens = .absent := bind_of_absent hexpression
    rw [orElse_of_absent htarget, orElse_of_absent hother]
    cases hpass : wordStatement .passWord [] context tokens with
    | absent => rw [orElse_of_absent hpass, hwhole]
    | _ => rw [orElse_of_ne_absent (by simp [hpass]), hpass]
  | broken e =>
    have htarget : single (assignment limit) context tokens = .broken e :=
      bind_of_broken (bind_of_broken hexpression)
    have hother : expressionOrTarget limit context tokens = .broken e := bind_of_broken hexpression
    rw [orElse_of_ne_absent (by simp [htarget]), orElse_of_ne_absent (by simp [hother]), htarget,
      hother]
  | read e rest =>
    have hother : expressionOrTarget limit context tokens =
        (assigned limit (fun value => [.assign e value]) <|> expressionEnd e) context rest :=
      bind_of_read hexpression
    have hfound : expressionOrTarget limit context tokens ≠ .absent := by
      rw [hother]
      simp [expressionEnd]
    rw [expressionOrTarget_of_read hagree hexpression, orElse_of_ne_absent hfound, hother]

theorem expressionOrTarget_local :
    Local false (fun d => d + 1) (fun d => single (assignment (d + 1)) <|>
      wordStatement .passWord [] <|> single (expressionStatement (d + 1))) depth := by
  have hsame : Local false (fun d => d + 1)
      (fun d => expressionOrTarget (d + 1) <|> wordStatement .passWord []) depth := by
    refine Local.orElse (whole_local.bind fun e => assigned_local.orElse ?_) wordStatement_local
    exact .within <| require_local.bind fun _ => pure_local
  exact hsame.congr fun _ _ _ hagree _ => expressionOrTarget_eq hagree

end Simple

/-! ## Statements -/

theorem line_local {depth : Nat} (h : Local true (fun d => d) statement depth) :
    Local true (fun d => d + 1) (fun d => line (statement d) (d + 1)) depth := by
  refine .within (Local.commit ?_)
  refine (single_local (functionDefinition_local h).map).orElse ?_
  refine (single_local (classDefinition_local h)).orElse ?_
  refine (single_local returnStatement_local).orElse ?_
  refine (single_local (ifStatement_local h)).orElse ?_
  refine (single_local (whileStatement_local h)).orElse ?_
  refine (single_local (forStatement_local h)).orElse ?_
  refine wordStatement_local.orElse ?_
  refine wordStatement_local.orElse ?_
  refine (single_local assertStatement_local).orElse ?_
  exact declaration_local.orElse expressionOrTarget_local

theorem statement_local (depth : Nat) : Local true (fun d => d) statement depth := by
  induction depth with
  | zero =>
    intro context tokens _ hlength
    exact absurd hlength (Nat.not_lt_zero _)
  | succ depth ih => exact (line_local ih).of_succ

end Grammar

/-! ## Programs -/

open Grammar
open Grammar.Terminal (ofToken)

/-- The error of the tokens is found at the index: however the tokens are spelled and wherever they
stand in the text, it reports the one at the index. -/
def SyntaxError.FoundAt (e : SyntaxError) (tokens : List Token) (i : Nat) : Prop :=
  i < tokens.length ∧ ∀ tokens', tokens'.map ofToken = tokens.map ofToken →
    Program.ofTokens tokens' = .error { e with token := tokens'[i]? }

section Programs

variable {tokens tokens' : List Token} {e : SyntaxError} {i j : Nat}

/-- An error is found at one place. -/
theorem SyntaxError.FoundAt.unique (hi : e.FoundAt tokens i) (hj : e.FoundAt tokens j) : i = j := by
  obtain ⟨hilt, hi⟩ := hi
  obtain ⟨hjlt, hj⟩ := hj
  by_contra hne
  -- the token at the one place is spelled unlike the token at the other
  let respelled : Token := { tokens[i] with lexeme := tokens[j].lexeme ++ " " }
  have hsame : (tokens.set i respelled).map ofToken = tokens.map ofToken := by
    have hterminal : ofToken respelled = ofToken tokens[i] := rfl
    rw [List.map_set, hterminal, ← List.getElem_map ofToken (h := by simpa using hilt),
      List.set_getElem_self]
  have htokens : (tokens.set i respelled)[i]? = (tokens.set i respelled)[j]? :=
    congrArg SyntaxError.token (Except.error.inj ((hi _ hsame).symm.trans (hj _ hsame)))
  rw [List.getElem?_set_self hilt, List.getElem?_set_ne hne,
    List.getElem?_eq_getElem hjlt] at htokens
  have hlexeme := congrArg (fun t : Token => t.lexeme.length) (Option.some.inj htokens)
  simp [respelled] at hlexeme

/-- At the end of a program nothing is wrong but that it does not end. -/
theorem endOfProgram_eq (context : List Construct) (tokens : List Token) :
    endOfProgram context tokens = .read () tokens ∨
      endOfProgram context tokens = .broken ⟨.trailingTokens, tokens.head?, context.reverse⟩ := by
  match tokens with
  | [] => exact Or.inr rfl
  | [t] =>
    show (if t.kind = .endOfFile then pure () else Reader.breakAt .trailingTokens [t] :
      Reader Unit) context [t] = _ ∨ (if t.kind = .endOfFile then pure () else
        Reader.breakAt .trailingTokens [t] : Reader Unit) context [t] = _
    split
    · exact Or.inl rfl
    · exact Or.inr rfl
  | _ :: _ :: _ => exact Or.inr rfl

/-- The statements of a program run into its error, unless it is about tokens after its end. -/
theorem ofTokens_eq_error (hspace : ∀ t ∈ tokens, t.isWhitespace = false)
    (hkind : e.kind.isImmediate = true) :
    Program.ofTokens tokens = .error e ↔
      statements (statement (tokens.length + 1)) (tokens.length + 1) [.program] tokens =
        .broken e := by
  have hfilter : tokens.filter (fun t => !t.isWhitespace) = tokens :=
    List.filter_eq_self.mpr fun t ht => by simp [hspace t ht]
  unfold Program.ofTokens
  dsimp only
  rw [hfilter]
  cases hstatements : statements (statement (tokens.length + 1)) (tokens.length + 1) [.program]
      tokens with
  | absent => simp [statements] at hstatements
  | broken e' =>
    have hprogram : program (tokens.length + 1) [] tokens = .broken e' := bind_of_broken hstatements
    rw [hprogram]
    simp
  | read b rest =>
    have hprogram : program (tokens.length + 1) [] tokens =
        (do endOfProgram; return b : Reader Program) [.program] rest := bind_of_read hstatements
    rw [hprogram]
    refine iff_of_false (fun h => ?_) (by simp)
    rcases endOfProgram_eq [.program] rest with hend | hend
    · rw [bind_of_read hend] at h
      cases h
    · rw [bind_of_broken hend] at h
      obtain rfl := Except.error.inj h
      cases hkind

/-- Tokens with the same terminals have no white space either. -/
theorem forall_isWhitespace {tokens tokens' : List Token}
    (h : tokens'.map ofToken = tokens.map ofToken) (hspace : ∀ t ∈ tokens, t.isWhitespace = false) :
    ∀ t ∈ tokens', t.isWhitespace = false := by
  intro t ht
  have hmem : ofToken t ∈ tokens.map ofToken := h ▸ List.mem_map_of_mem ht
  obtain ⟨t', ht', heq⟩ := List.mem_map.mp hmem
  have hkind : t'.kind = t.kind := congrArg Terminal.kind heq
  simpa [Token.isWhitespace, hkind] using hspace t' ht'

theorem allAgree_of_map {tokens tokens' : List Token}
    (h : tokens'.map ofToken = tokens.map ofToken) (hagree : AllAgree tokens) :
    AllAgree tokens' := by
  intro t ht
  have hmem : ofToken t ∈ tokens.map ofToken := h ▸ List.mem_map_of_mem ht
  obtain ⟨t', ht', heq⟩ := List.mem_map.mp hmem
  exact heq ▸ hagree t' ht'

section Places

variable {kind : SyntaxErrorKind} {constructs : List Construct}
  (hkind : kind.isImmediate = true)
  (hrepeats : Repeats (fun d => d) (fun d => statements (statement d) d) [.program] tokens (i + 1)
    fun tokens' => .broken ⟨kind, tokens'[i]?, constructs⟩)
  (hagree : AllAgree tokens') (hspace : ∀ t ∈ tokens', t.isWhitespace = false)
  (halike : Alike (i + 1) tokens tokens')
include hkind hrepeats hagree hspace halike

/-- The error that decides the statements is the error of all programs that begin alike. -/
theorem ofTokens_of_repeats :
    Program.ofTokens tokens' = .error ⟨kind, tokens'[i]?, constructs⟩ :=
  (ofTokens_eq_error (e := ⟨kind, tokens'[i]?, constructs⟩) hspace hkind).mpr
    (hrepeats hagree (Nat.lt_succ_self _) halike)

theorem foundAt_of_repeats (hi : i < tokens'.length) :
    SyntaxError.FoundAt ⟨kind, tokens[i]?, constructs⟩ tokens' i := by
  refine ⟨hi, fun tokens'' hsame => ?_⟩
  have halike' : Alike (i + 1) tokens tokens'' := by
    unfold Alike at halike ⊢
    rw [halike, List.map_take, List.map_take, hsame]
  exact ofTokens_of_repeats hkind hrepeats (allAgree_of_map hsame hagree)
    (forall_isWhitespace hsame hspace) halike'

end Places

/-- A syntax error is found at one token, and whatever follows that token, the tokens are refused
with the same error at the same place. -/
theorem Program.error_local (hagree : AllAgree tokens)
    (hspace : ∀ t ∈ tokens, t.isWhitespace = false) (herror : Program.ofTokens tokens = .error e)
    (hkind : e.kind.isImmediate = true) (htoken : e.token ≠ none) :
    ∃ i, e.FoundAt tokens i ∧ (∀ j, e.FoundAt tokens j → j = i) ∧ tokens[i]? = e.token ∧
      ∀ tokens', AllAgree tokens' → (∀ t ∈ tokens', t.isWhitespace = false) →
        tokens'.take (i + 1) = tokens.take (i + 1) →
          Program.ofTokens tokens' = .error e ∧ e.FoundAt tokens' i := by
  have hdecided : Decided (fun d => d) (fun d => statements (statement d) d) true [.program] tokens
      (statements (statement (tokens.length + 1)) (tokens.length + 1) [.program] tokens) :=
    statements_local (statement_local _) (fun _ => Nat.le_refl _) hagree (Nat.lt_succ_self _)
  rw [(ofTokens_eq_error hspace hkind).mp herror] at hdecided
  cases hdecided with
  | elsewhere he => exact absurd (he.symm.trans hkind) Bool.false_ne_true
  | @broken i kind constructs hrepeats =>
    have hi : i < tokens.length := by
      by_contra hlong
      exact htoken (List.getElem?_eq_none (Nat.le_of_not_lt hlong))
    have hfound := foundAt_of_repeats hkind hrepeats hagree hspace rfl hi
    refine ⟨i, hfound, fun j hj => hj.unique hfound, rfl, ?_⟩
    intro tokens' hagree' hspace' htake
    have halike : Alike (i + 1) tokens tokens' := congrArg (List.map ofToken) htake.symm
    have hsame : tokens'[i]? = tokens[i]? := by
      have h := congrArg (fun l : List Token => l[i]?) htake
      simpa using h
    have hi' : i < tokens'.length := by
      rw [List.getElem?_eq_getElem hi] at hsame
      exact (List.getElem?_eq_some_iff.mp hsame).1
    refine ⟨?_, foundAt_of_repeats hkind hrepeats hagree' hspace' halike hi'⟩
    rw [ofTokens_of_repeats hkind hrepeats hagree' hspace' halike, hsame]

/-- The tokens of `x = )`. -/
def unopenedTokens : List Token :=
  [⟨.name, .name "x", "x", ⟨1, 1⟩⟩, ⟨.assign, .none, "=", ⟨1, 3⟩⟩,
    ⟨.closeParen, .none, ")", ⟨1, 5⟩⟩, ⟨.newline, .none, "\n", ⟨1, 6⟩⟩,
    ⟨.endOfFile, .none, "", ⟨2, 1⟩⟩]

def unopenedError : SyntaxError :=
  ⟨.expectedExpression, some ⟨.closeParen, .none, ")", ⟨1, 5⟩⟩, [.program, .statement, .assignment]⟩

theorem error_local_unopened :
    Program.ofTokens unopenedTokens = .error unopenedError ∧
      ∃ i, unopenedError.FoundAt unopenedTokens i ∧
        (∀ j, unopenedError.FoundAt unopenedTokens j → j = i) ∧
        unopenedTokens[i]? = unopenedError.token ∧
        ∀ tokens', AllAgree tokens' → (∀ t ∈ tokens', t.isWhitespace = false) →
          tokens'.take (i + 1) = unopenedTokens.take (i + 1) →
            Program.ofTokens tokens' = .error unopenedError ∧ unopenedError.FoundAt tokens' i := by
  have hagree : AllAgree unopenedTokens := by
    simp [unopenedTokens, AllAgree, Terminal.Agrees, ofToken]
  have hspace : ∀ t ∈ unopenedTokens, t.isWhitespace = false := by decide
  have herror : Program.ofTokens unopenedTokens = .error unopenedError := rfl
  have htoken : unopenedError.token ≠ none := Option.some_ne_none _
  exact ⟨herror, Program.error_local hagree hspace herror rfl htoken⟩

end Programs

end Offside
