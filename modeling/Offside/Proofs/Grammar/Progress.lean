import Offside.Proofs.Grammar.Beginnings
import Offside.Proofs.Token.Progress

/-!
# Readers make progress

What a reader leaves is the end of what it was given, and nearly every reader takes a token. So the
readers of nested constructs are given fewer tokens at each level, and loops end with the tokens:
a limit that is larger than the number of tokens is never reached, whatever the tokens are, and
readers with other such limits have the same outcome.

The two are shown together. A token that was taken lowers the number of tokens that the limits have
to exceed, and limits that are never reached matter for what a reader leaves.
-/

namespace Offside

namespace Reader

variable {α β : Type} {r r' s s' : Reader α} {f f' : α → Reader β} {strict strict' : Bool}
  {n m limit limit' : Nat}

/-! ## What readers leave -/

/-- What the reader leaves is the end of what it was given. -/
def LeavesSuffix (r : Reader α) : Prop :=
  ∀ ⦃context tokens a rest⦄, r context tokens = .read a rest → rest <:+ tokens

/-- What the reader leaves is the end of what it was given, and not all of it. -/
def Progresses (r : Reader α) : Prop :=
  ∀ ⦃context tokens a rest⦄, r context tokens = .read a rest →
    rest <:+ tokens ∧ rest.length < tokens.length

/-- Some tokens are all left by the reader. -/
def MayStay (r : Reader α) : Prop := ∃ context tokens a, r context tokens = .read a tokens

/-- The readers are one reader with two limits, neither of which is reached with less than `n`
tokens. The reader leaves a suffix, and takes a token if this is `strict`. -/
structure Settled (strict : Bool) (n : Nat) (r r' : Reader α) : Prop where
  same : ∀ ⦃context tokens⦄, tokens.length < n → r context tokens = r' context tokens
  suffix : LeavesSuffix r
  shorter : strict = true → Progresses r

theorem settled_of_progresses (h : Progresses r) : Settled true n r r where
  same _ _ _ := rfl
  suffix _ _ _ _ hread := (h hread).1
  shorter _ := h

namespace Settled

theorem progresses (h : Settled true n r r') : Progresses r := h.shorter rfl

/-- With no tokens to speak of, the second reader does not matter. -/
theorem of_zero (h : Settled strict m r r') : Settled strict 0 r s where
  same _ _ hlength := absurd hlength (Nat.not_lt_zero _)
  suffix := h.suffix
  shorter := h.shorter

theorem weaken (h : Settled strict n r r') : Settled false n r r' where
  same := h.same
  suffix := h.suffix
  shorter := nofun

theorem mono (h : Settled strict n r r') (hle : m ≤ n) : Settled strict m r r' where
  same _ _ hlength := h.same (Nat.lt_of_lt_of_le hlength hle)
  suffix := h.suffix
  shorter := h.shorter

/-! ## Readers in a row -/

/-- A reader that takes a token leaves fewer tokens for what follows. -/
theorem bind_of_le (h : Settled strict n r r') (hf : ∀ a, Settled strict' m (f a) (f' a))
    (hle : n ≤ m ∨ strict = true ∧ n ≤ m + 1) :
    Settled (strict || strict') n (r >>= f) (r' >>= f') where
  same context tokens hlength := by
    show Reader.bind r f context tokens = Reader.bind r' f' context tokens
    unfold Reader.bind
    rw [← h.same hlength]
    cases hread : r context tokens with
    | absent => rfl
    | broken e => rfl
    | read a mid =>
      refine (hf a).same ?_
      rcases hle with hle | ⟨hstrict, hle⟩
      · have := (h.suffix hread).length_le
        omega
      · have := (h.shorter hstrict hread).2
        omega
  suffix context tokens b rest hread := by
    obtain ⟨a, mid, ha, hb⟩ := bind_eq_read.mp hread
    exact ((hf a).suffix hb).trans (h.suffix ha)
  shorter hstrict context tokens b rest hread := by
    obtain ⟨a, mid, ha, hb⟩ := bind_eq_read.mp hread
    refine ⟨((hf a).suffix hb).trans (h.suffix ha), ?_⟩
    have hmid := (h.suffix ha).length_le
    have hrest := ((hf a).suffix hb).length_le
    rcases Bool.or_eq_true_iff.mp hstrict with hstrict | hstrict
    · have := (h.shorter hstrict ha).2
      omega
    · have := ((hf a).shorter hstrict hb).2
      omega

theorem bind (h : Settled strict n r r') (hf : ∀ a, Settled false n (f a) (f' a)) :
    Settled strict n (r >>= f) (r' >>= f') := by
  simpa using h.bind_of_le hf (Or.inl (Nat.le_refl n))

/-- What follows may take the token. -/
theorem before (h : Settled false n r r') (hf : ∀ a, Settled strict n (f a) (f' a)) :
    Settled strict n (r >>= f) (r' >>= f') := by
  simpa using h.bind_of_le hf (Or.inl (Nat.le_refl n))

/-- What follows a token has one token less to read. -/
theorem after (h : Settled true n r r') (hf : ∀ a, Settled false (n - 1) (f a) (f' a)) :
    Settled true n (r >>= f) (r' >>= f') :=
  h.bind_of_le hf (Or.inr ⟨rfl, by omega⟩)

theorem pure {a : α} : Settled false n (Pure.pure a : Reader α) (Pure.pure a) where
  same _ _ _ := rfl
  suffix context tokens b rest hread := by
    obtain ⟨-, rfl⟩ := pure_eq_read.mp hread
    exact List.suffix_refl tokens
  shorter := nofun

theorem map {g : α → β} (h : Settled strict n r r') : Settled strict n (g <$> r) (g <$> r') :=
  h.bind fun _ => pure

/-! ## Readers with one outcome -/

theorem absent : Settled strict n (Reader.absent : Reader α) Reader.absent where
  same _ _ _ := rfl
  suffix _ _ _ _ hread := by cases hread
  shorter _ _ _ _ _ hread := by cases hread

theorem breakAt {kind : SyntaxErrorKind} {start : List Token} :
    Settled strict n (Reader.breakAt kind start : Reader α) (Reader.breakAt kind start) where
  same _ _ _ := rfl
  suffix _ _ _ _ hread := absurd hread breakAt_ne_read
  shorter _ _ _ _ _ hread := absurd hread breakAt_ne_read

theorem here : Settled false n Reader.here Reader.here where
  same _ _ _ := rfl
  suffix context tokens start rest hread := by
    obtain ⟨-, rfl⟩ := here_eq_read.mp hread
    exact List.suffix_refl rest
  shorter := nofun

theorem token {test : Token → Option α} :
    Settled true n (Reader.token test) (Reader.token test) := by
  have hprogress : Progresses (Reader.token test) := by
    intro context tokens a rest hread
    obtain ⟨t, rfl, -⟩ := token_eq_read.mp hread
    exact ⟨List.suffix_cons t rest, Nat.lt_succ_self _⟩
  exact ⟨fun _ _ _ => rfl, fun _ _ _ _ hread => (hprogress hread).1, fun _ => hprogress⟩

theorem expect {kind : TokenKind} : Settled true n (Reader.expect kind) (Reader.expect kind) :=
  token

theorem identifier : Settled true n Reader.identifier Reader.identifier := token

theorem skipNewlines : Settled false n Reader.skipNewlines Reader.skipNewlines where
  same _ _ _ := rfl
  suffix context tokens _ rest hread := by
    rw [← skipNewlines_eq_read.mp hread]
    exact List.dropWhile_suffix _
  shorter := nofun

/-! ## Alternatives -/

theorem within {construct : Construct} (h : Settled strict n r r') :
    Settled strict n (within construct r) (within construct r') where
  same _ _ hlength := h.same hlength
  suffix _ _ _ _ hread := h.suffix hread
  shorter hstrict _ _ _ _ hread := h.shorter hstrict hread

theorem commit {kind : SyntaxErrorKind} (h : Settled strict n r r') :
    Settled strict n (commit kind r) (commit kind r') where
  same context tokens hlength := by
    unfold Reader.commit
    rw [h.same hlength]
  suffix _ _ _ _ hread := h.suffix (commit_eq_read.mp hread)
  shorter hstrict _ _ _ _ hread := h.shorter hstrict (commit_eq_read.mp hread)

theorem require {kind : TokenKind} : Settled true n (Reader.require kind) (Reader.require kind) :=
  expect.commit

theorem requireIdentifier : Settled true n Reader.requireIdentifier Reader.requireIdentifier :=
  identifier.commit

theorem orElse (h : Settled strict n r r') (hs : Settled strict n s s') :
    Settled strict n (r <|> s) (r' <|> s') where
  same context tokens hlength := by
    show Reader.orElse r (fun _ => s) context tokens = Reader.orElse r' (fun _ => s') context tokens
    unfold Reader.orElse
    rw [h.same hlength]
    cases r' context tokens with
    | absent => exact hs.same hlength
    | _ => rfl
  suffix _ _ _ _ hread := by
    rcases orElse_eq_read.mp hread with hread | ⟨-, hread⟩
    · exact h.suffix hread
    · exact hs.suffix hread
  shorter hstrict _ _ _ _ hread := by
    rcases orElse_eq_read.mp hread with hread | ⟨-, hread⟩
    · exact h.shorter hstrict hread
    · exact hs.shorter hstrict hread

theorem optional (h : Settled strict n r r') : Settled false n (optional r) (optional r') :=
  h.weaken.map.orElse pure

/-! ## Loops -/

/-- Every round takes a token, so that a limit above the number of tokens is not reached. -/
theorem many (h : Settled true n r r') (hlimit : n ≤ limit) (hlimit' : n ≤ limit') :
    Settled false n (many r limit) (many r' limit') := by
  induction limit generalizing n limit' with
  | zero =>
    obtain rfl := Nat.le_zero.mp hlimit
    exact (pure : Settled false 0 _ (Pure.pure [])).of_zero
  | succ limit ih =>
    have hround {k : Nat} (hk : n - 1 ≤ k) :
        Settled false n (Reader.many r (limit + 1)) (Reader.many r' (k + 1)) := by
      have hrest : Settled false (n - 1) (Reader.many r limit) (Reader.many r' k) :=
        ih (h.mono (Nat.sub_le n 1)) (by omega) hk
      have hloop : Settled true n (do return (← r) :: (← Reader.many r limit))
          (do return (← r') :: (← Reader.many r' k)) :=
        h.after fun _ => hrest.bind fun _ => pure
      exact hloop.weaken.orElse pure
    cases limit' with
    | zero =>
      obtain rfl := Nat.le_zero.mp hlimit'
      exact (hround (Nat.zero_le 0)).of_zero
    | succ limit' => exact hround (by omega)

theorem separated {missing : SyntaxErrorKind} (h : Settled true n r r') (hlimit : n ≤ limit)
    (hlimit' : n ≤ limit') :
    Settled false n (separated missing limit r) (separated missing limit' r') := by
  have hnext : Settled true n (do Reader.expect .comma; Reader.commit missing r)
      (do Reader.expect .comma; Reader.commit missing r') :=
    expect.bind fun _ => h.commit.weaken
  have hitems : Settled true n
      (do
        let first ← r
        let others ← Reader.many (do Reader.expect .comma; Reader.commit missing r) limit
        return first :: others)
      (do
        let first ← r'
        let others ← Reader.many (do Reader.expect .comma; Reader.commit missing r') limit'
        return first :: others) :=
    h.bind fun _ => (hnext.many hlimit hlimit').bind fun _ => pure
  exact hitems.weaken.orElse pure

end Settled

end Reader

namespace Grammar

open Reader

variable {n limit limit' : Nat}

/-! ## Expressions -/

section Expressions

variable {inner inner' : Reader Expr} (h : Settled true (n - 1) inner inner')
include h

theorem required_settled : Settled true (n - 1) (required inner) (required inner') := h.commit

theorem parenthesized_settled : Settled true n (parenthesized inner) (parenthesized inner') :=
  Settled.expect.after fun _ => Settled.within <| (required_settled h).weaken.bind fun _ =>
    Settled.require.weaken.bind fun _ => .pure

theorem indexSuffix_settled : Settled true n (indexSuffix inner) (indexSuffix inner') :=
  Settled.expect.after fun _ => Settled.within <| (required_settled h).weaken.bind fun _ =>
    Settled.require.weaken.bind fun _ => .pure

omit h in
theorem memberSuffix_settled : Settled true n memberSuffix memberSuffix :=
  Settled.expect.bind fun _ => Settled.requireIdentifier.weaken.bind fun _ => .pure

theorem dictionaryEntry_settled :
    Settled true (n - 1) (dictionaryEntry inner) (dictionaryEntry inner') :=
  h.bind fun _ => Settled.require.weaken.bind fun _ => (required_settled h).weaken.bind fun _ =>
    .pure

theorem argument_settled : Settled true (n - 1) (argument inner) (argument inner') :=
  Settled.orElse (Settled.identifier.bind fun _ => Settled.expect.weaken.bind fun _ =>
    (required_settled h).weaken.bind fun _ => .pure) h.map

variable (hlimit : n ≤ limit) (hlimit' : n ≤ limit')
include hlimit hlimit'

theorem list_settled : Settled true n (list inner limit) (list inner' limit') :=
  Settled.expect.after fun _ => Settled.within <|
    (h.separated (by omega) (by omega)).bind fun _ => Settled.require.weaken.bind fun _ => .pure

theorem dictionary_settled : Settled true n (dictionary inner limit) (dictionary inner' limit') :=
  Settled.expect.after fun _ => Settled.within <|
    ((dictionaryEntry_settled h).separated (by omega) (by omega)).bind fun _ =>
      Settled.require.weaken.bind fun _ => .pure

theorem primary_settled : Settled true n (primary inner limit) (primary inner' limit') :=
  Settled.token.orElse <| (list_settled h hlimit hlimit').orElse <|
    (dictionary_settled h hlimit hlimit').orElse (parenthesized_settled h)

theorem callSuffix_settled :
    Settled true n (callSuffix inner limit) (callSuffix inner' limit') := by
  refine Settled.expect.after fun _ => Settled.within <| Settled.here.bind fun start =>
    ((argument_settled h).separated (by omega) (by omega)).bind fun arguments => ?_
  split
  · exact Settled.require.weaken.bind fun _ => .pure
  · exact .breakAt

theorem suffix_settled : Settled true n (suffix inner limit) (suffix inner' limit') :=
  (callSuffix_settled h hlimit hlimit').orElse <|
    memberSuffix_settled.orElse (indexSuffix_settled h)

theorem postfixed_settled : Settled true n (postfixed inner limit) (postfixed inner' limit') :=
  (primary_settled h hlimit hlimit').bind fun _ =>
    ((suffix_settled h hlimit hlimit').many hlimit hlimit').bind fun _ => .pure

theorem unary_settled : Settled true n (unary inner limit) (unary inner' limit') := by
  refine (Settled.token.many hlimit hlimit').before fun signs => ?_
  cases signs with
  | nil => exact postfixed_settled h hlimit hlimit'
  | cons s signs => exact (postfixed_settled h hlimit hlimit').commit.bind fun _ => .pure

omit h in
theorem leftGrouped_settled {operator? : Token → Option Operator} {operand operand' : Reader Expr}
    (h : Settled true n operand operand') :
    Settled true n (leftGrouped operator? operand limit)
      (leftGrouped operator? operand' limit') := by
  have hlink : Settled true n (link operator? operand) (link operator? operand') :=
    Settled.token.bind fun _ => h.commit.weaken.bind fun _ => .pure
  exact h.bind fun _ => (hlink.many hlimit hlimit').bind fun _ => .pure

theorem multiplicative_settled :
    Settled true n (multiplicative inner limit) (multiplicative inner' limit') :=
  leftGrouped_settled hlimit hlimit' (unary_settled h hlimit hlimit')

theorem additive_settled : Settled true n (additive inner limit) (additive inner' limit') :=
  leftGrouped_settled hlimit hlimit' (multiplicative_settled h hlimit hlimit')

theorem comparison_settled :
    Settled true n (comparison inner limit) (comparison inner' limit') := by
  have hsum := additive_settled h hlimit hlimit'
  have hlink : Settled true n (comparisonLink (additive inner limit))
      (comparisonLink (additive inner' limit')) :=
    Settled.token.bind fun _ => Settled.within <| hsum.commit.weaken.bind fun _ => .pure
  exact hsum.bind fun _ => (hlink.many hlimit hlimit').bind fun _ => .pure

end Expressions

theorem expression_settled (hlimit : n ≤ limit) (hlimit' : n ≤ limit') :
    Settled true n (expression limit) (expression limit') := by
  induction limit generalizing n limit' with
  | zero =>
    obtain rfl := Nat.le_zero.mp hlimit
    exact (Settled.absent : Settled true 0 (expression 0) (expression 0)).of_zero
  | succ limit ih =>
    have hlevel {k : Nat} (hk : n - 1 ≤ k) :
        Settled true n (expression (limit + 1)) (expression (k + 1)) :=
      comparison_settled (ih (by omega) hk) hlimit (by omega)
    cases limit' with
    | zero =>
      obtain rfl := Nat.le_zero.mp hlimit'
      exact (hlevel (Nat.zero_le 0)).of_zero
    | succ limit' => exact hlevel (by omega)

/-! ## Statements -/

section Statements

theorem test_settled (hlimit : n ≤ limit) (hlimit' : n ≤ limit') :
    Settled true n (required (expression limit)) (required (expression limit')) :=
  (expression_settled hlimit hlimit').commit

theorem mutability_settled : Settled false n mutability mutability :=
  Settled.expect.optional.bind fun _ => .pure

theorem loopVariable_settled : Settled true n loopVariable loopVariable :=
  Settled.orElse (Settled.expect.bind fun _ => mutability_settled.bind fun _ =>
    Settled.requireIdentifier.weaken.bind fun _ => .pure) Settled.requireIdentifier.map

theorem wordStatement_settled {word : TokenKind} {s : Block} :
    Settled true n (wordStatement word s) (wordStatement word s) :=
  Settled.expect.bind fun _ => Settled.require.weaken.bind fun _ => .pure

theorem atEnd_settled : Settled false n atEnd atEnd := by
  refine ⟨fun _ _ _ => rfl, fun context tokens ended rest hread => ?_, nofun⟩
  cases tokens <;> cases hread <;> exact List.suffix_refl _

theorem endOfProgram_settled : Settled false n endOfProgram endOfProgram := by
  refine Settled.here.bind fun rest => ?_
  split
  · split
    · exact .pure
    · exact .breakAt
  · exact .breakAt

variable (hlimit : n ≤ limit) (hlimit' : n ≤ limit')
include hlimit hlimit'

theorem parameters_settled : Settled false n (parameters limit) (parameters limit') :=
  Settled.identifier.separated hlimit hlimit'

theorem returnStatement_settled : Settled true n (returnStatement limit) (returnStatement limit') :=
  Settled.expect.bind fun _ => Settled.within <| Settled.weaken <| Settled.orElse
    (Settled.expect.bind fun _ => .pure)
    ((test_settled hlimit hlimit').bind fun _ => Settled.require.weaken.bind fun _ => .pure)

theorem assertStatement_settled : Settled true n (assertStatement limit) (assertStatement limit') :=
  Settled.expect.bind fun _ => Settled.within <| (test_settled hlimit hlimit').weaken.bind fun _ =>
    Settled.require.weaken.bind fun _ => .pure

theorem assignment_settled : Settled true n (assignment limit) (assignment limit') :=
  (expression_settled hlimit hlimit').bind fun _ => Settled.expect.weaken.bind fun _ =>
    Settled.within <| (test_settled hlimit hlimit').weaken.bind fun _ =>
      Settled.require.weaken.bind fun _ => .pure

theorem expressionStatement_settled :
    Settled true n (expressionStatement limit) (expressionStatement limit') :=
  (expression_settled hlimit hlimit').bind fun _ => Settled.within <|
    Settled.require.weaken.bind fun _ => .pure

/-- The value of a declaration is read from its name on, as an assignment. What that leaves is an
end of the tokens from the name on, and so not all of them. -/
theorem declared_settled {isMutable : Bool} :
    Settled true n (declared limit isMutable) (declared limit' isMutable) := by
  have hvalue : Settled true n (commit .expectedStatement (assignment limit))
      (commit .expectedStatement (assignment limit')) := (assignment_settled hlimit hlimit').commit
  have hprogress : Progresses (declared limit isMutable) := by
    intro context tokens b rest hread
    simp only [declared, bind_eq_read, here_eq_read] at hread
    obtain ⟨_, _, ⟨rfl, rfl⟩, n, mid, hname, _, _, ⟨rfl, rfl⟩, hread⟩ := hread
    split at hread
    · simp only [bind_eq_read, startingAt_apply, pure_eq_read] at hread
      obtain ⟨value, mid', hread, -, rfl⟩ := hread
      exact hvalue.progresses hread
    · have hline : Settled true 0 (require .newline >>= fun _ => pure [Stmt.declare n isMutable])
          (require .newline >>= fun _ => pure [Stmt.declare n isMutable]) :=
        Settled.require.bind fun _ => .pure
      obtain ⟨hsuffix, hlt⟩ := (Settled.requireIdentifier (n := 0)).progresses hname
      obtain ⟨hsuffix', hlt'⟩ := hline.progresses hread
      exact ⟨hsuffix'.trans hsuffix, hlt'.trans hlt⟩
  refine ⟨fun context tokens hlength => ?_, fun _ _ _ _ h => (hprogress h).1, fun _ => hprogress⟩
  cases hname : requireIdentifier context tokens with
  | absent => exact absurd hname requireIdentifier_ne_absent
  | broken e => exact (bind_of_broken hname).trans (bind_of_broken hname).symm
  | read n mid =>
    have hgo (limit : Nat) : declared limit isMutable context tokens =
        (if mid.head?.any fun t => t.kind = .assign then
          startingAt tokens (commit .expectedStatement (assignment limit)) >>= fun value =>
            pure [Stmt.declare n isMutable, value]
        else require .newline >>= fun _ => pure [Stmt.declare n isMutable]) context mid :=
      bind_of_read hname
    rw [hgo, hgo]
    split
    · show Reader.bind _ _ _ _ = Reader.bind _ _ _ _
      unfold Reader.bind
      rw [startingAt_apply, startingAt_apply, hvalue.same hlength]
    · rfl

theorem declaration_settled : Settled true n (declaration limit) (declaration limit') :=
  Settled.expect.bind fun _ => Settled.within <| mutability_settled.bind fun _ =>
    (declared_settled hlimit hlimit').weaken

end Statements

section Blocks

variable {inner inner' : Reader Block} (h : Settled true n inner inner')
include h

theorem nextLine_settled : Settled true n (nextLine inner) (nextLine inner') := by
  refine Settled.skipNewlines.before fun _ => atEnd_settled.before fun ended => ?_
  cases ended with
  | true => exact .absent
  | false => exact h

variable (hlimit : n ≤ limit) (hlimit' : n ≤ limit')
include hlimit hlimit'

theorem statements_settled : Settled false n (statements inner limit) (statements inner' limit') :=
  ((nextLine_settled h).many hlimit hlimit').bind fun _ => Settled.skipNewlines.bind fun _ => .pure

theorem block_settled : Settled true n (block inner limit) (block inner' limit') := by
  refine Settled.within <| Settled.require.bind fun _ => Settled.here.bind fun start =>
    (statements_settled h hlimit hlimit').bind fun body => ?_
  split
  · exact .breakAt
  · exact Settled.require.weaken.bind fun _ => .pure

theorem headedBlock_settled :
    Settled true n (headedBlock inner limit) (headedBlock inner' limit') :=
  Settled.require.bind fun _ => Settled.require.weaken.bind fun _ =>
    (block_settled h hlimit hlimit').weaken

end Blocks

section Lines

variable {inner inner' : Reader Block} (h : Settled true (n - 1) inner inner')
  (hlimit : n ≤ limit) (hlimit' : n ≤ limit')
include h hlimit hlimit'

/-- A block after a word has one token less to read. -/
theorem body_settled :
    Settled false (n - 1) (headedBlock inner limit) (headedBlock inner' limit') :=
  (headedBlock_settled h (by omega) (by omega)).weaken

theorem functionDefinition_settled :
    Settled true n (functionDefinition inner limit) (functionDefinition inner' limit') :=
  Settled.expect.after fun _ => Settled.within <| Settled.requireIdentifier.weaken.bind fun _ =>
    Settled.require.weaken.bind fun _ =>
      (parameters_settled (by omega) (by omega)).bind fun _ => Settled.require.weaken.bind fun _ =>
        (body_settled h hlimit hlimit').bind fun _ => .pure

theorem classMember_settled :
    Settled true n (classMember inner limit) (classMember inner' limit') :=
  Settled.orElse (Settled.expect.bind fun _ => Settled.require.weaken.bind fun _ => .pure)
    (functionDefinition_settled h hlimit hlimit').map

theorem nextMember_settled :
    Settled true n (nextMember inner limit) (nextMember inner' limit') := by
  refine Settled.skipNewlines.before fun _ => Settled.here.before fun start => ?_
  split
  · exact .absent
  · exact (classMember_settled h hlimit hlimit').commit

theorem classMembers_settled :
    Settled false n (classMembers inner limit) (classMembers inner' limit') :=
  ((nextMember_settled h hlimit hlimit').many hlimit hlimit').bind fun _ =>
    Settled.skipNewlines.bind fun _ => .pure

theorem classDefinition_settled :
    Settled true n (classDefinition inner limit) (classDefinition inner' limit') := by
  refine Settled.expect.bind fun _ => Settled.within <| Settled.requireIdentifier.weaken.bind
    fun _ => Settled.require.weaken.bind fun _ => Settled.require.weaken.bind fun _ =>
      Settled.require.weaken.bind fun _ => Settled.here.bind fun start =>
        (classMembers_settled h hlimit hlimit').bind fun members => ?_
  split
  · exact .breakAt
  · exact Settled.require.weaken.bind fun _ => .pure

theorem elseIf_settled : Settled true n (elseIf inner limit) (elseIf inner' limit') :=
  Settled.expect.after fun _ => Settled.expect.weaken.bind fun _ =>
    (test_settled (by omega) (by omega)).weaken.bind fun _ =>
      (body_settled h hlimit hlimit').bind fun _ => .pure

theorem ifStatement_settled :
    Settled true n (ifStatement inner limit) (ifStatement inner' limit') := by
  have helseIf : Settled true (n - 1) (elseIf inner limit) (elseIf inner' limit') :=
    (elseIf_settled h hlimit hlimit').mono (Nat.sub_le n 1)
  have helse : Settled true (n - 1) (do expect .elseWord; headedBlock inner limit)
      (do expect .elseWord; headedBlock inner' limit') :=
    Settled.expect.bind fun _ => body_settled h hlimit hlimit'
  exact Settled.expect.after fun _ => Settled.within <|
    (test_settled (by omega) (by omega)).weaken.bind fun _ =>
      (body_settled h hlimit hlimit').bind fun _ =>
        (helseIf.many (by omega) (by omega)).bind fun _ => helse.optional.bind fun _ => .pure

theorem whileStatement_settled :
    Settled true n (whileStatement inner limit) (whileStatement inner' limit') :=
  Settled.expect.after fun _ => Settled.within <|
    (test_settled (by omega) (by omega)).weaken.bind fun _ =>
      (body_settled h hlimit hlimit').bind fun _ => .pure

theorem forStatement_settled :
    Settled true n (forStatement inner limit) (forStatement inner' limit') :=
  Settled.expect.after fun _ => Settled.within <| loopVariable_settled.weaken.bind fun _ =>
    Settled.require.weaken.bind fun _ => (test_settled (by omega) (by omega)).weaken.bind fun _ =>
      (body_settled h hlimit hlimit').bind fun _ => .pure

end Lines

theorem line_settled {inner inner' : Reader Block} (h : Settled true (n - 1) inner inner')
    (hlimit : n ≤ limit) (hlimit' : n ≤ limit') :
    Settled true n (line inner limit) (line inner' limit') := by
  have hsingle {r r' : Reader Stmt} (hr : Settled true n r r') :
      Settled true n (single r) (single r') := hr.bind fun _ => .pure
  refine Settled.within <| Settled.commit ?_
  refine (hsingle (functionDefinition_settled h hlimit hlimit').map).orElse ?_
  refine (hsingle (classDefinition_settled h hlimit hlimit')).orElse ?_
  refine (hsingle (returnStatement_settled hlimit hlimit')).orElse ?_
  refine (hsingle (ifStatement_settled h hlimit hlimit')).orElse ?_
  refine (hsingle (whileStatement_settled h hlimit hlimit')).orElse ?_
  refine (hsingle (forStatement_settled h hlimit hlimit')).orElse ?_
  refine wordStatement_settled.orElse <| wordStatement_settled.orElse ?_
  refine (hsingle (assertStatement_settled hlimit hlimit')).orElse ?_
  refine (declaration_settled hlimit hlimit').orElse ?_
  refine (hsingle (assignment_settled hlimit hlimit')).orElse ?_
  exact wordStatement_settled.orElse (hsingle (expressionStatement_settled hlimit hlimit'))

theorem statement_settled (hlimit : n ≤ limit) (hlimit' : n ≤ limit') :
    Settled true n (statement limit) (statement limit') := by
  induction limit generalizing n limit' with
  | zero =>
    obtain rfl := Nat.le_zero.mp hlimit
    have hnone : Settled true 0 (statement 0) (statement 0) := Settled.absent.commit.within
    exact hnone.of_zero
  | succ limit ih =>
    have hlevel {k : Nat} (hk : n - 1 ≤ k) :
        Settled true n (statement (limit + 1)) (statement (k + 1)) :=
      line_settled (ih (by omega) hk) hlimit (by omega)
    cases limit' with
    | zero =>
      obtain rfl := Nat.le_zero.mp hlimit'
      exact (hlevel (Nat.zero_le 0)).of_zero
    | succ limit' => exact hlevel (by omega)

theorem program_settled (hlimit : n ≤ limit) (hlimit' : n ≤ limit') :
    Settled false n (program limit) (program limit') :=
  Settled.within <| (statements_settled (statement_settled hlimit hlimit') hlimit hlimit').bind
    fun _ => endOfProgram_settled.bind fun _ => .pure

/-! ## Productions -/

/-- Every reader of a part of an expression takes a token, if the reader of whole ones does. -/
structure ExpressionProgress (inner : Reader Expr) (limit : Nat) : Prop where
  required : Progresses (required inner)
  comparison : Progresses (comparison inner limit)
  additive : Progresses (additive inner limit)
  multiplicative : Progresses (multiplicative inner limit)
  unary : Progresses (unary inner limit)
  postfixed : Progresses (postfixed inner limit)
  suffix : Progresses (suffix inner limit)
  argument : Progresses (argument inner)
  primary : Progresses (primary inner limit)
  atom : Progresses (token atom?)
  list : Progresses (list inner limit)
  dictionaryEntry : Progresses (dictionaryEntry inner)
  dictionary : Progresses (dictionary inner limit)
  parenthesized : Progresses (parenthesized inner)

theorem expressionProgress {inner : Reader Expr} (h : Progresses inner) (limit : Nat) :
    ExpressionProgress inner limit := by
  have hn : 0 ≤ limit := Nat.zero_le limit
  have h : Settled true 0 inner inner := settled_of_progresses h
  exact {
    required := (required_settled (n := 0) h).progresses
    comparison := (comparison_settled h hn hn).progresses
    additive := (additive_settled h hn hn).progresses
    multiplicative := (multiplicative_settled h hn hn).progresses
    unary := (unary_settled h hn hn).progresses
    postfixed := (postfixed_settled h hn hn).progresses
    suffix := (suffix_settled h hn hn).progresses
    argument := (argument_settled (n := 0) h).progresses
    primary := (primary_settled h hn hn).progresses
    atom := (Settled.token (n := 0)).progresses
    list := (list_settled h hn hn).progresses
    dictionaryEntry := (dictionaryEntry_settled (n := 0) h).progresses
    dictionary := (dictionary_settled h hn hn).progresses
    parenthesized := (parenthesized_settled (n := 0) h).progresses }

/-- Every reader of a statement or a part of one takes a token. -/
structure StatementProgress (inner : Reader Block) (limit : Nat) : Prop where
  line : Progresses (line inner limit)
  block : Progresses (block inner limit)
  headedBlock : Progresses (headedBlock inner limit)
  functionDefinition : Progresses (functionDefinition inner limit)
  classMember : Progresses (classMember inner limit)
  classDefinition : Progresses (classDefinition inner limit)
  returnStatement : Progresses (returnStatement limit)
  elseIf : Progresses (elseIf inner limit)
  ifStatement : Progresses (ifStatement inner limit)
  whileStatement : Progresses (whileStatement inner limit)
  loopVariable : Progresses loopVariable
  forStatement : Progresses (forStatement inner limit)
  wordStatement : ∀ word s, Progresses (wordStatement word s)
  assertStatement : Progresses (assertStatement limit)
  declaration : Progresses (declaration limit)
  assignment : Progresses (assignment limit)
  expressionStatement : Progresses (expressionStatement limit)

theorem statementProgress {inner : Reader Block} (h : Progresses inner) (limit : Nat) :
    StatementProgress inner limit := by
  have hn : 0 ≤ limit := Nat.zero_le limit
  have h : Settled true 0 inner inner := settled_of_progresses h
  exact {
    line := (line_settled h hn hn).progresses
    block := (block_settled h hn hn).progresses
    headedBlock := (headedBlock_settled h hn hn).progresses
    functionDefinition := (functionDefinition_settled h hn hn).progresses
    classMember := (classMember_settled h hn hn).progresses
    classDefinition := (classDefinition_settled h hn hn).progresses
    returnStatement := (returnStatement_settled hn hn).progresses
    elseIf := (elseIf_settled h hn hn).progresses
    ifStatement := (ifStatement_settled h hn hn).progresses
    whileStatement := (whileStatement_settled h hn hn).progresses
    loopVariable := (loopVariable_settled (n := 0)).progresses
    forStatement := (forStatement_settled h hn hn).progresses
    wordStatement := fun _ _ => (wordStatement_settled (n := 0)).progresses
    assertStatement := (assertStatement_settled hn hn).progresses
    declaration := (declaration_settled hn hn).progresses
    assignment := (assignment_settled hn hn).progresses
    expressionStatement := (expressionStatement_settled hn hn).progresses }

/-- What these readers leave may be all of what they were given. -/
structure LenientProgress (inner : Reader Block) (limit : Nat) : Prop where
  statements : LeavesSuffix (statements inner limit) ∧ MayStay (statements inner limit)
  separated : ∀ {α : Type} {item : Reader α} (missing : SyntaxErrorKind), Progresses item →
    LeavesSuffix (separated missing limit item) ∧
      (item [] [] = .absent → MayStay (separated missing limit item))
  parameters : LeavesSuffix (parameters limit) ∧ MayStay (parameters limit)
  skipNewlines : LeavesSuffix skipNewlines ∧ MayStay skipNewlines

theorem separated_stays {α : Type} {item : Reader α} {missing : SyntaxErrorKind} {limit : Nat}
    (h : item [] [] = .absent) : MayStay (separated missing limit item) :=
  ⟨[], [], [], orElse_eq_read.mpr (Or.inr ⟨bind_of_absent h, rfl⟩)⟩

theorem lenientProgress (depth limit : Nat) : LenientProgress (statement depth) limit := by
  have hn : 0 ≤ limit := Nat.zero_le limit
  have hstatement : Settled true 0 (statement depth) (statement depth) :=
    statement_settled (Nat.zero_le depth) (Nat.zero_le depth)
  have hnone : nextLine (statement depth) [] [] = .absent :=
    (nextLine_eq_absent (certain_statement depth)).mpr rfl
  refine ⟨⟨(statements_settled hstatement hn hn).suffix, [], [], [], ?_⟩, ?_,
    ⟨(parameters_settled hn hn).suffix, separated_stays rfl⟩,
    ⟨(Settled.skipNewlines (n := 0)).suffix, [], [], (), rfl⟩⟩
  · exact (bind_of_read (many_eq_nil hnone)).trans rfl
  · intro α item missing hitem
    exact ⟨((settled_of_progresses hitem).separated hn hn).suffix, separated_stays⟩

/-! ## Recursion -/

/-- The reader on less than `n` tokens, and some other reader on more. -/
def below {α : Type} (n : Nat) (r other : Reader α) : Reader α := fun context tokens =>
  if tokens.length < n then r context tokens else other context tokens

/-- Of the reader for nested constructs only what it does with fewer tokens than there are matters:
it is never given as many. -/
def Descends {α : Type} (limit : Nat) (whole : Reader α → Reader α) (inner : Reader α) : Prop :=
  ∀ ⦃other context tokens⦄, tokens.length < limit →
    whole (below tokens.length inner other) context tokens = whole inner context tokens

/-- No limit above the number of tokens is reached: the outcome is the same with all of them. -/
def Unlimited {α : Type} (readers : Nat → Reader α) : Prop :=
  ∀ ⦃context tokens limit limit'⦄, tokens.length < limit → tokens.length < limit' →
    readers limit context tokens = readers limit' context tokens

theorem settled_below {α : Type} {r : Reader α} (other : Reader α) (h : Progresses r) :
    Settled true n r (below n r other) where
  same _ _ hlength := (if_pos hlength).symm
  suffix _ _ _ _ hread := (h hread).1
  shorter _ := h

theorem expression_progresses (depth : Nat) : Progresses (expression depth) :=
  (expression_settled (Nat.zero_le depth) (Nat.zero_le depth)).progresses

theorem statement_progresses (depth : Nat) : Progresses (statement depth) :=
  (statement_settled (Nat.zero_le depth) (Nat.zero_le depth)).progresses

theorem comparison_descends (depth limit : Nat) :
    Descends limit (fun inner => comparison inner limit) (expression depth) := by
  intro other context tokens hlength
  have hinner : Settled true (tokens.length + 1 - 1) (expression depth)
      (below tokens.length (expression depth) other) :=
    settled_below other (expression_progresses depth)
  exact ((comparison_settled hinner hlength hlength).same (Nat.lt_succ_self _)).symm

theorem line_descends (depth limit : Nat) :
    Descends limit (fun inner => line inner limit) (statement depth) := by
  intro other context tokens hlength
  have hinner : Settled true (tokens.length + 1 - 1) (statement depth)
      (below tokens.length (statement depth) other) :=
    settled_below other (statement_progresses depth)
  exact ((line_settled hinner hlength hlength).same (Nat.lt_succ_self _)).symm

theorem unlimited_of_settled {α : Type} {strict : Bool} {readers : Nat → Reader α}
    (h : ∀ {n limit limit'}, n ≤ limit → n ≤ limit' →
      Settled strict n (readers limit) (readers limit')) : Unlimited readers :=
  fun _ tokens _ _ hlimit hlimit' => (h hlimit hlimit').same (Nat.lt_succ_self tokens.length)

/-- The front end always makes progress. A step of the lexer takes a byte, or ends the start of a
line without which the next step takes one, and so does a step of the cursor, so that the steps
through any text come to an end. A reader that reads its construct leaves a suffix of the tokens,
and a shorter one but for statements, lists, parameters and empty lines, which may be none. So
nested constructs are read from fewer tokens, and no limit above the number of tokens is reached,
whatever the tokens are. -/
theorem front_end_progresses :
    (∀ s s', Lexer.StepsTo s s' → Lexer.MovesOn s s') ∧
    (∀ s mid s', Lexer.StepsTo s mid → Lexer.StepsTo mid s' →
      Text.byteSize s'.1.rest < Text.byteSize s.1.rest) ∧
    (∀ c next, Cursor.StepsTo c next → c.MovesOn next) ∧
    (∀ c mid next, Cursor.StepsTo c mid → mid.StepsTo next → next.bytes < c.bytes) ∧
    (∀ text : String, ∃ n ts last outcome, n ≤ 2 * text.length + 1 ∧
      Cursor.Iterates n (Cursor.ofText text.toList) ts last ∧ last.Stops outcome ∧
      tokens text = outcome.map (ts ++ ·)) ∧
    (∀ depth limit, Progresses (statement depth) ∧ Progresses (expression depth) ∧
      StatementProgress (statement depth) limit ∧ ExpressionProgress (expression depth) limit ∧
      LenientProgress (statement depth) limit ∧
      Descends limit (fun inner => line inner limit) (statement depth) ∧
      Descends limit (fun inner => comparison inner limit) (expression depth)) ∧
    Unlimited expression ∧ Unlimited statement ∧ Unlimited program := by
  refine ⟨fun _ _ => Lexer.StepsTo.movesOn, fun _ _ _ => Lexer.byteSize_lt_of_twice,
    fun _ _ => Cursor.StepsTo.movesOn, fun _ _ _ => Cursor.bytes_lt_of_twice, tokens_end,
    fun depth limit => ?_, ?_, ?_, ?_⟩
  · exact ⟨statement_progresses depth, expression_progresses depth,
      statementProgress (statement_progresses depth) limit,
      expressionProgress (expression_progresses depth) limit, lenientProgress depth limit,
      line_descends depth limit, comparison_descends depth limit⟩
  · exact unlimited_of_settled expression_settled
  · exact unlimited_of_settled statement_settled
  · exact unlimited_of_settled program_settled

/-- The first step of a text that begins with a word takes nothing, and the next one the word. -/
theorem front_end_progresses_word :
    (Cursor.ofText ['a']).MovesOn ⟨['a'], .start, 0, [], false⟩ ∧
    Cursor.bytes ⟨[], ⟨1, 2⟩, 0, [], false⟩ < (Cursor.ofText ['a']).bytes := by
  have hstart : (Cursor.ofText ['a']).StepsTo ⟨['a'], .start, 0, [], false⟩ :=
    ⟨'a', [], [], rfl, rfl⟩
  have hword : Cursor.StepsTo ⟨['a'], .start, 0, [], false⟩ ⟨[], ⟨1, 2⟩, 0, [], false⟩ :=
    ⟨'a', [], [⟨.name, .name "a", "a", .start⟩], rfl, by rfl⟩
  exact ⟨front_end_progresses.2.2.1 _ _ hstart, front_end_progresses.2.2.2.1 _ _ _ hstart hword⟩

end Grammar

end Offside
