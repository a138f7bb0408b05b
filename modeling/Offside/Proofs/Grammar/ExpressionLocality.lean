import Offside.Proofs.Grammar.Locality

/-!
# How far the readers of expressions look

No reader of expressions looks further than one token past its own. An argument does as well, though
it begins with a name that may be of either sort: what tells them apart is the token after the name,
and an expression that begins with a name looks at it anyway.
-/

namespace Offside.Grammar

open Reader
open Terminal (ofToken word)

/-! ## Expressions -/

section Operands

variable {ι α : Type} {size : ι → Nat} {i : ι} {found : Bool} {readers : ι → Reader Expr}

theorem required_local (h : Local false size readers i) :
    Local found size (fun i => required (readers i)) i :=
  h.commit

theorem atom_local : Local false size (fun _ => token atom?) i := by
  refine token_local ?_
  rintro ⟨kind, value, _, _⟩ ⟨kind', value', _, _⟩ h
  obtain ⟨rfl, rfl⟩ := Terminal.mk.inj h
  rfl

end Operands

section Expressions

variable {depth : Nat} (h : Local false (fun d => d) expression depth)
include h

theorem list_local : Local false (fun d => d + 1) (fun d => list (expression d) (d + 1)) depth :=
  .after <| .within <| (h.separated fun d => Nat.le_succ d).bind fun _ =>
    require_local.bind fun _ => pure_local

theorem dictionaryEntry_local :
    Local false (fun d => d) (fun d => dictionaryEntry (expression d)) depth :=
  h.bind fun _ => require_local.bind fun _ => (required_local h).bind fun _ => pure_local

theorem dictionary_local :
    Local false (fun d => d + 1) (fun d => dictionary (expression d) (d + 1)) depth :=
  .after <| .within <| ((dictionaryEntry_local h).separated fun d => Nat.le_succ d).bind fun _ =>
    require_local.bind fun _ => pure_local

theorem parenthesized_local :
    Local false (fun d => d + 1) (fun d => parenthesized (expression d)) depth :=
  .after <| .within <| (required_local h).bind fun _ => require_local.bind fun _ => pure_local

theorem primary_local :
    Local false (fun d => d + 1) (fun d => primary (expression d) (d + 1)) depth :=
  atom_local.orElse <| (list_local h).orElse <| (dictionary_local h).orElse (parenthesized_local h)

end Expressions

/-! ## Arguments -/

section Arguments

variable {inner : Reader Expr} {context : List Construct} {t t' : Token} {tokens : List Token}
  {n : String}

/-- A name before the sign of an assignment. -/
def beginsKeyword : List Token → Bool
  | t :: t' :: _ => (nameOf? t).isSome && t'.kind = .assign
  | _ => false

theorem beginsKeyword_eq_true (h : beginsKeyword tokens = true) :
    ∃ t t' rest n, tokens = t :: t' :: rest ∧ t.value = .name n ∧ t'.kind = .assign := by
  unfold beginsKeyword at h
  split at h
  · obtain ⟨hname, ht'⟩ := Bool.and_eq_true_iff.mp h
    obtain ⟨n, hn⟩ := Option.isSome_iff_exists.mp hname
    exact ⟨_, _, _, n, rfl, nameOf?_eq_some.mp hn, of_decide_eq_true ht'⟩
  · cases h

theorem beginsKeyword_eq_false (h : tokens.head?.bind nameOf? = none) :
    beginsKeyword tokens = false := by
  unfold beginsKeyword
  split
  · rename_i t t' rest
    have ht : nameOf? t = none := h
    simp [ht]
  · rfl

theorem Alike.head_name {tokens' : List Token} (h : Alike 1 tokens tokens') :
    tokens.head?.bind nameOf? = tokens'.head?.bind nameOf? := by
  apply h.congr_head
  intro t t' _ _ hhead
  have hvalue : t.value = t'.value := congrArg Terminal.value hhead
  simp only [List.head?_cons, Option.bind_some, nameOf?, hvalue]

theorem Alike.beginsKeyword_eq {tokens' : List Token} (h : Alike 2 tokens tokens') :
    beginsKeyword tokens = beginsKeyword tokens' := by
  cases tokens with
  | nil => rw [alike_nil.mp h]
  | cons t rest =>
    obtain ⟨t', rest', rfl, hhead, htail⟩ := alike_cons.mp h
    cases rest with
    | nil => rw [alike_nil.mp htail]; rfl
    | cons u rest =>
      obtain ⟨u', rest'', rfl, hhead', -⟩ := alike_cons.mp htail
      have hvalue : t.value = t'.value := congrArg Terminal.value hhead
      have hkind : u.kind = u'.kind := congrArg Terminal.kind hhead'
      simp only [beginsKeyword, nameOf?, hvalue, hkind]

theorem argument_keyword (ht : t.value = .name n) (ht' : t'.kind = .assign) :
    argument inner context (t :: t' :: tokens) =
      (Argument.keyword n <$> required inner) context tokens := by
  have hname : identifier context (t :: t' :: tokens) = .read n (t' :: tokens) :=
    identifier_eq_read.mpr ⟨t, rfl, ht⟩
  have hassign : expect .assign context (t' :: tokens) = .read () tokens :=
    expect_eq_read.mpr ⟨t', rfl, ht'⟩
  show Reader.orElse (identifier >>= fun name => expect .assign >>= fun _ =>
    Argument.keyword name <$> required inner) (fun _ => Argument.positional <$> inner) context
      (t :: t' :: tokens) = _
  rw [Reader.orElse, bind_of_read hname, bind_of_read hassign]
  cases hread : (Argument.keyword n <$> required inner) context tokens with
  | absent => simp [required] at hread
  | _ => rfl

theorem argument_positional (h : beginsKeyword tokens = false) :
    argument inner context tokens = (Argument.positional <$> inner) context tokens := by
  have habsent : (do
      let name ← identifier
      expect .assign
      return .keyword name (← required inner) : Reader Argument) context tokens = .absent := by
    simp only [bind_eq_absent, identifier_eq_absent, identifier_eq_read, expect_eq_absent]
    cases tokens with
    | nil => exact Or.inl fun t ht => by cases ht
    | cons t rest =>
      cases hname : nameOf? t with
      | none => exact Or.inl fun t' ht' => by rwa [← Option.some.inj ht']
      | some n =>
        refine Or.inr ⟨n, rest, ⟨t, rfl, nameOf?_eq_some.mp hname⟩, Or.inl fun t' ht' => ?_⟩
        cases rest with
        | nil => cases ht'
        | cons u rest =>
          obtain rfl : u = t' := Option.some.inj ht'
          simpa [beginsKeyword, hname] using h
  show Reader.orElse _ (fun _ => Argument.positional <$> inner) context tokens = _
  rw [Reader.orElse, habsent]

def assignSign : Token := ⟨.assign, .none, "=", ⟨1, 1⟩⟩

/-- An outcome that a name alone tells is the one with the sign of an assignment after the name. -/
theorem outcome_of_repeats {outcome : List Token → Reading Argument}
    (hagree : AllAgree (t :: tokens)) (ht : t.value = .name n)
    (hrepeats : Repeats (fun d => d) (fun d => Argument.positional <$> expression d) context
      (t :: tokens) 1 outcome) :
    outcome [t, assignSign] = .read (.positional (.name n)) [assignSign] := by
  have hname : ofToken t = .name n := ofToken_eq_name (allAgree_cons.mp hagree).1 ht
  have hkind : t.kind = .name := congrArg Terminal.kind hname
  have hboth : AllAgree [t, assignSign] := by
    simpa [AllAgree] using ⟨(allAgree_cons.mp hagree).1, rfl⟩
  rw [← @hrepeats 3 _ hboth (by simp) (alike_cons_cons.mpr ⟨rfl, rfl⟩)]
  exact map_eq_read.mpr ⟨_, expression_name_assign ht (by simp [sign?, hkind]) rfl, rfl⟩

variable {depth : Nat} (h : Local false (fun d => d) expression depth)
include h

theorem keyword_local (hlength : (t :: t' :: tokens).length < depth)
    (hagree : AllAgree (t :: t' :: tokens)) (ht : t.value = .name n) (ht' : t'.kind = .assign) :
    Decided (fun d => d) (fun d => argument (expression d)) false context (t :: t' :: tokens)
      (argument (expression depth) context (t :: t' :: tokens)) := by
  have hvalue : Local true (fun d => d) (fun d => Argument.keyword n <$> required (expression d))
      depth := (required_local h).map
  have hshorter : tokens.length < depth := by
    simp only [List.length_cons] at hlength
    omega
  rw [argument_keyword ht ht']
  simp only [allAgree_cons] at hagree
  refine (hvalue hagree.2.2 hshorter).shift (k := 2) (fun d => d) (Or.inl rfl) ?_
  intro d tokens' _ hlength' halike
  obtain ⟨u, rest', rfl, hu, halike⟩ := alike_cons.mp halike
  obtain ⟨u', rest', rfl, hu', -⟩ := alike_cons.mp halike
  refine ⟨Nat.lt_of_succ_lt (Nat.lt_of_succ_lt hlength'), argument_keyword ?_ ?_⟩
  · exact (congrArg Terminal.value hu).symm.trans ht
  · exact (congrArg Terminal.kind hu').symm.trans ht'

theorem positional_local (hlength : tokens.length < depth) (hagree : AllAgree tokens)
    (hkey : beginsKeyword tokens = false) :
    Decided (fun d => d) (fun d => argument (expression d)) false context tokens
      (argument (expression depth) context tokens) := by
  have hvalue : Local false (fun d => d) (fun d => Argument.positional <$> expression d) depth :=
    h.map
  have hother {m : Nat} {outcome : List Token → Reading Argument}
      (hrepeats : Repeats (fun d => d) (fun d => Argument.positional <$> expression d) context
        tokens (m + 2) outcome) :
      Repeats (fun d => d) (fun d => argument (expression d)) context tokens (m + 2) outcome := by
    intro d tokens' ha hl halike
    have hkey' := (halike.mono (Nat.le_add_left 2 m)).beginsKeyword_eq.symm.trans hkey
    exact (argument_positional hkey').trans (hrepeats ha hl halike)
  have hdecided : Decided (fun d => d) (fun d => Argument.positional <$> expression d) false context
      tokens ((Argument.positional <$> expression depth) context tokens) := hvalue hagree hlength
  rw [argument_positional hkey]
  cases hname : tokens.head?.bind nameOf? with
  | none =>
    -- the first token tells that no name stands here
    refine hdecided.shift (k := 0) (fun d => d) (Or.inr ⟨rfl, rfl⟩) ?_
    intro d tokens' _ hlength' halike
    refine ⟨hlength', argument_positional (beginsKeyword_eq_false ?_)⟩
    rw [← halike.head_name, hname]
  | some n =>
    obtain ⟨t, rest, rfl, ht⟩ : ∃ t rest, tokens = t :: rest ∧ t.value = .name n := by
      cases tokens with
      | nil => cases hname
      | cons t rest => exact ⟨t, rest, rfl, nameOf?_eq_some.mp hname⟩
    generalize (Argument.positional <$> expression depth) context (t :: rest) = reading at hdecided
    cases hdecided with
    | read k hrepeats =>
      cases k with
      | zero => cases outcome_of_repeats hagree ht hrepeats
      | succ k => exact .read (k + 1) (hother hrepeats)
    | absent _ hrepeats => cases outcome_of_repeats hagree ht hrepeats
    | broken k hrepeats =>
      cases k with
      | zero => cases outcome_of_repeats hagree ht hrepeats
      | succ k => exact .broken (k + 1) (hother hrepeats)
    | elsewhere he => exact .elsewhere he

theorem argument_local : Local false (fun d => d) (fun d => argument (expression d)) depth := by
  intro context tokens hagree hlength
  cases hkey : beginsKeyword tokens with
  | true =>
    obtain ⟨t, t', rest, n, rfl, ht, ht'⟩ := beginsKeyword_eq_true hkey
    exact keyword_local h hlength hagree ht ht'
  | false => exact positional_local h hlength hagree hkey

end Arguments

/-! ## What follows an operand -/

section Expressions

variable {depth : Nat} (h : Local false (fun d => d) expression depth)
include h

theorem callSuffix_local :
    Local false (fun d => d + 1) (fun d => callSuffix (expression d) (d + 1)) depth := by
  refine .after <| .within <|
    ((argument_local h).separated fun d => Nat.le_succ d).bind_here fun arguments => ?_
  by_cases horder : Argument.inOrder arguments
  · refine Or.inr ⟨_, require_local.bind fun _ => pure_local, fun _ _ => if_pos horder⟩
  · exact Or.inl ⟨.positionalAfterKeyword, rfl, fun _ _ => if_neg horder⟩

omit h in
theorem memberSuffix_local : Local false (fun d => d + 1) (fun _ => memberSuffix) depth :=
  expect_local.bind fun _ => requireIdentifier_local.bind fun _ => pure_local

theorem indexSuffix_local :
    Local false (fun d => d + 1) (fun d => indexSuffix (expression d)) depth :=
  .after <| .within <| (required_local h).bind fun _ => require_local.bind fun _ => pure_local

theorem suffix_local :
    Local false (fun d => d + 1) (fun d => suffix (expression d) (d + 1)) depth :=
  (callSuffix_local h).orElse <| memberSuffix_local.orElse (indexSuffix_local h)

theorem postfixed_local :
    Local false (fun d => d + 1) (fun d => postfixed (expression d) (d + 1)) depth := by
  have hsuffix : Advances (depth + 1) (suffix (expression depth) (depth + 1)) :=
    (suffix_follows (expression_follows depth)).advances fun _ => nofun
  exact (primary_local h).bind fun _ =>
    ((suffix_local h).many hsuffix fun _ => Nat.le_refl _).bind fun _ => pure_local

end Expressions

/-! ## Operators -/

section Operators

variable {ι : Type} {size : ι → Nat} {i : ι} {operator? : Token → Option Operator}
  {operand : ι → Reader Expr} {limit : ι → Nat}

theorem link_local (hop : ∀ {t t'}, ofToken t = ofToken t' → operator? t = operator? t')
    (h : Local false size operand i) : Local false size (fun i => link operator? (operand i)) i :=
  (token_local hop).bind fun _ => (required_local h).bind fun _ => pure_local

theorem leftGrouped_local (hop : ∀ {t t'}, ofToken t = ofToken t' → operator? t = operator? t')
    (h : Local false size operand i) (hlimit : ∀ i, size i ≤ limit i) :
    Local false size (fun i => leftGrouped operator? (operand i) (limit i)) i := by
  have hlink : Advances (size i) (link operator? (operand i)) :=
    Local.advances (f := fun op i => do return (op, ← required (operand i))) fun _ =>
      (required_local h).bind fun _ => pure_local
  exact h.bind fun _ => ((link_local hop h).many hlink hlimit).bind fun _ => pure_local

theorem comparisonLink_local (h : Local false size operand i) :
    Local false size (fun i => comparisonLink (operand i)) i := by
  refine (token_local ?_).bind fun _ => .within <| (required_local h).bind fun _ => pure_local
  intro t t' heq
  simp only [comparison?, show t.kind = t'.kind from congrArg Terminal.kind heq]

end Operators

section Signs

variable {inner : Reader Expr} {limit : Nat} {context : List Construct} {tokens : List Token}

def beginsSigned (tokens : List Token) : Bool := tokens.head?.any fun t => (sign? t).isSome

theorem Alike.beginsSigned_eq {tokens' : List Token} (h : Alike 1 tokens tokens') :
    beginsSigned tokens = beginsSigned tokens' := by
  apply h.congr_head
  intro t t' _ _ hhead
  simp [beginsSigned, sign?, show t.kind = t'.kind from congrArg Terminal.kind hhead]

/-- An operand that some signs stand before. -/
def signed (inner : Reader Expr) (limit : Nat) : Reader Expr := do
  let signs ← many (token sign?) limit
  return signs.foldr Sign.apply (← required (postfixed inner limit))

theorem unary_signed (h : beginsSigned tokens = true) :
    unary inner (limit + 1) context tokens = signed inner (limit + 1) context tokens := by
  unfold unary signed
  cases hsigns : many (token sign?) (limit + 1) context tokens with
  | absent => exact absurd hsigns many_ne_absent
  | broken e => rw [bind_of_broken hsigns, bind_of_broken hsigns]
  | read signs mid =>
    rw [bind_of_read hsigns, bind_of_read hsigns]
    cases signs with
    | cons s signs => rfl
    | nil =>
      obtain ⟨t, rest, rfl, ht⟩ : ∃ t rest, tokens = t :: rest ∧ sign? t ≠ none := by
        cases tokens with
        | nil => cases h
        | cons t rest => exact ⟨t, rest, rfl, Option.isSome_iff_ne_none.mp h⟩
      simp [many_succ, ht] at hsigns

theorem unary_unsigned (h : beginsSigned tokens = false) :
    unary inner limit context tokens = postfixed inner limit context tokens := by
  have hsigns : many (token sign?) limit context tokens = .read [] tokens := by
    refine many_eq_nil (token_eq_absent.mpr fun t ht => ?_)
    simpa [beginsSigned, Option.mem_def.mp ht] using h
  exact bind_of_read hsigns

end Signs

section Expressions

variable {depth : Nat} (h : Local false (fun d => d) expression depth)
include h

theorem unary_local :
    Local false (fun d => d + 1) (fun d => unary (expression d) (d + 1)) depth := by
  have hsign : Local false (fun d => d + 1) (fun _ => token sign?) depth := by
    refine token_local ?_
    intro t t' heq
    simp only [sign?, show t.kind = t'.kind from congrArg Terminal.kind heq]
  have hsigned : Local true (fun d => d + 1) (fun d => signed (expression d) (d + 1)) depth :=
    (hsign.many advances_token fun _ => Nat.le_refl _).bind fun _ =>
      (required_local (postfixed_local h)).bind fun _ => pure_local
  refine Local.choose Alike.beginsSigned_eq ?_ hsigned.weaken (postfixed_local h)
  intro d context tokens
  cases hbegins : beginsSigned tokens with
  | true => exact unary_signed hbegins
  | false => exact unary_unsigned hbegins

theorem multiplicative_local :
    Local false (fun d => d + 1) (fun d => multiplicative (expression d) (d + 1)) depth := by
  refine leftGrouped_local ?_ (unary_local h) fun _ => Nat.le_refl _
  intro t t' heq
  simp only [product?, show t.kind = t'.kind from congrArg Terminal.kind heq]

theorem additive_local :
    Local false (fun d => d + 1) (fun d => additive (expression d) (d + 1)) depth := by
  refine leftGrouped_local ?_ (multiplicative_local h) fun _ => Nat.le_refl _
  intro t t' heq
  simp only [sum?, show t.kind = t'.kind from congrArg Terminal.kind heq]

theorem comparison_local :
    Local false (fun d => d + 1) (fun d => comparison (expression d) (d + 1)) depth := by
  have hlink : Advances (depth + 1) (comparisonLink (additive (expression depth) (depth + 1))) :=
    (comparisonLink_follows (additive_follows (expression_follows depth))).advances fun _ => nofun
  exact (additive_local h).bind fun _ => ((comparisonLink_local (additive_local h)).many hlink
    fun _ => Nat.le_refl _).bind fun _ => pure_local

end Expressions

theorem expression_local (depth : Nat) : Local false (fun d => d) expression depth := by
  induction depth with
  | zero =>
    intro context tokens _ hlength
    exact absurd hlength (Nat.not_lt_zero _)
  | succ depth ih => exact (comparison_local ih).of_succ

end Offside.Grammar
