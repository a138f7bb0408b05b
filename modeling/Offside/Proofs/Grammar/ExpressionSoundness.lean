import Mathlib.Data.List.Forall2
import Offside.Proofs.Grammar.Reading
import Offside.Proofs.Grammar.Rules

/-!
# Expressions that are read are derived

A reader follows the grammar when the tokens that it takes derive what it reads. Every reader of
expressions does, however far its limits let it go.
-/

namespace Offside.Grammar

open Reader
open Terminal (ofToken word)

/-! ## Tokens whose kind and value agree -/

def AllAgree (tokens : List Token) : Prop := ∀ t ∈ tokens, (ofToken t).Agrees

@[simp] theorem allAgree_cons {t : Token} {tokens : List Token} :
    AllAgree (t :: tokens) ↔ (ofToken t).Agrees ∧ AllAgree tokens := by
  simp [AllAgree]

@[simp] theorem allAgree_append {tokens rest : List Token} :
    AllAgree (tokens ++ rest) ↔ AllAgree tokens ∧ AllAgree rest := by
  simp only [AllAgree, List.mem_append]
  constructor
  · intro h
    exact ⟨fun t ht => h t (Or.inl ht), fun t ht => h t (Or.inr ht)⟩
  · rintro ⟨hl, hr⟩ t (ht | ht)
    · exact hl t ht
    · exact hr t ht

/-- Whether tokens of a kind are told by the kind alone. -/
def isWord : TokenKind → Bool
  | .name | .int | .float | .string => false
  | _ => true

theorem ofToken_eq_word {t : Token} {kind : TokenKind} (h : (ofToken t).Agrees)
    (hkind : t.kind = kind) (hword : isWord kind = true) : ofToken t = word kind := by
  obtain ⟨kind', value, lexeme, position⟩ := t
  obtain rfl : kind' = kind := hkind
  cases kind' <;> simp_all [isWord, Terminal.Agrees, ofToken, word]

theorem ofToken_eq_name {t : Token} {n : String} (h : (ofToken t).Agrees)
    (hvalue : t.value = .name n) : ofToken t = .name n := by
  obtain ⟨kind, value, lexeme, position⟩ := t
  obtain rfl : value = .name n := hvalue
  cases kind <;> simp_all [Terminal.Agrees, ofToken, Terminal.name]

/-! ## Following the grammar -/

/-- The tokens that the reader takes derive what it reads. -/
def Follows {α : Type} (r : Reader α) (φ : α → Phrase) : Prop :=
  ∀ ⦃context tokens a rest⦄, AllAgree tokens → r context tokens = .read a rest →
    ∃ used, tokens = used ++ rest ∧ Derives (φ a) (used.map ofToken)

section Combinators

variable {α β : Type} {r s : Reader α} {φ ψ : α → Phrase}

theorem Follows.within {construct : Construct} (h : Follows r φ) :
    Follows (within construct r) φ := by
  intro context tokens a rest hagree hread
  exact h hagree hread

theorem Follows.commit {kind : SyntaxErrorKind} (h : Follows r φ) :
    Follows (commit kind r) φ := by
  intro context tokens a rest hagree hread
  exact h hagree (commit_eq_read.mp hread)

theorem Follows.orElse (hr : Follows r φ) (hs : Follows s φ) : Follows (r <|> s) φ := by
  intro context tokens a rest hagree hread
  rcases orElse_eq_read.mp hread with h | ⟨-, h⟩
  · exact hr hagree h
  · exact hs hagree h

theorem Follows.mono (h : Follows r φ) (hmono : ∀ a u, Derives (φ a) u → Derives (ψ a) u) :
    Follows r ψ := by
  intro context tokens a rest hagree hread
  obtain ⟨used, rfl, hd⟩ := h hagree hread
  exact ⟨used, rfl, hmono a _ hd⟩

theorem Follows.map {f : α → β} {χ : β → Phrase} (h : Follows r fun a => χ (f a)) :
    Follows (f <$> r) χ := by
  intro context tokens b rest hagree hread
  obtain ⟨a, ha, rfl⟩ := map_eq_read.mp hread
  exact h hagree ha

theorem Follows.many (h : Follows r φ) (limit : Nat) :
    Follows (many r limit) fun as => .star (as.map φ) := by
  induction limit with
  | zero =>
    intro context tokens as rest _ hread
    obtain ⟨rfl, rfl⟩ := pure_eq_read.mp hread
    exact ⟨[], rfl, .starNil⟩
  | succ limit ih =>
    intro context tokens as rest hagree hread
    rcases many_succ_eq_read hread with ⟨rfl, rfl⟩ | ⟨a, mid, as', ha, has, rfl⟩
    · exact ⟨[], rfl, .starNil⟩
    · obtain ⟨used, rfl, hd⟩ := h hagree ha
      obtain ⟨used', rfl, hd'⟩ := ih (allAgree_append.mp hagree).2 has
      refine ⟨used ++ used', by rw [List.append_assoc], ?_⟩
      rw [List.map_append]
      exact .starCons hd hd'

/-- Items that each follow a comma are the rest of a list with commas between the items. -/
theorem derives_separated_cons {p : Phrase} {u : List Terminal} (hp : Derives p u)
    {ps : List Phrase} {us : List (List Terminal)}
    (hps : List.Forall₂ Derives ps us) :
    Derives (.separated (p :: ps)) (u ++ (us.map (word .comma :: ·)).flatten) := by
  induction hps generalizing p u with
  | nil => simpa using Derives.separatedOne hp
  | cons hq _ ih => simpa using Derives.separatedCons hp (ih hq)

theorem many_comma_eq_read (h : Follows r φ) {missing : SyntaxErrorKind} {limit : Nat}
    {context : List Construct} {tokens rest : List Token} {as : List α} (hagree : AllAgree tokens)
    (hread : Reader.many (do expect .comma; Reader.commit missing r) limit context tokens =
      .read as rest) :
    ∃ used us, tokens = used ++ rest ∧ List.Forall₂ Derives (as.map φ) us ∧
      used.map ofToken = (us.map (word .comma :: ·)).flatten := by
  induction limit generalizing tokens as with
  | zero =>
    obtain ⟨rfl, rfl⟩ := pure_eq_read.mp hread
    exact ⟨[], [], rfl, .nil, rfl⟩
  | succ limit ih =>
    rcases many_succ_eq_read hread with ⟨rfl, rfl⟩ | ⟨a, mid, as', ha, has, rfl⟩
    · exact ⟨[], [], rfl, .nil, rfl⟩
    · simp only [bind_eq_read, expect_eq_read, commit_eq_read] at ha
      obtain ⟨-, _, ⟨t, rfl, ht⟩, ha⟩ := ha
      rw [allAgree_cons] at hagree
      obtain ⟨used, rfl, hd⟩ := h hagree.2 ha
      obtain ⟨used', us, rfl, hds, hus⟩ := ih (allAgree_append.mp hagree.2).2 has
      refine ⟨t :: used ++ used', used.map ofToken :: us, by simp, .cons hd hds, ?_⟩
      simp [hus, ofToken_eq_word hagree.1 ht rfl]

theorem Follows.separated (h : Follows r φ) (missing : SyntaxErrorKind) (limit : Nat) :
    Follows (separated missing limit r) fun as => .separated (as.map φ) := by
  intro context tokens as rest hagree hread
  rcases orElse_eq_read.mp hread with hread | ⟨-, hread⟩
  · simp only [bind_eq_read, pure_eq_read] at hread
    obtain ⟨a, mid, ha, as', _, has, rfl, rfl⟩ := hread
    obtain ⟨used, rfl, hd⟩ := h hagree ha
    obtain ⟨used', us, rfl, hds, hus⟩ := many_comma_eq_read h (allAgree_append.mp hagree).2 has
    refine ⟨used ++ used', by rw [List.append_assoc], ?_⟩
    rw [List.map_append, hus]
    exact derives_separated_cons hd hds
  · obtain ⟨rfl, rfl⟩ := pure_eq_read.mp hread
    exact ⟨[], rfl, .separatedNil⟩

end Combinators

/-! ## Operands -/

section Expressions

variable {inner : Reader Expr} {limit : Nat}

theorem atom_follows : Follows (token atom?) .primary := by
  intro context tokens e rest hagree hread
  obtain ⟨t, rfl, ht⟩ := token_eq_read.mp hread
  refine ⟨[t], rfl, ?_⟩
  have hagree := (allAgree_cons.mp hagree).1
  obtain ⟨kind, value, lexeme, position⟩ := t
  cases kind <;> cases value <;> simp_all [atom?, Terminal.Agrees, ofToken]
  all_goals subst ht; constructor

theorem list_follows (hinner : Follows inner .expression) : Follows (list inner limit) .primary := by
  intro context tokens e rest hagree hread
  simp only [list, bind_eq_read, expect_eq_read, within_apply, require_eq_read, pure_eq_read] at hread
  obtain ⟨_, _, ⟨t, rfl, ht⟩, items, _, hitems, _, _, ⟨t', rfl, ht'⟩, rfl, rfl⟩ := hread
  rw [allAgree_cons] at hagree
  obtain ⟨used, rfl, hd⟩ := hinner.separated _ limit hagree.2 hitems
  simp only [allAgree_append, allAgree_cons] at hagree
  refine ⟨t :: used ++ [t'], by simp, ?_⟩
  simpa [ofToken_eq_word hagree.1 ht rfl, ofToken_eq_word hagree.2.2.1 ht' rfl] using Derives.list hd

theorem dictionaryEntry_follows (hinner : Follows inner .expression) :
    Follows (dictionaryEntry inner) .entry := by
  intro context tokens entry rest hagree hread
  simp only [dictionaryEntry, required, bind_eq_read, require_eq_read, commit_eq_read,
    pure_eq_read] at hread
  obtain ⟨key, _, hkey, _, _, ⟨t, rfl, ht⟩, value, _, hvalue, rfl, rfl⟩ := hread
  obtain ⟨used, rfl, hd⟩ := hinner hagree hkey
  simp only [allAgree_append, allAgree_cons] at hagree
  obtain ⟨used', rfl, hd'⟩ := hinner hagree.2.2 hvalue
  refine ⟨used ++ t :: used', by simp, ?_⟩
  simpa [ofToken_eq_word hagree.2.1 ht rfl] using Derives.entry hd hd'

theorem dictionary_follows (hinner : Follows inner .expression) :
    Follows (dictionary inner limit) .primary := by
  intro context tokens e rest hagree hread
  simp only [dictionary, bind_eq_read, expect_eq_read, within_apply, require_eq_read,
    pure_eq_read] at hread
  obtain ⟨_, _, ⟨t, rfl, ht⟩, entries, _, hentries, _, _, ⟨t', rfl, ht'⟩, rfl, rfl⟩ := hread
  rw [allAgree_cons] at hagree
  obtain ⟨used, rfl, hd⟩ := (dictionaryEntry_follows hinner).separated _ limit hagree.2 hentries
  simp only [allAgree_append, allAgree_cons] at hagree
  refine ⟨t :: used ++ [t'], by simp, ?_⟩
  simpa [ofToken_eq_word hagree.1 ht rfl, ofToken_eq_word hagree.2.2.1 ht' rfl] using
    Derives.dictionary hd

theorem parenthesized_follows (hinner : Follows inner .expression) :
    Follows (parenthesized inner) .primary := by
  intro context tokens e rest hagree hread
  simp only [parenthesized, required, bind_eq_read, expect_eq_read, within_apply, commit_eq_read,
    require_eq_read, pure_eq_read] at hread
  obtain ⟨_, _, ⟨t, rfl, ht⟩, e, _, he, _, _, ⟨t', rfl, ht'⟩, rfl, rfl⟩ := hread
  rw [allAgree_cons] at hagree
  obtain ⟨used, rfl, hd⟩ := hinner hagree.2 he
  simp only [allAgree_append, allAgree_cons] at hagree
  refine ⟨t :: used ++ [t'], by simp, ?_⟩
  simpa [ofToken_eq_word hagree.1 ht rfl, ofToken_eq_word hagree.2.2.1 ht' rfl] using
    Derives.parenthesized hd

theorem primary_follows (hinner : Follows inner .expression) :
    Follows (primary inner limit) .primary :=
  atom_follows.orElse <| (list_follows hinner).orElse <|
    (dictionary_follows hinner).orElse (parenthesized_follows hinner)

/-! ## What follows an operand -/

theorem argument_follows (hinner : Follows inner .expression) :
    Follows (argument inner) .argument := by
  apply Follows.orElse
  · intro context tokens a rest hagree hread
    simp only [required, bind_eq_read, identifier_eq_read, expect_eq_read, commit_eq_read,
      pure_eq_read] at hread
    obtain ⟨n, _, ⟨t, rfl, ht⟩, _, _, ⟨t', rfl, ht'⟩, e, _, he, rfl, rfl⟩ := hread
    simp only [allAgree_cons] at hagree
    obtain ⟨used, rfl, hd⟩ := hinner hagree.2.2 he
    refine ⟨t :: t' :: used, rfl, ?_⟩
    simpa [ofToken_eq_name hagree.1 ht, ofToken_eq_word hagree.2.1 ht' rfl] using Derives.keyword hd
  · exact Follows.map (hinner.mono fun _ _ => Derives.positional)

/-- Arguments in order are positional ones and then keyword ones. -/
theorem arguments_eq_of_inOrder {arguments : List Argument}
    (h : Argument.inOrder arguments = true) :
    arguments = (arguments.filterMap Argument.positional?).map Argument.positional ++
      (arguments.filterMap Argument.keyword?).map fun k => Argument.keyword k.1 k.2 := by
  induction arguments with
  | nil => rfl
  | cons a rest ih =>
    cases a with
    | positional e =>
      have horder : Argument.inOrder rest = true := by
        simpa [Argument.inOrder, Argument.isKeyword] using h
      simpa [List.filterMap_cons, Argument.positional?, Argument.keyword?] using ih horder
    | keyword n e =>
      have hall : ∀ a ∈ rest, a.isKeyword = true := by
        simpa [Argument.inOrder, Argument.isKeyword] using h
      have hpositional : rest.filterMap Argument.positional? = [] := by
        rw [List.filterMap_eq_nil_iff]
        intro a ha
        cases a with
        | positional e => exact absurd (hall _ ha) (by simp [Argument.isKeyword])
        | keyword n e => rfl
      have horder : Argument.inOrder rest = true := by
        rw [Argument.inOrder, List.all_eq_true]
        exact fun a ha => hall a ((List.dropWhile_sublist _).subset ha)
      have hrest := ih horder
      rw [hpositional] at hrest
      simpa [List.filterMap_cons, Argument.positional?, Argument.keyword?, hpositional] using hrest

theorem callSuffix_follows (hinner : Follows inner .expression) :
    Follows (callSuffix inner limit) .suffix := by
  intro context tokens s rest hagree hread
  simp only [callSuffix, bind_eq_read, expect_eq_read, within_apply, here_eq_read] at hread
  obtain ⟨_, _, ⟨t, rfl, ht⟩, _, _, ⟨rfl, rfl⟩, arguments, _, harguments, hread⟩ := hread
  split at hread
  · rename_i horder
    simp only [bind_eq_read, require_eq_read, pure_eq_read] at hread
    obtain ⟨_, _, ⟨t', rfl, ht'⟩, rfl, rfl⟩ := hread
    rw [allAgree_cons] at hagree
    obtain ⟨used, rfl, hd⟩ := (argument_follows hinner).separated _ limit hagree.2 harguments
    simp only [allAgree_append, allAgree_cons] at hagree
    refine ⟨t :: used ++ [t'], by simp, ?_⟩
    rw [arguments_eq_of_inOrder horder] at hd
    simp only [List.map_append, List.map_map] at hd
    simpa [ofToken_eq_word hagree.1 ht rfl, ofToken_eq_word hagree.2.2.1 ht' rfl] using
      Derives.call hd
  · exact absurd hread breakAt_ne_read

theorem memberSuffix_follows : Follows memberSuffix .suffix := by
  intro context tokens s rest hagree hread
  simp only [memberSuffix, bind_eq_read, expect_eq_read, requireIdentifier_eq_read,
    pure_eq_read] at hread
  obtain ⟨_, _, ⟨t, rfl, ht⟩, n, _, ⟨t', rfl, ht'⟩, rfl, rfl⟩ := hread
  simp only [allAgree_cons] at hagree
  refine ⟨[t, t'], rfl, ?_⟩
  simpa [ofToken_eq_word hagree.1 ht rfl, ofToken_eq_name hagree.2.1 ht'] using Derives.member n

theorem indexSuffix_follows (hinner : Follows inner .expression) :
    Follows (indexSuffix inner) .suffix := by
  intro context tokens s rest hagree hread
  simp only [indexSuffix, required, bind_eq_read, expect_eq_read, within_apply, commit_eq_read,
    require_eq_read, pure_eq_read] at hread
  obtain ⟨_, _, ⟨t, rfl, ht⟩, key, _, hkey, _, _, ⟨t', rfl, ht'⟩, rfl, rfl⟩ := hread
  rw [allAgree_cons] at hagree
  obtain ⟨used, rfl, hd⟩ := hinner hagree.2 hkey
  simp only [allAgree_append, allAgree_cons] at hagree
  refine ⟨t :: used ++ [t'], by simp, ?_⟩
  simpa [ofToken_eq_word hagree.1 ht rfl, ofToken_eq_word hagree.2.2.1 ht' rfl] using
    Derives.index hd

theorem suffix_follows (hinner : Follows inner .expression) :
    Follows (suffix inner limit) .suffix :=
  (callSuffix_follows hinner).orElse <| memberSuffix_follows.orElse (indexSuffix_follows hinner)

theorem postfixed_follows (hinner : Follows inner .expression) :
    Follows (postfixed inner limit) .postfixed := by
  intro context tokens e rest hagree hread
  simp only [postfixed, bind_eq_read, pure_eq_read] at hread
  obtain ⟨target, _, htarget, ss, _, hss, rfl, rfl⟩ := hread
  obtain ⟨used, rfl, hd⟩ := primary_follows hinner hagree htarget
  obtain ⟨used', rfl, hd'⟩ :=
    (suffix_follows hinner).many limit (allAgree_append.mp hagree).2 hss
  refine ⟨used ++ used', by rw [List.append_assoc], ?_⟩
  rw [List.map_append]
  exact .postfixed hd hd'

/-! ## Operators -/

def Sign.kind : Sign → TokenKind
  | not => .not
  | minus => .minus

theorem sign?_eq_some {t : Token} {s : Sign} : sign? t = some s ↔ t.kind = s.kind := by
  unfold sign?
  cases s <;> cases t.kind <;> simp [Sign.kind]

theorem signs_eq_read {signs : List Sign} {context : List Construct} {tokens rest : List Token}
    (hagree : AllAgree tokens) (hread : many (token sign?) limit context tokens = .read signs rest) :
    ∃ used, tokens = used ++ rest ∧ used.map ofToken = signs.map fun s => word s.kind := by
  induction limit generalizing tokens signs with
  | zero =>
    obtain ⟨rfl, rfl⟩ := pure_eq_read.mp hread
    exact ⟨[], rfl, rfl⟩
  | succ limit ih =>
    rcases many_succ_eq_read hread with ⟨rfl, rfl⟩ | ⟨s, mid, signs', hs, hsigns, rfl⟩
    · exact ⟨[], rfl, rfl⟩
    · obtain ⟨t, rfl, ht⟩ := token_eq_read.mp hs
      rw [allAgree_cons] at hagree
      obtain ⟨used, rfl, hused⟩ := ih hagree.2 hsigns
      rw [sign?_eq_some] at ht
      refine ⟨t :: used, rfl, ?_⟩
      simp [hused, ofToken_eq_word hagree.1 ht (by cases s <;> rfl)]

theorem derives_signs {e : Expr} {u : List Terminal} (h : Derives (.unary e) u) (signs : List Sign) :
    Derives (.unary (signs.foldr Sign.apply e)) ((signs.map fun s => word s.kind) ++ u) := by
  induction signs with
  | nil => exact h
  | cons s signs ih =>
    cases s with
    | not => exact .not ih
    | minus => exact .negative ih

theorem unary_follows (hinner : Follows inner .expression) : Follows (unary inner limit) .unary := by
  intro context tokens e rest hagree hread
  simp only [unary, bind_eq_read] at hread
  obtain ⟨signs, _, hsigns, hread⟩ := hread
  obtain ⟨used, rfl, hused⟩ := signs_eq_read hagree hsigns
  have hagree := (allAgree_append.mp hagree).2
  have hfollows : Follows (postfixed inner limit) .postfixed := postfixed_follows hinner
  cases signs with
  | nil =>
    obtain ⟨used', rfl, hd⟩ := hfollows hagree hread
    refine ⟨used ++ used', by rw [List.append_assoc], ?_⟩
    rw [List.map_append, hused]
    exact .unsigned hd
  | cons s signs =>
    simp only [required, bind_eq_read, commit_eq_read, pure_eq_read] at hread
    obtain ⟨operand, _, hoperand, rfl, rfl⟩ := hread
    obtain ⟨used', rfl, hd⟩ := hfollows hagree hoperand
    refine ⟨used ++ used', by rw [List.append_assoc], ?_⟩
    rw [List.map_append, hused]
    exact derives_signs (.unsigned hd) (s :: signs)

theorem product?_eq_some {t : Token} {op : Operator} :
    product? t = some op ↔ (op = .multiply ∨ op = .divide) ∧ t.kind = operatorKind op := by
  unfold product?
  cases op <;> cases t.kind <;> simp [operatorKind]

theorem sum?_eq_some {t : Token} {op : Operator} :
    sum? t = some op ↔ (op = .add ∨ op = .subtract) ∧ t.kind = operatorKind op := by
  unfold sum?
  cases op <;> cases t.kind <;> simp [operatorKind]

theorem comparison?_eq_some {t : Token} {op : Operator} :
    comparison? t = some op ↔ op.isComparison = true ∧ t.kind = operatorKind op := by
  unfold comparison?
  cases op <;> cases t.kind <;> simp [operatorKind, Operator.isComparison]

theorem isWord_operatorKind (op : Operator) : isWord (operatorKind op) = true := by
  cases op <;> rfl

/-- A link follows the grammar when its operators are those that the phrase allows. -/
theorem link_follows {operator? : Token → Option Operator} {operand : Reader Expr}
    {allowed : Operator → Prop} {φ : Expr → Phrase} {ψ : Operator × Expr → Phrase}
    (hop : ∀ {t op}, operator? t = some op ↔ allowed op ∧ t.kind = operatorKind op)
    (hrule : ∀ {op e u}, allowed op → Derives (φ e) u →
      Derives (ψ (op, e)) (word (operatorKind op) :: u))
    (hoperand : Follows operand φ) : Follows (link operator? operand) ψ := by
  intro context tokens l rest hagree hread
  simp only [link, required, bind_eq_read, token_eq_read, commit_eq_read, pure_eq_read] at hread
  obtain ⟨op, _, ⟨t, rfl, ht⟩, e, _, he, rfl, rfl⟩ := hread
  rw [allAgree_cons] at hagree
  rw [hop] at ht
  obtain ⟨used, rfl, hd⟩ := hoperand hagree.2 he
  refine ⟨t :: used, rfl, ?_⟩
  rw [List.map_cons, ofToken_eq_word hagree.1 ht.2 (isWord_operatorKind op)]
  exact hrule ht.1 hd

theorem comparisonLink_follows {operand : Reader Expr} (hoperand : Follows operand .additive) :
    Follows (comparisonLink operand) .comparisonLink := by
  intro context tokens l rest hagree hread
  simp only [comparisonLink, required, bind_eq_read, token_eq_read, within_apply, commit_eq_read,
    pure_eq_read] at hread
  obtain ⟨op, _, ⟨t, rfl, ht⟩, e, _, he, rfl, rfl⟩ := hread
  rw [allAgree_cons] at hagree
  rw [comparison?_eq_some] at ht
  obtain ⟨used, rfl, hd⟩ := hoperand hagree.2 he
  refine ⟨t :: used, rfl, ?_⟩
  rw [List.map_cons, ofToken_eq_word hagree.1 ht.2 (isWord_operatorKind op)]
  exact .comparisonLink ht.1 hd

theorem leftGrouped_follows {operator? : Token → Option Operator} {operand : Reader Expr}
    {φ χ : Expr → Phrase} {ψ : Operator × Expr → Phrase}
    (hrule : ∀ {first others u v}, Derives (φ first) u → Derives (.star (others.map ψ)) v →
      Derives (χ (leftGroup first others)) (u ++ v))
    (hoperand : Follows operand φ) (hlink : Follows (link operator? operand) ψ) :
    Follows (leftGrouped operator? operand limit) χ := by
  intro context tokens e rest hagree hread
  simp only [leftGrouped, bind_eq_read, pure_eq_read] at hread
  obtain ⟨first, _, hfirst, others, _, hothers, rfl, rfl⟩ := hread
  obtain ⟨used, rfl, hd⟩ := hoperand hagree hfirst
  obtain ⟨used', rfl, hd'⟩ := hlink.many limit (allAgree_append.mp hagree).2 hothers
  refine ⟨used ++ used', by rw [List.append_assoc], ?_⟩
  rw [List.map_append]
  exact hrule hd hd'

theorem multiplicative_follows (hinner : Follows inner .expression) :
    Follows (multiplicative inner limit) .multiplicative :=
  leftGrouped_follows .multiplicative (unary_follows hinner)
    (link_follows product?_eq_some .productLink (unary_follows hinner))

theorem additive_follows (hinner : Follows inner .expression) :
    Follows (additive inner limit) .additive :=
  leftGrouped_follows .additive (multiplicative_follows hinner)
    (link_follows sum?_eq_some .sumLink (multiplicative_follows hinner))

theorem comparison_follows (hinner : Follows inner .expression) :
    Follows (comparison inner limit) .expression := by
  intro context tokens e rest hagree hread
  simp only [comparison, bind_eq_read, pure_eq_read] at hread
  obtain ⟨first, _, hfirst, links, _, hlinks, rfl, rfl⟩ := hread
  obtain ⟨used, rfl, hd⟩ := additive_follows hinner hagree hfirst
  obtain ⟨used', rfl, hd'⟩ :=
    (comparisonLink_follows (additive_follows hinner)).many limit (allAgree_append.mp hagree).2 hlinks
  refine ⟨used ++ used', by rw [List.append_assoc], ?_⟩
  rw [List.map_append]
  exact .expression hd hd'

end Expressions

theorem expression_follows (depth : Nat) : Follows (expression depth) .expression := by
  induction depth with
  | zero =>
    intro context tokens e rest _ hread
    simp [expression] at hread
  | succ depth ih => exact comparison_follows ih

end Offside.Grammar
