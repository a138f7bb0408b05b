import Offside.Proofs.Grammar.Reading
import Offside.Proofs.Grammar.Rules

/-!
# What the next token tells

The first token of an expression is one of a few, and so is a token that takes an operand further.
Before any other token the readers of expressions find nothing, or stop.
-/

namespace Offside.Grammar

open Reader
open Terminal (ofToken word name)

/-! ## Tokens that take an operand further -/

/-- How tightly what begins with a token of the kind binds to the operand before it: a suffix, a
product, a sum or a comparison. Any other token ends the operand. -/
def strength : TokenKind → Nat
  | .openParen | .period | .openBracket => 4
  | .star | .slash => 3
  | .plus | .minus => 2
  | .equal | .notEqual | .greater | .greaterEqual | .less | .lessEqual => 1
  | _ => 0

/-- The next token binds less tightly than the bound. -/
def Stops (bound : Nat) (tokens : List Token) : Prop :=
  ∀ t ∈ tokens.head?, strength t.kind < bound

@[simp] theorem stops_cons {bound : Nat} {t : Token} {tokens : List Token} :
    Stops bound (t :: tokens) ↔ strength t.kind < bound := by
  simp [Stops]

theorem Stops.mono {bound bound' : Nat} {tokens : List Token} (h : Stops bound tokens)
    (hle : bound ≤ bound') : Stops bound' tokens :=
  fun t ht => Nat.lt_of_lt_of_le (h t ht) hle

variable {inner : Reader Expr} {limit depth : Nat} {context : List Construct}
  {tokens : List Token} {t : Token}

theorem token_absent {α : Type} {test : Token → Option α} (h : test t = none) :
    token test context (t :: tokens) = .absent := by
  simp [h]

theorem suffix_absent (h : Stops 4 tokens) : suffix inner limit context tokens = .absent := by
  have hne : ∀ kind : TokenKind, strength kind = 4 → ∀ t ∈ tokens.head?, t.kind ≠ kind := by
    rintro kind hkind t ht rfl
    have := h t ht
    omega
  simp only [suffix, callSuffix, memberSuffix, indexSuffix, orElse_eq_absent, bind_eq_absent,
    expect_eq_absent]
  exact ⟨Or.inl (hne _ rfl), Or.inl (hne _ rfl), Or.inl (hne _ rfl)⟩

theorem productLink_absent {operand : Reader Expr} (h : Stops 3 tokens) :
    link product? operand context tokens = .absent := by
  simp only [link, bind_eq_absent, token_eq_absent]
  refine Or.inl fun t ht => ?_
  have := h t ht
  unfold product?
  cases hkind : t.kind <;> simp_all [strength]

theorem sumLink_absent {operand : Reader Expr} (h : Stops 2 tokens) :
    link sum? operand context tokens = .absent := by
  simp only [link, bind_eq_absent, token_eq_absent]
  refine Or.inl fun t ht => ?_
  have := h t ht
  unfold sum?
  cases hkind : t.kind <;> simp_all [strength]

theorem comparisonLink_absent {operand : Reader Expr} (h : Stops 1 tokens) :
    comparisonLink operand context tokens = .absent := by
  simp only [comparisonLink, bind_eq_absent, token_eq_absent]
  refine Or.inl fun t ht => ?_
  have := h t ht
  unfold comparison?
  cases hkind : t.kind <;> simp_all [strength]

/-! ## Tokens that an expression begins with -/

def opensExpression : TokenKind → Bool
  | .name | .int | .float | .string | .trueWord | .falseWord | .nullWord => true
  | .openBracket | .openBrace | .openParen | .not | .minus => true
  | _ => false

/-- The phrases that are operands, and those that begin with one. -/
def Phrase.isOperand : Phrase → Prop
  | expression _ | additive _ | multiplicative _ | unary _ | postfixed _ | primary _ => True
  | _ => False

theorem derives_operand {p : Phrase} {u : List Terminal} (h : Derives p u) (hp : p.isOperand) :
    ∃ a v, u = a :: v ∧ a.Agrees ∧ opensExpression a.kind = true := by
  induction h with
  | postfixed _ _ ih | multiplicative _ _ ih | additive _ _ ih | expression _ _ ih =>
    obtain ⟨a, v, rfl, ha⟩ := ih trivial
    exact ⟨a, _, List.cons_append .., ha⟩
  | unsigned _ ih => exact ih trivial
  | nameExpression | integer | float | string => exact ⟨_, _, rfl, ⟨_, rfl⟩, rfl⟩
  | true | false | null | list | dictionary | parenthesized | not | negative =>
    exact ⟨_, _, rfl, rfl, rfl⟩
  | _ => exact hp.elim

theorem primary_absent {kind : TokenKind} (ht : ofToken t = word kind)
    (hkind : opensExpression kind = false) :
    primary inner limit context (t :: tokens) = .absent := by
  have hkind' : t.kind = kind := congrArg Terminal.kind ht
  have hvalue : t.value = .none := congrArg Terminal.value ht
  cases kind <;> simp_all [primary, list, dictionary, parenthesized, atom?, opensExpression]

theorem signs_absent (h : sign? t = none) :
    many (token sign?) limit context (t :: tokens) = .read [] (t :: tokens) :=
  many_eq_nil (token_absent h)

/-- No expression is found before a word that none begins with. -/
theorem expression_absent {kind : TokenKind} (ht : ofToken t = word kind)
    (hkind : opensExpression kind = false) :
    expression depth context (t :: tokens) = .absent := by
  cases depth with
  | zero => rfl
  | succ depth =>
    have hsign : sign? t = none := by
      have : t.kind = kind := congrArg Terminal.kind ht
      cases kind <;> simp_all [sign?, opensExpression]
    simp only [expression, comparison, additive, multiplicative, leftGrouped, unary, bind_eq_absent]
    refine Or.inl (Or.inl (Or.inl (Or.inr ⟨[], t :: tokens, signs_absent hsign, ?_⟩)))
    simp only [postfixed, bind_eq_absent]
    exact Or.inl (primary_absent ht hkind)

theorem leftGrouped_alone {operator? : Token → Option Operator} {operand : Reader Expr} {e : Expr}
    {rest : List Token} (h : operand context tokens = .read e rest)
    (hlink : link operator? operand context rest = .absent) :
    leftGrouped operator? operand limit context tokens = .read e rest := by
  simp only [leftGrouped, bind_eq_read, pure_eq_read]
  exact ⟨e, rest, h, [], rest, many_eq_nil hlink, rfl, rfl⟩

/-- A name before the sign of an assignment is an expression alone. -/
theorem expression_name_assign {n : String} {t' : Token} (hvalue : t.value = .name n)
    (hsign : sign? t = none) (ht' : t'.kind = .assign) :
    expression (depth + 1) context (t :: t' :: tokens) = .read (.name n) (t' :: tokens) := by
  have hstops : Stops 1 (t' :: tokens) := by simp [ht', strength]
  have hunary : unary (expression depth) (depth + 1) context (t :: t' :: tokens) =
      .read (.name n) (t' :: tokens) := by
    simp only [unary, bind_eq_read]
    refine ⟨[], t :: t' :: tokens, signs_absent hsign, ?_⟩
    simp only [postfixed, bind_eq_read, pure_eq_read]
    refine ⟨.name n, t' :: tokens, ?_, [], t' :: tokens, ?_, rfl, rfl⟩
    · exact orElse_eq_read.mpr (Or.inl (token_eq_read.mpr ⟨t, rfl, by simp [atom?, hvalue]⟩))
    · exact many_eq_nil (suffix_absent (hstops.mono (by decide)))
  have hproduct : multiplicative (expression depth) (depth + 1) context (t :: t' :: tokens) = _ :=
    leftGrouped_alone hunary (productLink_absent (hstops.mono (by decide)))
  have hsum : additive (expression depth) (depth + 1) context (t :: t' :: tokens) = _ :=
    leftGrouped_alone hproduct (sumLink_absent (hstops.mono (by decide)))
  simp only [expression, comparison, bind_eq_read, pure_eq_read]
  exact ⟨.name n, _, hsum, [], _, many_eq_nil (comparisonLink_absent hstops), rfl, rfl⟩

end Offside.Grammar
