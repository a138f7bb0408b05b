import Offside.Grammar.Statement

/-!
# What readers give

One equivalence for each way to build a reader: when it reads a value, and when it finds nothing.
They run a reader forward on known tokens, and backward from a value that it has read.
-/

namespace Offside.Reader

variable {α β : Type} {context : List Construct} {tokens rest : List Token} {a : α} {b : β}

/-! ## When a value is read -/

@[simp] theorem pure_eq_read {a' : α} :
    (pure a : Reader α) context tokens = .read a' rest ↔ a = a' ∧ tokens = rest := by
  constructor
  · intro h
    cases h
    exact ⟨rfl, rfl⟩
  · rintro ⟨rfl, rfl⟩
    rfl

@[simp] theorem bind_eq_read {r : Reader α} {f : α → Reader β} :
    (r >>= f) context tokens = .read b rest ↔
      ∃ a mid, r context tokens = .read a mid ∧ f a context mid = .read b rest := by
  show Reader.bind r f context tokens = _ ↔ _
  unfold Reader.bind
  cases r context tokens <;> simp [and_assoc]

@[simp] theorem map_eq_read {r : Reader α} {f : α → β} :
    (f <$> r) context tokens = .read b rest ↔ ∃ a, r context tokens = .read a rest ∧ f a = b := by
  show (r >>= fun a => pure (f a)) context tokens = _ ↔ _
  simp only [bind_eq_read, pure_eq_read]
  constructor
  · rintro ⟨a, mid, h, rfl, rfl⟩
    exact ⟨a, h, rfl⟩
  · rintro ⟨a, h, rfl⟩
    exact ⟨a, rest, h, rfl, rfl⟩

@[simp] theorem within_apply {construct : Construct} {r : Reader α} :
    within construct r context tokens = r (construct :: context) tokens := rfl

@[simp] theorem commit_eq_read {kind : SyntaxErrorKind} {r : Reader α} :
    commit kind r context tokens = .read a rest ↔ r context tokens = .read a rest := by
  unfold commit
  cases r context tokens <;> simp [breakAt]

@[simp] theorem orElse_eq_read {r s : Reader α} :
    (r <|> s) context tokens = .read a rest ↔
      r context tokens = .read a rest ∨
        r context tokens = .absent ∧ s context tokens = .read a rest := by
  show Reader.orElse r (fun _ => s) context tokens = _ ↔ _
  unfold Reader.orElse
  cases r context tokens <;> simp

@[simp] theorem absent_apply : (absent : Reader α) context tokens = .absent := rfl

@[simp] theorem breakAt_ne_read {kind : SyntaxErrorKind} {start : List Token} :
    breakAt kind start context tokens ≠ .read a rest := by
  simp [breakAt]

@[simp] theorem here_eq_read {start : List Token} :
    here context tokens = .read start rest ↔ start = tokens ∧ rest = tokens := by
  simp [here, eq_comm]

@[simp] theorem startingAt_apply {start : List Token} {r : Reader α} :
    startingAt start r context tokens = r context start := rfl

@[simp] theorem skipNewlines_eq_read {u : Unit} :
    skipNewlines context tokens = .read u rest ↔
      (tokens.dropWhile fun t => t.kind = .newline) = rest := by
  simp [skipNewlines]

@[simp] theorem token_eq_read {test : Token → Option α} :
    token test context tokens = .read a rest ↔ ∃ t, tokens = t :: rest ∧ test t = some a := by
  unfold token
  cases tokens with
  | nil => simp
  | cons t ts =>
    dsimp only
    constructor
    · intro h
      cases ht : test t with
      | none => simp [ht] at h
      | some a' =>
        simp only [ht, Reading.read.injEq] at h
        exact ⟨t, by rw [h.2], by rw [ht, h.1]⟩
    · rintro ⟨t', heq, ht⟩
      obtain ⟨rfl, rfl⟩ := List.cons.inj heq
      simp [ht]

@[simp] theorem expect_eq_read {kind : TokenKind} {u : Unit} :
    expect kind context tokens = .read u rest ↔ ∃ t, tokens = t :: rest ∧ t.kind = kind := by
  simp [expect]

@[simp] theorem require_eq_read {kind : TokenKind} {u : Unit} :
    require kind context tokens = .read u rest ↔ ∃ t, tokens = t :: rest ∧ t.kind = kind := by
  simp [require]

theorem nameOf?_eq_some {t : Token} {n : String} : nameOf? t = some n ↔ t.value = .name n := by
  unfold nameOf?
  split <;> simp_all

@[simp] theorem identifier_eq_read {n : String} :
    identifier context tokens = .read n rest ↔ ∃ t, tokens = t :: rest ∧ t.value = .name n := by
  simp [identifier, nameOf?_eq_some]

@[simp] theorem requireIdentifier_eq_read {n : String} :
    requireIdentifier context tokens = .read n rest ↔
      ∃ t, tokens = t :: rest ∧ t.value = .name n := by
  simp [requireIdentifier]

/-! ## When nothing is found -/

@[simp] theorem pure_ne_absent : (pure a : Reader α) context tokens ≠ .absent := by
  show Reader.pure a context tokens ≠ _
  simp [Reader.pure]

@[simp] theorem bind_eq_absent {r : Reader α} {f : α → Reader β} :
    (r >>= f) context tokens = .absent ↔
      r context tokens = .absent ∨
        ∃ a mid, r context tokens = .read a mid ∧ f a context mid = .absent := by
  show Reader.bind r f context tokens = _ ↔ _
  unfold Reader.bind
  cases r context tokens <;> simp [and_assoc]

@[simp] theorem map_eq_absent {r : Reader α} {f : α → β} :
    (f <$> r) context tokens = .absent ↔ r context tokens = .absent := by
  show (r >>= fun a => pure (f a)) context tokens = _ ↔ _
  simp

@[simp] theorem commit_ne_absent {kind : SyntaxErrorKind} {r : Reader α} :
    commit kind r context tokens ≠ .absent := by
  unfold commit
  cases r context tokens <;> simp [breakAt]

@[simp] theorem orElse_eq_absent {r s : Reader α} :
    (r <|> s) context tokens = .absent ↔
      r context tokens = .absent ∧ s context tokens = .absent := by
  show Reader.orElse r (fun _ => s) context tokens = _ ↔ _
  unfold Reader.orElse
  cases r context tokens <;> simp

@[simp] theorem breakAt_ne_absent {kind : SyntaxErrorKind} {start : List Token} :
    (breakAt kind start : Reader α) context tokens ≠ .absent := by
  simp [breakAt]

@[simp] theorem here_ne_absent : here context tokens ≠ .absent := by
  simp [here]

@[simp] theorem skipNewlines_ne_absent : skipNewlines context tokens ≠ .absent := by
  simp [skipNewlines]

@[simp] theorem token_eq_absent {test : Token → Option α} :
    token test context tokens = .absent ↔ ∀ t ∈ tokens.head?, test t = none := by
  unfold token
  cases tokens with
  | nil => simp
  | cons t ts =>
    dsimp only
    cases ht : test t <;> simp [ht]

@[simp] theorem expect_eq_absent {kind : TokenKind} :
    expect kind context tokens = .absent ↔ ∀ t ∈ tokens.head?, t.kind ≠ kind := by
  simp [expect]

@[simp] theorem require_ne_absent {kind : TokenKind} : require kind context tokens ≠ .absent := by
  simp [require]

@[simp] theorem identifier_eq_absent :
    identifier context tokens = .absent ↔ ∀ t ∈ tokens.head?, nameOf? t = none := by
  simp [identifier]

@[simp] theorem requireIdentifier_ne_absent : requireIdentifier context tokens ≠ .absent := by
  simp [requireIdentifier]

/-! ## Repetition -/

theorem many_zero {r : Reader α} : many r 0 = pure [] := rfl

theorem many_succ {r : Reader α} {limit : Nat} :
    many r (limit + 1) = ((do return (← r) :: (← many r limit)) <|> pure []) := rfl

@[simp] theorem many_ne_absent {r : Reader α} {limit : Nat} :
    many r limit context tokens ≠ .absent := by
  cases limit with
  | zero => exact pure_ne_absent
  | succ limit => simp [many_succ]

theorem many_eq_nil {r : Reader α} {limit : Nat} (h : r context tokens = .absent) :
    many r limit context tokens = .read [] tokens := by
  cases limit with
  | zero => simp [many_zero]
  | succ limit => simp [many_succ, h]

theorem many_eq_cons {r : Reader α} {limit : Nat} {as : List α} {mid : List Token}
    (h : r context tokens = .read a mid) (hmany : many r limit context mid = .read as rest) :
    many r (limit + 1) context tokens = .read (a :: as) rest := by
  rw [many_succ, orElse_eq_read]
  exact Or.inl (by simp [h, hmany, and_assoc])

/-- Many readings are one after another, or none. -/
theorem many_succ_eq_read {r : Reader α} {limit : Nat} {as : List α}
    (h : many r (limit + 1) context tokens = .read as rest) :
    as = [] ∧ rest = tokens ∨
      ∃ a mid as', r context tokens = .read a mid ∧ many r limit context mid = .read as' rest ∧
        as = a :: as' := by
  rw [many_succ, orElse_eq_read] at h
  rcases h with h | ⟨-, h⟩
  · simp only [bind_eq_read, pure_eq_read] at h
    obtain ⟨a, mid, ha, as', _, has, rfl, rfl⟩ := h
    exact Or.inr ⟨a, mid, as', ha, has, rfl⟩
  · simp only [pure_eq_read] at h
    exact Or.inl ⟨h.1.symm, h.2.symm⟩

end Offside.Reader
