import Offside.Proofs.Grammar.ExpressionSoundness
import Offside.Proofs.Grammar.Lookahead

/-!
# How far readers look

A reader looks one token past those that it takes, and it finds an error at the token that it
reports. So it does the same on any other tokens that begin alike, however they go on. The errors
about a whole block or a whole list of arguments are left out, as they are reported where it begins.

Readers come in families, one for each limit, since other tokens may need another limit.
-/

namespace Offside

/-- Whether the error is reported where it is found. -/
def SyntaxErrorKind.isImmediate : SyntaxErrorKind → Bool
  | .expected _ | .expectedExpression | .expectedStatement | .expectedIdentifier => true
  | .invalidClassMember => true
  | .emptyBlock | .positionalAfterKeyword | .trailingTokens => false

namespace Grammar

open Reader
open Terminal (ofToken word)

/-! ## Tokens that begin alike -/

/-- The lists have the same terminals at the first `n` places and end together if they end there. -/
def Alike (n : Nat) (tokens tokens' : List Token) : Prop :=
  (tokens.take n).map ofToken = (tokens'.take n).map ofToken

section Alike

variable {m n k : Nat} {t t' : Token} {tokens tokens' : List Token}

theorem alike_nil : Alike (n + 1) [] tokens' ↔ tokens' = [] := by
  cases tokens' <;> simp [Alike]

theorem alike_cons : Alike (n + 1) (t :: tokens) tokens' ↔
    ∃ t' rest, tokens' = t' :: rest ∧ ofToken t = ofToken t' ∧ Alike n tokens rest := by
  cases tokens' <;> simp [Alike]

theorem alike_cons_cons : Alike (n + 1) (t :: tokens) (t' :: tokens') ↔
    ofToken t = ofToken t' ∧ Alike n tokens tokens' := by
  simp [Alike]

theorem Alike.mono (h : Alike n tokens tokens') (hle : m ≤ n) : Alike m tokens tokens' := by
  have htake := congrArg (List.take m) h
  simpa [Alike, ← List.map_take, List.take_take, Nat.min_eq_left hle] using htake

theorem Alike.drop (h : Alike (k + n) tokens tokens') :
    Alike n (tokens.drop k) (tokens'.drop k) := by
  have hdrop := congrArg (List.drop k) h
  simpa [Alike, ← List.map_drop, List.drop_take] using hdrop

/-- What the first terminal tells, or that there is none, is told of both. -/
theorem Alike.congr_head {α : Type} {f : List Token → α}
    (hf : ∀ t t' rest rest', ofToken t = ofToken t' → f (t :: rest) = f (t' :: rest'))
    (h : Alike (n + 1) tokens tokens') : f tokens = f tokens' := by
  cases tokens with
  | nil => rw [alike_nil.mp h]
  | cons t rest =>
    obtain ⟨t', rest', rfl, hhead, -⟩ := alike_cons.mp h
    exact hf t t' rest rest' hhead

/-- Alike tokens are fewer after a reading together. -/
theorem Alike.length_drop_lt (h : Alike (k + 1) tokens tokens')
    (hlt : (tokens.drop k).length < tokens.length) :
    (tokens'.drop k).length < tokens'.length := by
  rw [List.length_drop] at hlt ⊢
  cases tokens with
  | nil => exact absurd hlt (Nat.not_lt_zero _)
  | cons t rest =>
    obtain ⟨t', rest', rfl, -, -⟩ := alike_cons.mp h
    simp only [List.length_cons] at hlt ⊢
    omega

end Alike

/-! ## Local readers -/

section Local

variable {ι κ α β : Type} {size : ι → Nat} {readers : ι → Reader α} {found : Bool}
  {context : List Construct} {tokens : List Token} {i : ι}

/-- All readers of the family have the outcome on all tokens that are alike at the first `n` places
and that they have the size for. -/
def Repeats (size : ι → Nat) (readers : ι → Reader α) (context : List Construct)
    (tokens : List Token) (n : Nat) (outcome : List Token → Reading α) : Prop :=
  ∀ ⦃i tokens'⦄, AllAgree tokens' → tokens'.length < size i → Alike n tokens tokens' →
    readers i context tokens' = outcome tokens'

/-- The reading of the tokens rests on nothing that follows the token after those that were taken,
or the token that is reported. If it has to be `found`, it is not absent. -/
inductive Decided (size : ι → Nat) (readers : ι → Reader α) (found : Bool)
    (context : List Construct) (tokens : List Token) : Reading α → Prop
  | read (k : Nat) {a : α} :
    Repeats size readers context tokens (k + 1) (fun tokens' => .read a (tokens'.drop k)) →
    Decided size readers found context tokens (.read a (tokens.drop k))
  | absent :
    found = false → Repeats size readers context tokens 1 (fun _ => .absent) →
    Decided size readers found context tokens .absent
  | broken (n : Nat) {kind : SyntaxErrorKind} {constructs : List Construct} :
    Repeats size readers context tokens (n + 1)
      (fun tokens' => .broken ⟨kind, tokens'[n]?, constructs⟩) →
    Decided size readers found context tokens (.broken ⟨kind, tokens[n]?, constructs⟩)
  | elsewhere {e : SyntaxError} :
    e.kind.isImmediate = false → Decided size readers found context tokens (.broken e)

/-- The reader of the family looks no further than it has to. -/
def Local (found : Bool) (size : ι → Nat) (readers : ι → Reader α) (i : ι) : Prop :=
  ∀ ⦃context tokens⦄, AllAgree tokens → tokens.length < size i →
    Decided size readers found context tokens (readers i context tokens)

theorem allAgree_drop {k : Nat} (h : AllAgree tokens) : AllAgree (tokens.drop k) :=
  fun t ht => h t (List.mem_of_mem_drop ht)

theorem length_drop_lt {k m : Nat} (h : tokens.length < m) : (tokens.drop k).length < m := by
  rw [List.length_drop]
  omega

/-- What is decided for the tokens after the first `k` is decided for all of them, if they are read
by going on after the first `k`. -/
theorem Decided.shift {size' : κ → Nat} {readers' : κ → Reader α} {found' : Bool} {k : Nat}
    {context' : List Construct} {reading : Reading α} (g : ι → κ)
    (h : Decided size' readers' found' context' (tokens.drop k) reading)
    (hfound : found' = true ∨ k = 0 ∧ found = false)
    (hstep : ∀ ⦃i tokens'⦄, AllAgree tokens' → tokens'.length < size i →
      Alike (k + 1) tokens tokens' → (tokens'.drop k).length < size' (g i) ∧
        readers i context tokens' = readers' (g i) context' (tokens'.drop k)) :
    Decided size readers found context tokens reading := by
  -- both runs leave the same first tokens behind, so that they go on alike
  have hrepeats {n : Nat} {outcome : List Token → Reading α}
      (hafter : Repeats size' readers' context' (tokens.drop k) (n + 1) outcome) :
      Repeats size readers context tokens (k + n + 1) fun tokens' => outcome (tokens'.drop k) := by
    intro i tokens' hagree hsize halike
    obtain ⟨hsize', heq⟩ := hstep hagree hsize (halike.mono (by omega))
    rw [heq]
    have halike : Alike (k + (n + 1)) tokens tokens' := halike
    exact hafter (allAgree_drop hagree) hsize' halike.drop
  cases h with
  | read m hread =>
    rw [List.drop_drop]
    exact .read (k + m) (by simpa [List.drop_drop] using hrepeats hread)
  | absent hnot habsent =>
    rcases hfound with rfl | ⟨rfl, hfound⟩
    · cases hnot
    · exact .absent hfound (hrepeats habsent)
  | broken n hbroken =>
    rw [List.getElem?_drop]
    exact .broken (k + n) (by simpa [List.getElem?_drop] using hrepeats hbroken)
  | elsewhere he => exact .elsewhere he

/-! ## Families of readers -/

/-- A family may be taken for a part of its limits, and for shorter tokens. -/
theorem Local.reindex {size' : κ → Nat} {g : κ → ι} {j : κ}
    (h : Local found size readers (g j)) (hsize : ∀ j, size' j ≤ size (g j)) :
    Local found size' (fun j => readers (g j)) j := by
  intro context tokens hagree hlength
  refine (h hagree (Nat.lt_of_lt_of_le hlength (hsize j))).shift (k := 0) g ?_ ?_
  · cases found <;> simp
  · intro j' tokens' _ hlength' _
    exact ⟨Nat.lt_of_lt_of_le hlength' (hsize j'), rfl⟩

theorem Local.mono {size' : ι → Nat} (h : Local found size readers i)
    (hsize : ∀ i, size' i ≤ size i) : Local found size' readers i :=
  h.reindex (g := fun i => i) hsize

/-- Every limit that has a size is a successor. -/
theorem Local.of_succ {readers : Nat → Reader α} {depth : Nat}
    (h : Local found (fun d => d + 1) (fun d => readers (d + 1)) depth) :
    Local found (fun d => d) readers (depth + 1) := by
  intro context tokens hagree hlength
  refine (h hagree hlength).shift (k := 0) (fun d => d - 1) (by cases found <;> simp) ?_
  intro d tokens' _ hlength' _
  have hpos : d - 1 + 1 = d := Nat.sub_add_cancel (Nat.lt_of_le_of_lt (Nat.zero_le _) hlength')
  rw [hpos]
  exact ⟨hlength', rfl⟩

theorem Local.weaken (h : Local true size readers i) : Local found size readers i := by
  intro context tokens hagree hlength
  refine (h hagree hlength).shift (k := 0) (fun i => i) (Or.inl rfl) ?_
  intro i' tokens' _ hlength' _
  exact ⟨hlength', rfl⟩

theorem Local.congr {readers' : ι → Reader α} (h : Local found size readers' i)
    (heq : ∀ ⦃i context tokens⦄, AllAgree tokens → tokens.length < size i →
      readers i context tokens = readers' i context tokens) : Local found size readers i := by
  intro context tokens hagree hlength
  rw [heq hagree hlength]
  refine (h hagree hlength).shift (k := 0) (fun i => i) ?_ ?_
  · cases found <;> simp
  · intro i' tokens' hagree' hlength' _
    exact ⟨hlength', heq hagree' hlength'⟩

/-! ## Parts of readers -/

theorem pure_local {a : α} : Local found size (fun _ => pure a) i :=
  fun _ _ _ _ => .read 0 fun _ _ _ _ _ => rfl

theorem absent_local : Local false size (fun _ => (absent : Reader α)) i :=
  fun _ _ _ _ => .absent rfl fun _ _ _ _ _ => rfl

theorem token_local {test : Token → Option α}
    (htest : ∀ {t t'}, ofToken t = ofToken t' → test t = test t') :
    Local false size (fun _ => token test) i := by
  intro context tokens _ _
  cases tokens with
  | nil =>
    refine .absent rfl ?_
    intro _ tokens' _ _ halike
    rw [alike_nil.mp halike]
    rfl
  | cons t rest =>
    have hread {t : Token} {rest : List Token} {a : α} (ht : test t = some a) :
        token test context (t :: rest) = .read a rest := token_eq_read.mpr ⟨t, rfl, ht⟩
    cases ht : test t with
    | none =>
      have hfirst : Decided size (fun _ => token test) false context (t :: rest) .absent := by
        refine .absent rfl ?_
        intro _ tokens' _ _ halike
        obtain ⟨t', rest', rfl, hhead, -⟩ := alike_cons.mp halike
        exact token_absent (by rw [← htest hhead, ht])
      rwa [← token_absent ht] at hfirst
    | some a =>
      have hfirst : Decided size (fun _ => token test) false context (t :: rest)
          (.read a ((t :: rest).drop 1)) := by
        refine .read 1 ?_
        intro _ tokens' _ _ halike
        obtain ⟨t', rest', rfl, hhead, -⟩ := alike_cons.mp halike
        exact hread (by rw [← htest hhead, ht])
      rwa [List.drop_one, List.tail_cons, ← hread ht] at hfirst

theorem expect_local {kind : TokenKind} : Local false size (fun _ => expect kind) i := by
  refine token_local ?_
  intro t t' h
  rw [show t.kind = t'.kind from congrArg Terminal.kind h]

theorem Local.within {construct : Construct} (h : Local found size readers i) :
    Local found size (fun i => within construct (readers i)) i := by
  intro context tokens hagree hlength
  refine (@h (construct :: context) tokens hagree hlength).shift (k := 0) (fun i => i) ?_ ?_
  · cases found <;> simp
  · intro i' tokens' _ hlength' _
    exact ⟨hlength', rfl⟩

section Bind

instance : LawfulMonad Reader := by
  refine LawfulMonad.mk' Reader ?_ ?_ ?_
  · intro α r
    funext context tokens
    show Reader.bind r Reader.pure context tokens = r context tokens
    unfold Reader.bind
    cases r context tokens <;> rfl
  · intro α β a f
    rfl
  · intro α β γ r f g
    funext context tokens
    show Reader.bind (Reader.bind r f) g context tokens =
      Reader.bind r (fun a => Reader.bind (f a) g) context tokens
    unfold Reader.bind
    cases r context tokens <;> rfl

variable {r : Reader α} {f : α → Reader β} {a : α} {rest : List Token} {e : SyntaxError}

theorem bind_of_read (h : r context tokens = .read a rest) :
    (r >>= f) context tokens = f a context rest := by
  show Reader.bind r f context tokens = _
  rw [Reader.bind, h]

theorem bind_of_absent (h : r context tokens = .absent) :
    (r >>= f) context tokens = .absent := by
  show Reader.bind r f context tokens = _
  rw [Reader.bind, h]

theorem bind_of_broken (h : r context tokens = .broken e) :
    (r >>= f) context tokens = .broken e := by
  show Reader.bind r f context tokens = _
  rw [Reader.bind, h]

/-- What goes on after a reading without a look at the context does so in any context. -/
theorem bind_congr_reading {r' : Reader α} {context' : List Construct} {tokens' : List Token}
    (h : r context tokens = r' context' tokens')
    (hf : ∀ a rest, f a context rest = f a context' rest) :
    (r >>= f) context tokens = (r' >>= f) context' tokens' := by
  show Reader.bind r f context tokens = Reader.bind r' f context' tokens'
  unfold Reader.bind
  rw [h]
  cases r' context' tokens' with
  | read a rest => exact hf a rest
  | absent => rfl
  | broken e => rfl

theorem orElse_of_absent {s : Reader α} (h : r context tokens = .absent) :
    (r <|> s) context tokens = s context tokens := by
  show Reader.orElse r (fun _ => s) context tokens = _
  rw [Reader.orElse, h]

theorem orElse_of_ne_absent {s : Reader α} (h : r context tokens ≠ .absent) :
    (r <|> s) context tokens = r context tokens := by
  show Reader.orElse r (fun _ => s) context tokens = _
  unfold Reader.orElse
  cases hr : r context tokens with
  | absent => exact absurd hr h
  | _ => rfl

theorem commit_of_ne_absent {kind : SyntaxErrorKind} (h : r context tokens ≠ .absent) :
    commit kind r context tokens = r context tokens := by
  unfold commit
  cases hr : r context tokens with
  | absent => exact absurd hr h
  | _ => rfl

end Bind

/-- A reader that goes on is decided where the first reading is, and what is read after it. What
it does then may use the tokens that it began with. -/
theorem Decided.bind {whole : ι → Reader β} {f : List Token → α → ι → Reader β}
    (hwhole : ∀ i tokens, tokens.length < size i →
      whole i context tokens = (readers i >>= fun a => f tokens a i) context tokens)
    (hlength : tokens.length < size i)
    (h : Decided size readers found context tokens (readers i context tokens))
    (hf : ∀ {a k}, readers i context tokens = .read a (tokens.drop k) →
      Repeats size readers context tokens (k + 1) (fun tokens' => .read a (tokens'.drop k)) →
      Decided size whole found context tokens (f tokens a i context (tokens.drop k))) :
    Decided size whole found context tokens (whole i context tokens) := by
  rw [hwhole i tokens hlength]
  generalize hreading : readers i context tokens = reading at h
  cases h with
  | read k hrepeats =>
    rw [bind_of_read hreading]
    exact hf hreading hrepeats
  | absent hnot hrepeats =>
    rw [bind_of_absent hreading]
    refine .absent hnot fun i' tokens' ha hl halike => (hwhole i' tokens' hl).trans ?_
    exact bind_of_absent (hrepeats ha hl halike)
  | broken n hrepeats =>
    rw [bind_of_broken hreading]
    refine .broken n fun i' tokens' ha hl halike => (hwhole i' tokens' hl).trans ?_
    exact bind_of_broken (hrepeats ha hl halike)
  | elsewhere he =>
    rw [bind_of_broken hreading]
    exact .elsewhere he

theorem Local.bind {f : α → ι → Reader β} (h : Local found size readers i)
    (hf : ∀ a, Local true size (f a) i) :
    Local found size (fun i => readers i >>= fun a => f a i) i := by
  intro context tokens hagree hlength
  refine (h hagree hlength).bind (f := fun _ a i => f a i) (fun _ _ _ => rfl) hlength ?_
  intro a k _ hrepeats
  refine (hf a (allAgree_drop hagree) (length_drop_lt hlength)).shift (fun i => i) (Or.inl rfl) ?_
  intro i' tokens' hagree' hlength' halike
  exact ⟨length_drop_lt hlength', bind_of_read (hrepeats hagree' hlength' halike)⟩

theorem Local.map {f : α → β} (h : Local found size readers i) :
    Local found size (fun i => f <$> readers i) i :=
  h.bind fun _ => pure_local

/-- After a word the tokens are fewer. -/
theorem Local.after {kind : TokenKind} (h : Local true size readers i) :
    Local false (fun i => size i + 1) (fun i => do expect kind; readers i) i := by
  intro context tokens hagree hlength
  have hword : Local false (fun i => size i + 1) (fun _ => expect kind) i := expect_local
  refine (hword hagree hlength).bind (f := fun _ _ i => readers i) (fun _ _ _ => rfl) hlength ?_
  intro _ k hread hrepeats
  have hshorter : (tokens.drop k).length < tokens.length := by
    obtain ⟨t, htokens, -⟩ := expect_eq_read.mp hread
    have := congrArg List.length htokens
    rw [List.length_cons] at this
    omega
  have hbound : (tokens.drop k).length < size i := by
    have : tokens.length < size i + 1 := hlength
    omega
  refine (h (allAgree_drop hagree) hbound).shift (fun i => i) (Or.inl rfl) ?_
  intro i' tokens' hagree' hlength' halike
  have hshorter' := halike.length_drop_lt hshorter
  have : tokens'.length < size i' + 1 := hlength'
  exact ⟨by omega, bind_of_read (hrepeats hagree' hlength' halike)⟩

theorem Local.orElse {readers' : ι → Reader α} (h : Local false size readers i)
    (h' : Local found size readers' i) :
    Local found size (fun i => readers i <|> readers' i) i := by
  intro context tokens hagree hlength
  have hfirst := @h context tokens hagree hlength
  have hlast := @h' context tokens hagree hlength
  show Decided size _ found context tokens ((readers i <|> readers' i) context tokens)
  generalize hreading : readers i context tokens = reading at hfirst
  cases hfirst with
  | read k hrepeats =>
    rw [orElse_of_ne_absent (by simp [hreading]), hreading]
    refine .read k fun i' tokens' ha hl halike => ?_
    have hagain := hrepeats ha hl halike
    exact (orElse_of_ne_absent (by simp [hagain])).trans hagain
  | absent _ hrepeats =>
    rw [orElse_of_absent hreading]
    refine hlast.shift (k := 0) (fun i => i) (by cases found <;> simp) ?_
    exact fun i' tokens' ha hl halike => ⟨hl, orElse_of_absent (hrepeats ha hl halike)⟩
  | broken n hrepeats =>
    rw [orElse_of_ne_absent (by simp [hreading]), hreading]
    refine .broken n fun i' tokens' ha hl halike => ?_
    have hagain := hrepeats ha hl halike
    exact (orElse_of_ne_absent (by simp [hagain])).trans hagain
  | elsewhere he =>
    rw [orElse_of_ne_absent (by simp [hreading]), hreading]
    exact .elsewhere he

theorem Local.commit {kind : SyntaxErrorKind} (h : Local false size readers i) :
    Local found size (fun i => commit kind (readers i)) i := by
  let missing : Reader α := fun context tokens => breakAt kind tokens context tokens
  have hmissing : Local found size (fun _ => missing) i := by
    intro context tokens _ _
    have hfirst : Decided size (fun _ => missing) found context tokens
        (.broken ⟨kind, tokens[0]?, context.reverse⟩) :=
      .broken 0 fun _ tokens' _ _ _ => by simp [missing, breakAt, List.head?_eq_getElem?]
    simpa [missing, breakAt, List.head?_eq_getElem?] using hfirst
  refine (h.orElse hmissing).congr ?_
  intro i' context tokens _ _
  show _ = Reader.orElse (readers i') (fun _ => missing) context tokens
  unfold Reader.commit Reader.orElse
  cases readers i' context tokens <;> rfl

theorem require_local {kind : TokenKind} : Local found size (fun _ => require kind) i :=
  expect_local.commit

theorem identifier_local : Local false size (fun _ => identifier) i := by
  refine token_local ?_
  intro t t' h
  have hvalue : t.value = t'.value := congrArg Terminal.value h
  simp only [nameOf?, hvalue]

theorem requireIdentifier_local : Local found size (fun _ => requireIdentifier) i :=
  identifier_local.commit

theorem Local.optional (h : Local false size readers i) :
    Local found size (fun i => optional (readers i)) i :=
  h.map.orElse pure_local

theorem dropWhile_alike (tokens : List Token) : ∃ k,
    tokens.dropWhile (fun t => t.kind = .newline) = tokens.drop k ∧
      ∀ tokens', Alike (k + 1) tokens tokens' →
        tokens'.dropWhile (fun t => t.kind = .newline) = tokens'.drop k := by
  induction tokens with
  | nil =>
    refine ⟨0, rfl, fun tokens' halike => ?_⟩
    rw [alike_nil.mp halike]
    rfl
  | cons t rest ih =>
    by_cases ht : t.kind = .newline
    · obtain ⟨k, hk, hother⟩ := ih
      refine ⟨k + 1, by simpa [ht] using hk, fun tokens' halike => ?_⟩
      obtain ⟨t', rest', rfl, hhead, htail⟩ := alike_cons.mp halike
      have ht' : t'.kind = .newline := (congrArg Terminal.kind hhead).symm.trans ht
      simpa [ht'] using hother rest' htail
    · refine ⟨0, by simp [ht], fun tokens' halike => ?_⟩
      obtain ⟨t', rest', rfl, hhead, -⟩ := alike_cons.mp halike
      have ht' : t'.kind ≠ .newline := fun h => ht ((congrArg Terminal.kind hhead).trans h)
      simp [ht']

theorem skipNewlines_local : Local found size (fun _ => skipNewlines) i := by
  intro context tokens _ _
  obtain ⟨k, hk, hother⟩ := dropWhile_alike tokens
  have hfirst : Decided size (fun _ => skipNewlines) found context tokens
      (.read () (tokens.drop k)) := by
    refine .read k fun _ tokens' _ _ halike => ?_
    simp [skipNewlines, hother tokens' halike]
  rwa [← hk] at hfirst

/-- Which of two readers goes on is told by the next token. -/
theorem Local.choose {chosen readers' : ι → Reader α} {test : List Token → Bool}
    (htest : ∀ {tokens tokens'}, Alike 1 tokens tokens' → test tokens = test tokens')
    (hchosen : ∀ i context tokens, chosen i context tokens =
      (if test tokens then readers i else readers' i) context tokens)
    (h : Local found size readers i) (h' : Local found size readers' i) :
    Local found size chosen i := by
  intro context tokens hagree hlength
  rw [hchosen]
  split
  · rename_i hyes
    refine (h hagree hlength).shift (k := 0) (fun i => i) (by cases found <;> simp) ?_
    intro i' tokens' _ hl halike
    exact ⟨hl, by rw [hchosen, ← htest halike, if_pos hyes]; rfl⟩
  · rename_i hno
    refine (h' hagree hlength).shift (k := 0) (fun i => i) (by cases found <;> simp) ?_
    intro i' tokens' _ hl halike
    exact ⟨hl, by rw [hchosen, ← htest halike, if_neg hno]; rfl⟩

/-- The tokens that stand here are used for an error that is reported elsewhere, and for that
alone. -/
theorem Local.bind_here {f : List Token → α → ι → Reader β} (h : Local found size readers i)
    (hf : ∀ a, (∃ kind, kind.isImmediate = false ∧ ∀ start i, f start a i = breakAt kind start) ∨
      ∃ g, Local true size g i ∧ ∀ start i, f start a i = g i) :
    Local found size (fun i => do let start ← here; let a ← readers i; f start a i) i := by
  intro context tokens hagree hlength
  refine (h hagree hlength).bind (f := f) (fun _ _ _ => rfl) hlength ?_
  intro a k _ hrepeats
  obtain ⟨kind, hkind, hbreak⟩ | ⟨g, hg, hgo⟩ := hf a
  · rw [hbreak]
    exact .elsewhere hkind
  · rw [hgo]
    refine (hg (allAgree_drop hagree) (length_drop_lt hlength)).shift (fun i => i) (Or.inl rfl) ?_
    intro i' tokens' _ hlength' halike
    refine ⟨length_drop_lt hlength', (bind_of_read (hrepeats ‹_› hlength' halike)).trans ?_⟩
    rw [hgo]

/-! ## Repetition -/

/-- The reader takes a token at least from tokens that are fewer than the bound. -/
def Advances (bound : Nat) (r : Reader α) : Prop :=
  ∀ ⦃context tokens a rest⦄, AllAgree tokens → tokens.length < bound →
    r context tokens = .read a rest → rest.length < tokens.length

theorem Local.length_le {a : α} {rest : List Token} (h : Local found size readers i)
    (hagree : AllAgree tokens) (hlength : tokens.length < size i)
    (hread : readers i context tokens = .read a rest) : rest.length ≤ tokens.length := by
  have hdecided := @h context tokens hagree hlength
  rw [hread] at hdecided
  cases hdecided with
  | read k _ =>
    rw [List.length_drop]
    exact Nat.sub_le ..

theorem Local.advances {test : Token → Option α} {f : α → ι → Reader β}
    (h : ∀ a, Local true size (f a) i) : Advances (size i) (token test >>= fun a => f a i) := by
  intro context tokens b rest hagree hlength hread
  obtain ⟨a, mid, ha, hb⟩ := bind_eq_read.mp hread
  obtain ⟨t, rfl, -⟩ := token_eq_read.mp ha
  have hmid : mid.length < size i := Nat.lt_of_succ_lt hlength
  exact Nat.lt_succ_of_le ((h a).length_le (allAgree_cons.mp hagree).2 hmid hb)

theorem advances_token {test : Token → Option α} {bound : Nat} : Advances bound (token test) := by
  intro context tokens a rest _ _ hread
  obtain ⟨t, rfl, -⟩ := token_eq_read.mp hread
  exact Nat.lt_succ_self _

theorem Follows.advances {r : Reader α} {φ : α → Phrase} {bound : Nat} (h : Follows r φ)
    (hne : ∀ a, ¬ Derives (φ a) []) : Advances bound r := by
  intro context tokens a rest hagree _ hread
  obtain ⟨used, rfl, hd⟩ := h hagree hread
  cases used with
  | nil => exact absurd hd (hne a)
  | cons t used =>
    rw [List.cons_append, List.length_cons, List.length_append]
    omega

/-- One of the two, told apart. -/
def either (r : Reader α) (s : Reader β) : Reader (α ⊕ β) := (Sum.inl <$> r) <|> (Sum.inr <$> s)

/-- Many readings and a last one begin with one of the two. -/
theorem many_either {γ : Type} {r : Reader α} {s : Reader β} {f : List α → β → Reader γ}
    {limit : Nat} (hlimit : 0 < limit) :
    (do let as ← many r limit; let b ← s; f as b : Reader γ) context tokens =
      (either r s >>= Sum.elim (fun a => do
        let as ← many r (limit - 1); let b ← s; f (a :: as) b) (f [])) context tokens := by
  obtain ⟨limit, rfl⟩ := Nat.exists_eq_succ_of_ne_zero (Nat.ne_of_gt hlimit)
  show Reader.bind (Reader.orElse (Reader.bind r fun a => Reader.bind (many r limit) fun as =>
    Reader.pure (a :: as)) fun _ => Reader.pure []) (fun as => Reader.bind s (f as)) context
      tokens =
    Reader.bind (Reader.orElse (Reader.bind r fun a => Reader.pure (Sum.inl a)) fun _ =>
      Reader.bind s fun b => Reader.pure (Sum.inr b)) (Sum.elim (fun a =>
        Reader.bind (many r limit) fun as => Reader.bind s (f (a :: as))) (f [])) context tokens
  simp only [Reader.bind, Reader.orElse, Reader.pure]
  cases r context tokens with
  | absent =>
    dsimp only
    cases s context tokens <;> rfl
  | broken e => rfl
  | read a mid =>
    dsimp only [Sum.elim_inl]
    cases hmany : many r limit context mid with
    | absent => exact absurd hmany many_ne_absent
    | broken e => simp only [Reader.bind, hmany]
    | read as rest => simp only [Reader.bind, hmany]

theorem Advances.of_either {n : Nat} {r : Reader α} {s : Reader β} {a : α} {rest : List Token}
    (h : Advances n r) (hagree : AllAgree tokens) (hlength : tokens.length < n)
    (hread : either r s context tokens = .read (.inl a) rest) : rest.length < tokens.length := by
  simp only [either, orElse_eq_read, map_eq_read] at hread
  obtain ⟨_, hread, -⟩ | ⟨-, _, -, hnot⟩ := hread
  · exact h hagree hlength hread
  · cases hnot

/-- Readings one after another and then a last one look no further than they have to, if neither
does the choice between one more and the last. -/
theorem Local.loop {γ : Type} {step : ι → Reader α} {last : ι → Reader β}
    {f : List α → β → ι → Reader γ} {limit : ι → Nat}
    (hchoice : Local true size (fun i => either (step i) (last i)) i)
    (hadvances : Advances (size i) (step i)) (hf : ∀ as b, Local true size (f as b) i)
    (hlimit : ∀ i, size i ≤ limit i) :
    Local true size (fun i => do let as ← many (step i) (limit i); let b ← last i; f as b i) i := by
  -- the limit is one more index of the family, as it falls with each reading
  have hlimits (l : Nat) (f : List α → β → ι → Reader γ)
      (hf : ∀ as b, Local true size (f as b) i) :
      Local true (fun p : ι × Nat => min (size p.1) p.2)
        (fun p => do let as ← many (step p.1) p.2; let b ← last p.1; f as b p.1) (i, l) := by
    induction l generalizing f with
    | zero =>
      intro context tokens _ hlength
      exact absurd (Nat.lt_of_lt_of_le hlength (Nat.min_le_right ..)) (Nat.not_lt_zero _)
    | succ l ih =>
      intro context tokens hagree hlength
      have hfirst : Local true (fun p : ι × Nat => min (size p.1) p.2)
          (fun p => either (step p.1) (last p.1)) (i, l + 1) :=
        Local.reindex (g := Prod.fst) (j := (i, l + 1)) hchoice fun p => Nat.min_le_left ..
      refine (hfirst hagree hlength).bind (f := fun _ c p => Sum.elim
        (fun a => do let as ← many (step p.1) (p.2 - 1); let b ← last p.1; f (a :: as) b p.1)
        (fun b => f [] b p.1) c) (fun p tokens hp => many_either (by omega)) hlength ?_
      intro c k hread hrepeats
      have ⟨hsize, hl⟩ : tokens.length < size i ∧ tokens.length < l + 1 := Nat.lt_min.mp hlength
      cases c with
      | inl a =>
        have hshorter := hadvances.of_either hagree hsize hread
        refine (ih (fun as => f (a :: as)) (fun as => hf (a :: as)) (allAgree_drop hagree)
          (Nat.lt_min.mpr ⟨Nat.lt_trans hshorter hsize, by dsimp only; omega⟩)).shift
          (fun p => (p.1, p.2 - 1)) (Or.inl rfl) ?_
        intro p tokens' hagree' hlength' halike
        have hshorter' := halike.length_drop_lt hshorter
        refine ⟨by dsimp only; omega, ?_⟩
        exact (many_either (by omega)).trans (bind_of_read (hrepeats hagree' hlength' halike))
      | inr b =>
        refine Decided.shift Prod.fst (hf [] b (allAgree_drop hagree) (length_drop_lt hsize))
          (Or.inl rfl) ?_
        intro p tokens' hagree' hlength' halike
        refine ⟨length_drop_lt (by omega), ?_⟩
        exact (many_either (by omega)).trans (bind_of_read (hrepeats hagree' hlength' halike))
  exact Local.reindex (g := fun i => (i, limit i)) (hlimits (limit i) f hf) fun j =>
    Nat.le_min.mpr ⟨Nat.le_refl _, hlimit j⟩

/-- Two readers that begin with one word are told apart after it. -/
theorem either_optional {w : Reader Unit} {r : Reader α} {s : Reader β} :
    either (do w; r) (optional do w; s) context tokens =
      ((do w; (Sum.inl <$> r) <|> ((fun b => Sum.inr (some b)) <$> s)) <|> pure (Sum.inr none))
        context tokens := by
  show Reader.orElse (Reader.bind (Reader.bind w fun _ => r) fun a => Reader.pure (Sum.inl a))
      (fun _ => Reader.bind (Reader.orElse (Reader.bind (Reader.bind w fun _ => s) fun b =>
        Reader.pure (some b)) fun _ => Reader.pure none) fun b => Reader.pure (Sum.inr b))
      context tokens =
    Reader.orElse (Reader.bind w fun _ => Reader.orElse
      (Reader.bind r fun a => Reader.pure (Sum.inl a))
      fun _ => Reader.bind s fun b => Reader.pure (Sum.inr (some b)))
      (fun _ => Reader.pure (Sum.inr none)) context tokens
  simp only [Reader.bind, Reader.orElse, Reader.pure]
  cases w context tokens with
  | absent => rfl
  | broken e => rfl
  | read u mid =>
    dsimp only
    cases r context mid with
    | absent => cases s context mid <;> rfl
    | broken e => rfl
    | read a rest => rfl

theorem either_optional_local {kind : TokenKind} {r : ι → Reader α} {s : ι → Reader β}
    (hr : Local false size r i) (hs : Local true size s i) :
    Local true size (fun i => either (do expect kind; r i) (optional do expect kind; s i)) i := by
  have hafter : Local false size (fun i => do
      expect kind
      (Sum.inl <$> r i) <|> ((fun b => Sum.inr (some b)) <$> s i)) i :=
    expect_local.bind fun _ => hr.map.orElse hs.map
  exact (hafter.orElse pure_local).congr fun _ _ _ _ _ => either_optional

section Repetition

variable {step : ι → Reader α} {limit : ι → Nat}

theorem Local.many (h : Local false size step i) (hadvances : Advances (size i) (step i))
    (hlimit : ∀ i, size i ≤ limit i) :
    Local true size (fun i => many (step i) (limit i)) i := by
  have hchoice : Local true size (fun i => either (step i) (pure ())) i :=
    h.map.orElse pure_local
  have hloop := hchoice.loop (f := fun as _ _ => pure as) hadvances (fun _ _ => pure_local) hlimit
  refine hloop.congr ?_
  intro i' context tokens _ _
  show _ = Reader.bind (Reader.many (step i') (limit i')) (fun as => Reader.pure as) context tokens
  unfold Reader.bind
  cases Reader.many (step i') (limit i') context tokens <;> rfl

/-- Empty lines may stand before each of the readings and after the last. -/
theorem Local.lines {f : List α → ι → Reader β} (h : Local false size step i)
    (hadvances : Advances (size i) (step i)) (hf : ∀ as, Local true size (f as) i)
    (hlimit : ∀ i, size i ≤ limit i) :
    Local true size (fun i => do
      let as ← Reader.many (do skipNewlines; step i) (limit i)
      skipNewlines
      f as i) i := by
  have hchoice : Local true size (fun i => either (do skipNewlines; step i) skipNewlines) i := by
    have hsame : Local true size (fun i => do skipNewlines; either (step i) (pure ())) i :=
      skipNewlines_local.bind fun _ => h.map.orElse pure_local
    refine hsame.congr ?_
    intro i' context tokens _ _
    show Reader.orElse (Reader.bind (Reader.bind skipNewlines fun _ => step i') fun a =>
      Reader.pure (Sum.inl a)) (fun _ => Reader.bind skipNewlines fun b => Reader.pure (Sum.inr b))
        context tokens =
      Reader.bind skipNewlines (fun _ => Reader.orElse (Reader.bind (step i') fun a =>
        Reader.pure (Sum.inl a)) (fun _ => Reader.pure (Sum.inr ()))) context tokens
    simp only [Reader.bind, Reader.orElse, skipNewlines]
  refine hchoice.loop ?_ (fun as _ => hf as) hlimit
  intro context tokens a rest hagree hlength hread
  simp only [bind_eq_read, skipNewlines_eq_read] at hread
  obtain ⟨_, mid, rfl, hread⟩ := hread
  have hsub := List.dropWhile_sublist (l := tokens) fun t : Token => decide (t.kind = .newline)
  have hrest := hadvances (fun t ht => hagree t (hsub.subset ht))
    (Nat.lt_of_le_of_lt hsub.length_le hlength) hread
  exact Nat.lt_of_lt_of_le hrest hsub.length_le

theorem Local.separated {missing : SyntaxErrorKind} (h : Local false size step i)
    (hlimit : ∀ i, size i ≤ limit i) :
    Local true size (fun i => separated missing (limit i) (step i)) i := by
  have hitem : Local false size (fun i => do expect .comma; Reader.commit missing (step i)) i :=
    expect_local.bind fun _ => h.commit
  have hcomma : Advances (size i) (do expect .comma; Reader.commit missing (step i)) :=
    Local.advances (f := fun _ i => Reader.commit missing (step i)) fun _ => h.commit
  have hsome : Local false size (fun i => do
      let first ← step i
      let others ← Reader.many (do expect .comma; Reader.commit missing (step i)) (limit i)
      return first :: others) i :=
    h.bind fun _ => (hitem.many hcomma hlimit).bind fun _ => pure_local
  exact hsome.orElse pure_local

end Repetition

end Local

end Grammar
end Offside
