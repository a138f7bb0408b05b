import Offside.Proofs.Grammar.ExpressionSoundness
import Offside.Proofs.Grammar.Lookahead

/-!
# Expressions that are derived are read

A reader covers a phrase when it reads it off the tokens that derive it, whatever stands after
them as long as that ends the phrase. The bound on the number of tokens is what the limits of the
readers are for.
-/

namespace Offside.Grammar

open Reader
open Terminal (ofToken word name)

/-! ## Covering a phrase -/

def Covers {α : Type} (r : Reader α) (φ : α → Phrase) (ends : List Token → Prop) (bound : Nat) :
    Prop :=
  ∀ ⦃a u used rest context⦄, Derives (φ a) u → used.map ofToken = u → used.length < bound →
    ends rest → r context (used ++ rest) = .read a rest

/-- The next token is a bracket that closes. -/
def Closes (tokens : List Token) : Prop :=
  ∃ t rest kind, tokens = t :: rest ∧ ofToken t = word kind ∧
    (kind = .closeParen ∨ kind = .closeBracket ∨ kind = .closeBrace)

section Combinators

variable {α : Type} {r : Reader α} {φ : α → Phrase} {ends : List Token → Prop} {bound limit : Nat}

theorem derives_star_cons {p : Phrase} {ps : List Phrase} {u : List Terminal}
    (h : Derives (.star (p :: ps)) u) :
    ∃ v w, Derives p v ∧ Derives (.star ps) w ∧ u = v ++ w := by
  cases h with
  | starCons hp hps => exact ⟨_, _, hp, hps, rfl⟩

/-- The phrases of a repetition end what stands before them when each begins with a token that
does. -/
theorem star_ends {stops : List Token → Prop}
    (hnext : ∀ ⦃a u⦄, Derives (φ a) u → ∃ b v, u = b :: v ∧ ∀ t rest, ofToken t = b → ends (t :: rest))
    (hends : ∀ ⦃rest⦄, stops rest → ends rest) {as : List α} {u : List Terminal}
    (hd : Derives (.star (as.map φ)) u) {used rest : List Token} (hused : used.map ofToken = u)
    (hstops : stops rest) : ends (used ++ rest) := by
  cases as with
  | nil =>
    cases hd
    rw [List.map_eq_nil_iff.mp hused]
    exact hends hstops
  | cons a as =>
    obtain ⟨v, w, hv, -, rfl⟩ := derives_star_cons hd
    obtain ⟨b, v', rfl, hb⟩ := hnext hv
    obtain ⟨t, used, rfl, ht, -⟩ := List.map_eq_cons_iff.mp hused
    exact hb t _ ht

/-- Repetition covers its phrases when each of them begins with a token that ends the one before,
and what stands after all of them begins none. -/
theorem many_covers {stops : List Token → Prop} (hr : Covers r φ ends bound)
    (hnext : ∀ ⦃a u⦄, Derives (φ a) u → ∃ b v, u = b :: v ∧ ∀ t rest, ofToken t = b → ends (t :: rest))
    (hends : ∀ ⦃rest⦄, stops rest → ends rest)
    (habsent : ∀ ⦃rest context⦄, stops rest → r context rest = .absent) (hlimit : bound ≤ limit) :
    Covers (many r limit) (fun as => .star (as.map φ)) stops bound := by
  intro as u used rest context hd hused hbound hstops
  have hlimit : used.length ≤ limit := by omega
  clear * - hr hnext hends habsent hd hused hlimit hbound hstops
  induction as generalizing u used limit with
  | nil =>
    cases hd
    obtain rfl := List.map_eq_nil_iff.mp hused
    exact many_eq_nil (habsent hstops)
  | cons a as ih =>
    obtain ⟨v, w, hv, hw, rfl⟩ := derives_star_cons hd
    obtain ⟨b, v', rfl, -⟩ := hnext hv
    obtain ⟨used₁, used₂, rfl, h₁, h₂⟩ := List.map_eq_append_iff.mp hused
    have hpos : 0 < used₁.length := by
      have := congrArg List.length h₁
      simp at this
      omega
    rw [List.length_append] at hlimit hbound
    have hrest : ends (used₂ ++ rest) := star_ends hnext hends hw h₂ hstops
    cases limit with
    | zero => omega
    | succ limit =>
      rw [List.append_assoc]
      exact many_eq_cons (hr hv h₁ (by omega) hrest) (ih hw h₂ (by omega) (by omega))

/-- A list with commas covers its items when a comma ends each of them. -/
theorem separated_covers (hr : Covers r φ ends bound)
    (hcomma : ∀ ⦃t rest⦄, t.kind = .comma → ends (t :: rest))
    (hends : ∀ ⦃rest⦄, Closes rest → ends rest)
    (habsent : ∀ ⦃rest context⦄, Closes rest → r context rest = .absent) (hlimit : bound ≤ limit)
    (missing : SyntaxErrorKind) :
    Covers (separated missing limit r) (fun as => .separated (as.map φ)) Closes bound := by
  intro as u used rest context hd hused hbound hcloses
  cases as with
  | nil =>
    cases hd
    obtain rfl := List.map_eq_nil_iff.mp hused
    exact orElse_eq_read.mpr (Or.inr ⟨by simp [habsent hcloses], rfl⟩)
  | cons a as =>
    have hlimit : used.length ≤ limit := by omega
    have hreads : ∃ mid, r context (used ++ rest) = .read a mid ∧
        many (do expect .comma; commit missing r) limit context mid = .read as rest := by
      clear * - hr hcomma hends hd hused hlimit hbound hcloses
      induction as generalizing a u used limit with
      | nil =>
        cases hd with
        | separatedOne hp =>
          obtain ⟨t, rest, kind, rfl, ht, hkind⟩ := hcloses
          refine ⟨_, hr hp hused hbound (hends ⟨t, rest, kind, rfl, ht, hkind⟩), many_eq_nil ?_⟩
          have hkind' : t.kind = kind := congrArg Terminal.kind ht
          rcases hkind with rfl | rfl | rfl <;> simp [hkind']
      | cons a' as ih =>
        cases hd with
        | separatedCons hp hps =>
          obtain ⟨used₁, used₂, rfl, h₁, h₂⟩ := List.map_eq_append_iff.mp hused
          obtain ⟨t, used₂, rfl, ht, h₂⟩ := List.map_eq_cons_iff.mp h₂
          have ht : t.kind = .comma := congrArg Terminal.kind ht
          rw [List.length_append, List.length_cons] at hlimit hbound
          cases limit with
          | zero => omega
          | succ limit =>
            have hlimit : used₂.length ≤ limit := by omega
            obtain ⟨mid, ha', has⟩ := ih h₂ (by omega) a' hps hlimit
            refine ⟨t :: used₂ ++ rest, ?_, many_eq_cons ?_ has⟩
            · rw [List.append_assoc]
              exact hr hp h₁ (by omega) (hcomma ht)
            · simp [ht, ha']
    obtain ⟨mid, ha, has⟩ := hreads
    refine orElse_eq_read.mpr (Or.inl ?_)
    simp only [bind_eq_read, pure_eq_read]
    exact ⟨a, mid, ha, as, rest, has, rfl, rfl⟩

end Combinators

/-! ## Before a closing bracket -/

section Closes

variable {tokens : List Token}

theorem Closes.stops (h : Closes tokens) : Stops 1 tokens := by
  obtain ⟨t, rest, kind, rfl, ht, hkind⟩ := h
  have hkind' : t.kind = kind := congrArg Terminal.kind ht
  rcases hkind with rfl | rfl | rfl <;> simp [hkind', strength]

theorem Closes.expression_absent {context : List Construct} {depth : Nat} (h : Closes tokens) :
    expression depth context tokens = .absent := by
  obtain ⟨t, rest, kind, rfl, ht, hkind⟩ := h
  apply Grammar.expression_absent ht
  rcases hkind with rfl | rfl | rfl <;> rfl

theorem Closes.identifier_absent {context : List Construct} (h : Closes tokens) :
    identifier context tokens = .absent := by
  obtain ⟨t, rest, kind, rfl, ht, -⟩ := h
  have hvalue : t.value = .none := congrArg Terminal.value ht
  simp [nameOf?, hvalue]

theorem Closes.ne_assign (h : Closes tokens) : ∀ t ∈ tokens.head?, t.kind ≠ .assign := by
  obtain ⟨t, rest, kind, rfl, ht, hkind⟩ := h
  have hkind' : t.kind = kind := congrArg Terminal.kind ht
  rcases hkind with rfl | rfl | rfl <;> simp [hkind']

theorem closes_cons {t : Token} {kind : TokenKind} (ht : ofToken t = word kind)
    (hkind : kind = .closeParen ∨ kind = .closeBracket ∨ kind = .closeBrace) :
    Closes (t :: tokens) :=
  ⟨t, tokens, kind, rfl, ht, hkind⟩

end Closes

/-! ## Operands -/

section Expressions

variable {depth : Nat}

/-- The tokens of a phrase between two words. -/
theorem map_eq_enclosed {used : List Token} {a b : Terminal} {u : List Terminal}
    (h : used.map ofToken = a :: u ++ [b]) :
    ∃ t mid t', used = t :: mid ++ [t'] ∧ ofToken t = a ∧ mid.map ofToken = u ∧ ofToken t' = b := by
  obtain ⟨t, used, rfl, ht, h⟩ := List.map_eq_cons_iff.mp h
  obtain ⟨mid, last, rfl, hmid, h⟩ := List.map_eq_append_iff.mp h
  obtain ⟨t', last, rfl, ht', h⟩ := List.map_eq_cons_iff.mp h
  obtain rfl := List.map_eq_nil_iff.mp h
  exact ⟨t, mid, t', rfl, ht, hmid, ht'⟩

theorem kind_of_word {t : Token} {kind : TokenKind} (ht : ofToken t = word kind) : t.kind = kind :=
  congrArg Terminal.kind ht

variable (hinner : Covers (expression depth) .expression (Stops 1) depth)
include hinner

theorem expressions_cover :
    Covers (separated .expectedExpression (depth + 1) (expression depth))
      (fun items => .separated (items.map .expression)) Closes depth :=
  separated_covers hinner (fun t _ ht => by simp [ht, strength]) (fun _ => Closes.stops)
    (fun _ _ => Closes.expression_absent) (Nat.le_succ depth) _

theorem list_covers {items : List Expr} {u : List Terminal}
    (hd : Derives (.separated (items.map .expression)) u) {used rest : List Token}
    {context : List Construct}
    (hused : used.map ofToken = word .openBracket :: u ++ [word .closeBracket])
    (hbound : used.length < depth + 1) :
    list (expression depth) (depth + 1) context (used ++ rest) = .read (.list items) rest := by
  obtain ⟨t, mid, t', rfl, ht, hmid, ht'⟩ := map_eq_enclosed hused
  simp only [List.length_cons, List.length_append] at hbound
  simp only [list, bind_eq_read, expect_eq_read, within_apply, require_eq_read, pure_eq_read]
  refine ⟨(), mid ++ t' :: rest, ⟨t, by simp, kind_of_word ht⟩, items, t' :: rest, ?_, (), rest,
    ⟨t', rfl, kind_of_word ht'⟩, rfl, rfl⟩
  exact expressions_cover hinner hd hmid (by omega) (closes_cons ht' (Or.inr (Or.inl rfl)))

theorem dictionaryEntry_covers :
    Covers (dictionaryEntry (expression depth)) .entry (Stops 1) depth := by
  intro entry u used rest context hd hused hbound hends
  cases hd with
  | entry hkey hvalue =>
    obtain ⟨used₁, used₂, rfl, h₁, h₂⟩ := List.map_eq_append_iff.mp hused
    obtain ⟨t, used₂, rfl, ht, h₂⟩ := List.map_eq_cons_iff.mp h₂
    rw [List.length_append, List.length_cons] at hbound
    have hcolon : Stops 1 (t :: used₂ ++ rest) := by simp [kind_of_word ht, strength]
    simp only [dictionaryEntry, required, bind_eq_read, require_eq_read, commit_eq_read,
      pure_eq_read, List.append_assoc]
    exact ⟨_, _, hinner hkey h₁ (by omega) hcolon, (), _, ⟨t, rfl, kind_of_word ht⟩, _, rest,
      hinner hvalue h₂ (by omega) hends, rfl, rfl⟩

theorem dictionary_covers {entries : List (Expr × Expr)} {u : List Terminal}
    (hd : Derives (.separated (entries.map .entry)) u) {used rest : List Token}
    {context : List Construct}
    (hused : used.map ofToken = word .openBrace :: u ++ [word .closeBrace])
    (hbound : used.length < depth + 1) :
    dictionary (expression depth) (depth + 1) context (used ++ rest) =
      .read (.dictionary entries) rest := by
  obtain ⟨t, mid, t', rfl, ht, hmid, ht'⟩ := map_eq_enclosed hused
  simp only [List.length_cons, List.length_append] at hbound
  simp only [dictionary, bind_eq_read, expect_eq_read, within_apply, require_eq_read, pure_eq_read]
  refine ⟨(), mid ++ t' :: rest, ⟨t, by simp, kind_of_word ht⟩, entries, t' :: rest, ?_, (), rest,
    ⟨t', rfl, kind_of_word ht'⟩, rfl, rfl⟩
  refine separated_covers (dictionaryEntry_covers hinner) (fun t _ ht => by simp [ht, strength])
    (fun _ => Closes.stops) ?_ (Nat.le_succ depth) _ hd hmid (by omega)
    (closes_cons ht' (Or.inr (Or.inr rfl)))
  intro rest context h
  simp only [dictionaryEntry, bind_eq_absent]
  exact Or.inl h.expression_absent

theorem parenthesized_covers {e : Expr} {u : List Terminal} (hd : Derives (.expression e) u)
    {used rest : List Token} {context : List Construct}
    (hused : used.map ofToken = word .openParen :: u ++ [word .closeParen])
    (hbound : used.length < depth + 1) :
    parenthesized (expression depth) context (used ++ rest) = .read e rest := by
  obtain ⟨t, mid, t', rfl, ht, hmid, ht'⟩ := map_eq_enclosed hused
  simp only [List.length_cons, List.length_append] at hbound
  simp only [parenthesized, required, bind_eq_read, expect_eq_read, within_apply, commit_eq_read,
    require_eq_read, pure_eq_read]
  refine ⟨(), mid ++ t' :: rest, ⟨t, by simp, kind_of_word ht⟩, e, t' :: rest, ?_, (), rest,
    ⟨t', rfl, kind_of_word ht'⟩, rfl, rfl⟩
  exact hinner hd hmid (by omega) (closes_cons ht' (Or.inl rfl)).stops

omit hinner in
theorem atom_reads {used rest : List Token} {context : List Construct} {a : Terminal} {e : Expr}
    (hused : used.map ofToken = [a]) (hatom : ∀ t, ofToken t = a → atom? t = some e) :
    token atom? context (used ++ rest) = .read e rest := by
  obtain ⟨t, used, rfl, ht, h⟩ := List.map_eq_cons_iff.mp hused
  obtain rfl := List.map_eq_nil_iff.mp h
  exact token_eq_read.mpr ⟨t, rfl, hatom t ht⟩

theorem primary_covers :
    Covers (primary (expression depth) (depth + 1)) .primary (fun _ => True) (depth + 1) := by
  intro e u used rest context hd hused hbound _
  have hword : ∀ t kind, ofToken t = word kind → t.kind = kind ∧ t.value = .none :=
    fun t kind ht => Terminal.mk.inj ht
  simp only [primary, orElse_eq_read]
  cases hd with
  | nameExpression | integer | float | string | true | false | null =>
    refine Or.inl (atom_reads hused ?_)
    intro t ht
    obtain ⟨hkind, hvalue⟩ := Terminal.mk.inj ht
    simp [atom?, hkind, hvalue]
  | list hitems =>
    refine Or.inr ⟨?_, Or.inl (list_covers hinner hitems hused hbound)⟩
    obtain ⟨t, _, _, rfl, ht, -⟩ := map_eq_enclosed hused
    simp [atom?, hword t _ ht]
  | dictionary hentries =>
    refine Or.inr ⟨?_, Or.inr ⟨?_, Or.inl (dictionary_covers hinner hentries hused hbound)⟩⟩
    all_goals obtain ⟨t, _, _, rfl, ht, -⟩ := map_eq_enclosed hused
    · simp [atom?, hword t _ ht]
    · simp [list, hword t _ ht]
  | parenthesized he =>
    refine Or.inr ⟨?_, Or.inr ⟨?_, Or.inr ⟨?_, parenthesized_covers hinner he hused hbound⟩⟩⟩
    all_goals obtain ⟨t, _, _, rfl, ht, -⟩ := map_eq_enclosed hused
    · simp [atom?, hword t _ ht]
    · simp [list, hword t _ ht]
    · simp [dictionary, hword t _ ht]

/-! ## What follows an operand -/

omit hinner in
/-- The arguments of a call that are written in order come apart again. -/
theorem arguments_inOrder (args : List Expr) (keywords : List (String × Expr)) :
    let arguments := args.map Argument.positional ++
      keywords.map fun k => Argument.keyword k.1 k.2
    Argument.inOrder arguments = true ∧ arguments.filterMap Argument.positional? = args ∧
      arguments.filterMap Argument.keyword? = keywords := by
  have hkeywords : ∀ a ∈ keywords.map fun k => Argument.keyword k.1 k.2, a.isKeyword = true := by
    intro a ha
    obtain ⟨k, -, rfl⟩ := List.mem_map.mp ha
    rfl
  refine ⟨?_, ?_, ?_⟩
  · rw [Argument.inOrder, List.dropWhile_append_of_pos, List.all_eq_true]
    · exact fun a ha => hkeywords a ((List.dropWhile_sublist _).subset ha)
    · intro a ha
      obtain ⟨e, -, rfl⟩ := List.mem_map.mp ha
      rfl
  · simp [List.filterMap_append, Function.comp_def, Argument.positional?]
  · simp [List.filterMap_append, Function.comp_def, Argument.keyword?]

/-- A positional argument that begins with a name is not taken for a keyword. -/
theorem keyword_absent {e : Expr} {u : List Terminal} {used rest : List Token}
    {context : List Construct} (hd : Derives (.expression e) u) (hused : used.map ofToken = u)
    (hbound : used.length < depth) (hends : Stops 1 rest)
    (hassign : ∀ t ∈ rest.head?, t.kind ≠ .assign) {α : Type} (f : String → Reader α) :
    (do let n ← identifier; expect .assign; f n) context (used ++ rest) = .absent := by
  obtain ⟨a, v, rfl, hagree, -⟩ := derives_operand hd trivial
  obtain ⟨t, used, rfl, rfl, -⟩ := List.map_eq_cons_iff.mp hused
  simp only [bind_eq_absent, identifier_eq_absent, identifier_eq_read, expect_eq_absent]
  cases hname : nameOf? t with
  | none => exact Or.inl (by simpa using hname)
  | some n =>
    have hvalue : t.value = .name n := nameOf?_eq_some.mp hname
    have hsign : sign? t = none := by
      have hkind := congrArg Terminal.kind (ofToken_eq_name hagree hvalue)
      simp [sign?, show t.kind = .name from hkind]
    refine Or.inr ⟨n, used ++ rest, ⟨t, rfl, hvalue⟩, Or.inl ?_⟩
    intro t' ht' hkind
    cases used with
    | nil => exact hassign t' ht' hkind
    | cons t'' used =>
      obtain rfl : t'' = t' := by simpa using ht'
      -- The name would be an expression alone, but all the tokens are read.
      have hread : expression depth context (t :: t'' :: used ++ rest) = _ :=
        hinner hd hused hbound hends
      cases depth with
      | zero => omega
      | succ depth =>
        rw [List.cons_append, List.cons_append, expression_name_assign hvalue hsign hkind] at hread
        have hlength := congrArg List.length (Reading.read.inj hread).2
        simp at hlength
        omega

theorem argument_covers :
    Covers (argument (expression depth)) .argument
      (fun rest => Stops 1 rest ∧ ∀ t ∈ rest.head?, t.kind ≠ .assign) depth := by
  rintro a u used rest context hd hused hbound ⟨hends, hassign⟩
  cases hd with
  | positional he =>
    refine orElse_eq_read.mpr (Or.inr ⟨?_, ?_⟩)
    · exact keyword_absent hinner he hused hbound hends hassign _
    · exact map_eq_read.mpr ⟨_, hinner he hused hbound hends, rfl⟩
  | keyword he =>
    obtain ⟨t, used, rfl, ht, hused⟩ := List.map_eq_cons_iff.mp hused
    obtain ⟨t', used, rfl, ht', hused⟩ := List.map_eq_cons_iff.mp hused
    simp only [List.length_cons] at hbound
    refine orElse_eq_read.mpr (Or.inl ?_)
    simp only [required, bind_eq_read, identifier_eq_read, expect_eq_read, commit_eq_read,
      pure_eq_read]
    exact ⟨_, _, ⟨t, rfl, congrArg Terminal.value ht⟩, (), _, ⟨t', rfl, kind_of_word ht'⟩, _, rest,
      hinner he hused (by omega) hends, rfl, rfl⟩

theorem callSuffix_covers {args : List Expr} {keywords : List (String × Expr)} {u : List Terminal}
    (hd : Derives (.separated (args.map (fun e => .argument (.positional e)) ++
      keywords.map fun k => .argument (.keyword k.1 k.2))) u) {used rest : List Token}
    {context : List Construct}
    (hused : used.map ofToken = word .openParen :: u ++ [word .closeParen])
    (hbound : used.length < depth + 1) :
    callSuffix (expression depth) (depth + 1) context (used ++ rest) =
      .read (.call args keywords) rest := by
  obtain ⟨t, mid, t', rfl, ht, hmid, ht'⟩ := map_eq_enclosed hused
  simp only [List.length_cons, List.length_append] at hbound
  let arguments := args.map Argument.positional ++ keywords.map fun k => Argument.keyword k.1 k.2
  obtain ⟨horder, hargs, hkeywords⟩ := arguments_inOrder args keywords
  have hd : Derives (.separated (arguments.map .argument)) u := by
    simpa [arguments, Function.comp_def] using hd
  simp only [callSuffix, bind_eq_read, expect_eq_read, within_apply, here_eq_read]
  refine ⟨(), mid ++ t' :: rest, ⟨t, by simp, kind_of_word ht⟩, _, _, ⟨rfl, rfl⟩, arguments,
    t' :: rest, ?_, ?_⟩
  · refine separated_covers (argument_covers hinner) ?_ ?_ ?_ (Nat.le_succ depth) _ hd hmid
      (by omega) (closes_cons ht' (Or.inl rfl))
    · intro t _ ht
      simp [ht, strength]
    · exact fun _ h => ⟨h.stops, h.ne_assign⟩
    · intro rest context h
      refine orElse_eq_absent.mpr ⟨?_, map_eq_absent.mpr h.expression_absent⟩
      simp only [bind_eq_absent]
      exact Or.inl h.identifier_absent
  · rw [if_pos horder, hargs, hkeywords]
    simp only [bind_eq_read, require_eq_read, pure_eq_read]
    exact ⟨(), rest, ⟨t', rfl, kind_of_word ht'⟩, trivial, rfl⟩

theorem indexSuffix_covers {key : Expr} {u : List Terminal} (hd : Derives (.expression key) u)
    {used rest : List Token} {context : List Construct}
    (hused : used.map ofToken = word .openBracket :: u ++ [word .closeBracket])
    (hbound : used.length < depth + 1) :
    indexSuffix (expression depth) context (used ++ rest) = .read (.index key) rest := by
  obtain ⟨t, mid, t', rfl, ht, hmid, ht'⟩ := map_eq_enclosed hused
  simp only [List.length_cons, List.length_append] at hbound
  simp only [indexSuffix, required, bind_eq_read, expect_eq_read, within_apply, commit_eq_read,
    require_eq_read, pure_eq_read]
  refine ⟨(), mid ++ t' :: rest, ⟨t, by simp, kind_of_word ht⟩, key, t' :: rest, ?_, (), rest,
    ⟨t', rfl, kind_of_word ht'⟩, rfl, rfl⟩
  exact hinner hd hmid (by omega) (closes_cons ht' (Or.inr (Or.inl rfl))).stops

theorem suffix_covers :
    Covers (suffix (expression depth) (depth + 1)) .suffix (fun _ => True) (depth + 1) := by
  intro s u used rest context hd hused hbound _
  simp only [suffix, orElse_eq_read]
  cases hd with
  | call hargs => exact Or.inl (callSuffix_covers hinner hargs hused hbound)
  | member n =>
    obtain ⟨t, used, rfl, ht, hused⟩ := List.map_eq_cons_iff.mp hused
    obtain ⟨t', used, rfl, ht', hused⟩ := List.map_eq_cons_iff.mp hused
    obtain rfl := List.map_eq_nil_iff.mp hused
    refine Or.inr ⟨?_, Or.inl ?_⟩
    · simp [callSuffix, kind_of_word ht]
    · simp only [memberSuffix, bind_eq_read, expect_eq_read, requireIdentifier_eq_read, pure_eq_read]
      exact ⟨(), _, ⟨t, rfl, kind_of_word ht⟩, n, rest, ⟨t', rfl, congrArg Terminal.value ht'⟩, rfl,
        rfl⟩
  | index hkey =>
    refine Or.inr ⟨?_, Or.inr ⟨?_, indexSuffix_covers hinner hkey hused hbound⟩⟩
    all_goals obtain ⟨t, _, _, rfl, ht, -⟩ := map_eq_enclosed hused
    · simp [callSuffix, kind_of_word ht]
    · simp [memberSuffix, kind_of_word ht]

theorem postfixed_covers :
    Covers (postfixed (expression depth) (depth + 1)) .postfixed (Stops 4) (depth + 1) := by
  intro e u used rest context hd hused hbound hends
  cases hd with
  | postfixed htarget hss =>
    obtain ⟨used₁, used₂, rfl, h₁, h₂⟩ := List.map_eq_append_iff.mp hused
    rw [List.length_append] at hbound
    simp only [postfixed, bind_eq_read, pure_eq_read, List.append_assoc]
    refine ⟨_, _, primary_covers hinner htarget h₁ (by omega) trivial, _, rest, ?_, rfl, rfl⟩
    refine many_covers (suffix_covers hinner) ?_ (fun _ _ => trivial) (fun _ _ => suffix_absent)
      (Nat.le_refl _) hss h₂ (by omega) hends
    intro s u hd
    cases hd <;> exact ⟨_, _, rfl, fun _ _ _ => trivial⟩

/-! ## Operators -/

omit hinner in
theorem derives_unary {e : Expr} {u : List Terminal} (h : Derives (.unary e) u) :
    ∃ (signs : List Sign) (operand : Expr) (v : List Terminal), e = signs.foldr Sign.apply operand ∧
      u = (signs.map fun s => word s.kind) ++ v ∧ Derives (.postfixed operand) v := by
  induction u generalizing e with
  | nil =>
    cases h with
    | unsigned h => exact ⟨[], e, [], rfl, rfl, h⟩
  | cons a u ih =>
    cases h with
    | not h =>
      obtain ⟨signs, operand, v, rfl, rfl, hd⟩ := ih h
      exact ⟨.not :: signs, operand, v, rfl, rfl, hd⟩
    | negative h =>
      obtain ⟨signs, operand, v, rfl, rfl, hd⟩ := ih h
      exact ⟨.minus :: signs, operand, v, rfl, rfl, hd⟩
    | unsigned h => exact ⟨[], e, _, rfl, rfl, h⟩

omit hinner in
theorem signs_read {signs : List Sign} {used rest : List Token} {context : List Construct}
    {limit : Nat} (hused : used.map ofToken = signs.map fun s => word s.kind)
    (hlimit : used.length ≤ limit) (hrest : ∀ t ∈ rest.head?, sign? t = none) :
    many (token sign?) limit context (used ++ rest) = .read signs rest := by
  induction signs generalizing used limit with
  | nil =>
    obtain rfl := List.map_eq_nil_iff.mp hused
    exact many_eq_nil (token_eq_absent.mpr hrest)
  | cons s signs ih =>
    obtain ⟨t, used, rfl, ht, hused⟩ := List.map_eq_cons_iff.mp hused
    cases limit with
    | zero => simp at hlimit
    | succ limit =>
      refine many_eq_cons (token_eq_read.mpr ⟨t, rfl, ?_⟩) (ih hused (by simpa using hlimit))
      rw [sign?_eq_some, kind_of_word ht]

omit hinner in
/-- An operand without signs begins with none. -/
theorem derives_postfixed_unsigned {e : Expr} {u : List Terminal} (h : Derives (.postfixed e) u) :
    ∃ a v, u = a :: v ∧ a.kind ≠ .not ∧ a.kind ≠ .minus := by
  cases h with
  | postfixed htarget _ =>
    cases htarget <;> exact ⟨_, _, rfl, nofun, nofun⟩

theorem unary_covers :
    Covers (unary (expression depth) (depth + 1)) .unary (Stops 4) (depth + 1) := by
  intro e u used rest context hd hused hbound hends
  obtain ⟨signs, operand, v, rfl, rfl, hoperand⟩ := derives_unary hd
  obtain ⟨used₁, used₂, rfl, h₁, h₂⟩ := List.map_eq_append_iff.mp hused
  rw [List.length_append] at hbound
  have hread : ∀ context, postfixed (expression depth) (depth + 1) context (used₂ ++ rest) =
      .read operand rest :=
    fun _ => postfixed_covers hinner hoperand h₂ (by omega) hends
  have hsigns : ∀ t ∈ (used₂ ++ rest).head?, sign? t = none := by
    obtain ⟨a, v, rfl, hnot, hminus⟩ := derives_postfixed_unsigned hoperand
    obtain ⟨t, used₂, rfl, rfl, -⟩ := List.map_eq_cons_iff.mp h₂
    intro t' ht'
    obtain rfl : t = t' := by simpa using ht'
    cases h : sign? t with
    | none => rfl
    | some s =>
      rw [sign?_eq_some] at h
      cases s with
      | not => exact absurd h hnot
      | minus => exact absurd h hminus
  simp only [unary, bind_eq_read, List.append_assoc]
  refine ⟨signs, used₂ ++ rest, signs_read h₁ (by omega) hsigns, ?_⟩
  cases signs with
  | nil => exact hread _
  | cons s signs =>
    simp only [required, bind_eq_read, commit_eq_read, pure_eq_read]
    exact ⟨operand, rest, hread _, rfl, rfl⟩

omit hinner in
theorem link_covers {operator? : Token → Option Operator} {operand : Reader Expr}
    {allowed : Operator → Prop} {φ : Expr → Phrase} {ψ : Operator × Expr → Phrase}
    {ends : List Token → Prop} {bound : Nat}
    (hop : ∀ {t op}, operator? t = some op ↔ allowed op ∧ t.kind = operatorKind op)
    (hcases : ∀ {op e u}, Derives (ψ (op, e)) u →
      allowed op ∧ ∃ v, Derives (φ e) v ∧ u = word (operatorKind op) :: v)
    (hoperand : Covers operand φ ends bound) : Covers (link operator? operand) ψ ends bound := by
  rintro ⟨op, e⟩ u used rest context hd hused hbound hends
  obtain ⟨hallowed, v, hv, rfl⟩ := hcases hd
  obtain ⟨t, used, rfl, ht, hused⟩ := List.map_eq_cons_iff.mp hused
  rw [List.length_cons] at hbound
  simp only [link, required, bind_eq_read, token_eq_read, commit_eq_read, pure_eq_read]
  exact ⟨op, _, ⟨t, rfl, hop.mpr ⟨hallowed, kind_of_word ht⟩⟩, e, rest,
    hoperand hv hused (by omega) hends, rfl, rfl⟩

omit hinner in
theorem leftGrouped_covers {operator? : Token → Option Operator} {operand : Reader Expr}
    {φ χ : Expr → Phrase} {ψ : Operator × Expr → Phrase} {n bound limit : Nat}
    (hcases : ∀ {e u}, Derives (χ e) u → ∃ first others v w, e = leftGroup first others ∧
      Derives (φ first) v ∧ Derives (.star (others.map ψ)) w ∧ u = v ++ w)
    (hoperand : Covers operand φ (Stops (n + 1)) bound)
    (hlink : Covers (link operator? operand) ψ (Stops (n + 1)) bound)
    (hnext : ∀ {l u}, Derives (ψ l) u → ∃ kind v, u = word kind :: v ∧ strength kind = n)
    (habsent : ∀ ⦃rest context⦄, Stops n rest → link operator? operand context rest = .absent)
    (hlimit : bound ≤ limit) : Covers (leftGrouped operator? operand limit) χ (Stops n) bound := by
  intro e u used rest context hd hused hbound hends
  obtain ⟨first, others, v, w, rfl, hv, hw, rfl⟩ := hcases hd
  obtain ⟨used₁, used₂, rfl, h₁, h₂⟩ := List.map_eq_append_iff.mp hused
  rw [List.length_append] at hbound
  have hnext : ∀ ⦃l u⦄, Derives (ψ l) u →
      ∃ b v, u = b :: v ∧ ∀ t rest, ofToken t = b → Stops (n + 1) (t :: rest) := by
    intro l u hd
    obtain ⟨kind, v, rfl, hkind⟩ := hnext hd
    refine ⟨_, v, rfl, fun t rest ht => ?_⟩
    rw [stops_cons, kind_of_word ht, hkind]
    exact Nat.lt_succ_self n
  have hends' : ∀ ⦃rest⦄, Stops n rest → Stops (n + 1) rest := fun _ h => h.mono (Nat.le_succ n)
  simp only [leftGrouped, bind_eq_read, pure_eq_read, List.append_assoc]
  exact ⟨first, used₂ ++ rest, hoperand hv h₁ (by omega) (star_ends hnext hends' hw h₂ hends),
    others, rest, many_covers hlink hnext hends' habsent hlimit hw h₂ (by omega) hends, rfl, rfl⟩

omit hinner in
theorem derives_productLink {op : Operator} {e : Expr} {u : List Terminal}
    (h : Derives (.productLink (op, e)) u) : (op = .multiply ∨ op = .divide) ∧
      ∃ v, Derives (.unary e) v ∧ u = word (operatorKind op) :: v := by
  cases h with
  | productLink hop he => exact ⟨hop, _, he, rfl⟩

omit hinner in
theorem derives_sumLink {op : Operator} {e : Expr} {u : List Terminal}
    (h : Derives (.sumLink (op, e)) u) : (op = .add ∨ op = .subtract) ∧
      ∃ v, Derives (.multiplicative e) v ∧ u = word (operatorKind op) :: v := by
  cases h with
  | sumLink hop he => exact ⟨hop, _, he, rfl⟩

theorem multiplicative_covers :
    Covers (multiplicative (expression depth) (depth + 1)) .multiplicative (Stops 3) (depth + 1) := by
  refine leftGrouped_covers ?_ (unary_covers hinner)
    (link_covers product?_eq_some derives_productLink (unary_covers hinner)) ?_
    (fun _ _ => productLink_absent) (Nat.le_refl _)
  · intro e u h
    cases h with
    | multiplicative hfirst hothers => exact ⟨_, _, _, _, rfl, hfirst, hothers, rfl⟩
  · rintro ⟨op, e⟩ u h
    obtain ⟨rfl | rfl, v, -, rfl⟩ := derives_productLink h
    · exact ⟨_, v, rfl, rfl⟩
    · exact ⟨_, v, rfl, rfl⟩

theorem additive_covers :
    Covers (additive (expression depth) (depth + 1)) .additive (Stops 2) (depth + 1) := by
  refine leftGrouped_covers ?_ (multiplicative_covers hinner)
    (link_covers sum?_eq_some derives_sumLink (multiplicative_covers hinner)) ?_
    (fun _ _ => sumLink_absent) (Nat.le_refl _)
  · intro e u h
    cases h with
    | additive hfirst hothers => exact ⟨_, _, _, _, rfl, hfirst, hothers, rfl⟩
  · rintro ⟨op, e⟩ u h
    obtain ⟨rfl | rfl, v, -, rfl⟩ := derives_sumLink h
    · exact ⟨_, v, rfl, rfl⟩
    · exact ⟨_, v, rfl, rfl⟩

theorem comparisonLink_covers :
    Covers (comparisonLink (additive (expression depth) (depth + 1))) .comparisonLink (Stops 2)
      (depth + 1) := by
  rintro ⟨op, e⟩ u used rest context hd hused hbound hends
  cases hd with
  | comparisonLink hop he =>
    obtain ⟨t, used, rfl, ht, hused⟩ := List.map_eq_cons_iff.mp hused
    rw [List.length_cons] at hbound
    simp only [comparisonLink, required, bind_eq_read, token_eq_read, within_apply, commit_eq_read,
      pure_eq_read]
    exact ⟨op, _, ⟨t, rfl, comparison?_eq_some.mpr ⟨hop, kind_of_word ht⟩⟩, e, rest,
      additive_covers hinner he hused (by omega) hends, rfl, rfl⟩

theorem comparison_covers :
    Covers (comparison (expression depth) (depth + 1)) .expression (Stops 1) (depth + 1) := by
  intro e u used rest context hd hused hbound hends
  cases hd with
  | expression hfirst hlinks =>
    obtain ⟨used₁, used₂, rfl, h₁, h₂⟩ := List.map_eq_append_iff.mp hused
    rw [List.length_append] at hbound
    have hnext : ∀ ⦃l u⦄, Derives (.comparisonLink l) u →
        ∃ b v, u = b :: v ∧ ∀ t rest, ofToken t = b → Stops 2 (t :: rest) := by
      intro l u hd
      cases hd with
      | @comparisonLink _ _ op hop _ =>
        refine ⟨_, _, rfl, fun t rest ht => ?_⟩
        rw [stops_cons, kind_of_word ht]
        cases op <;> simp_all [operatorKind, strength, Operator.isComparison]
    have hends' : ∀ ⦃rest⦄, Stops 1 rest → Stops 2 rest := fun _ h => h.mono (by decide)
    simp only [comparison, bind_eq_read, pure_eq_read, List.append_assoc]
    exact ⟨_, used₂ ++ rest, additive_covers hinner hfirst h₁ (by omega)
      (star_ends hnext hends' hlinks h₂ hends), _, rest,
      many_covers (comparisonLink_covers hinner) hnext hends' (fun _ _ => comparisonLink_absent)
        (Nat.le_refl _) hlinks h₂ (by omega) hends, rfl, rfl⟩

end Expressions

/-- Whatever tokens derive an expression are read as it, before a token that takes it no further. -/
theorem expression_covers (depth : Nat) :
    Covers (expression depth) .expression (Stops 1) depth := by
  induction depth with
  | zero =>
    intro e u used rest context _ _ hbound _
    exact absurd hbound (Nat.not_lt_zero _)
  | succ depth ih => exact comparison_covers ih

end Offside.Grammar
