import Offside.Proofs.Grammar.ExpressionCompleteness
import Offside.Proofs.Grammar.StatementSoundness

/-!
# Statements that are derived are read
-/

namespace Offside.Grammar

open Reader
open Terminal (ofToken word name)

/-! ## What stands around a statement -/

/-- The kinds of the tokens that a statement begins with. -/
def opensStatement (kind : TokenKind) : Bool :=
  match kind with
  | .funWord | .classWord | .returnWord | .ifWord | .whileWord | .forWord => true
  | .continueWord | .breakWord | .assertWord | .varWord | .passWord => true
  | _ => opensExpression kind

theorem opensStatement_of_opensExpression {kind : TokenKind} (h : opensExpression kind = true) :
    opensStatement kind = true := by
  unfold opensStatement
  split <;> first | rfl | exact h

theorem ne_of_opensStatement {kind kind' : TokenKind} (h : opensStatement kind = true)
    (h' : opensStatement kind' = false) : kind ≠ kind' := by
  rintro rfl
  exact absurd (h.symm.trans h') Bool.noConfusion

/-- No word that only statements begin with begins an expression. -/
theorem ne_of_opensExpression {t : Token} (h : opensExpression t.kind = true) :
    t.kind ≠ .funWord ∧ t.kind ≠ .classWord ∧ t.kind ≠ .returnWord ∧ t.kind ≠ .ifWord ∧
      t.kind ≠ .whileWord ∧ t.kind ≠ .forWord ∧ t.kind ≠ .continueWord ∧ t.kind ≠ .breakWord ∧
      t.kind ≠ .assertWord ∧ t.kind ≠ .varWord ∧ t.kind ≠ .passWord := by
  cases hkind : t.kind <;> simp_all [opensExpression]

theorem bindingTerminals_eq_cons (n : String) (isMutable : Bool) :
    ∃ v, bindingTerminals n isMutable = word .varWord :: v := by
  cases isMutable <;> exact ⟨_, rfl⟩

theorem derives_statement {ss : Block} {u : List Terminal} (h : Derives (.statement ss) u) :
    ∃ a v, u = a :: v ∧ opensStatement a.kind = true := by
  cases h with
  | functionStatement hf =>
    cases hf with
    | functionDefinition => exact ⟨_, _, rfl, rfl⟩
  | declaration n isMutable =>
    obtain ⟨v, hv⟩ := bindingTerminals_eq_cons n isMutable
    exact ⟨word .varWord, v ++ _, by rw [hv, List.cons_append], rfl⟩
  | @initialization _ _ n isMutable =>
    obtain ⟨v, hv⟩ := bindingTerminals_eq_cons n isMutable
    exact ⟨word .varWord, _, by rw [hv, List.cons_append, List.cons_append], rfl⟩
  | assignment htarget _ =>
    obtain ⟨a, v, rfl, -, ha⟩ := derives_operand htarget trivial
    exact ⟨a, _, rfl, opensStatement_of_opensExpression ha⟩
  | expressionStatement he =>
    obtain ⟨a, v, rfl, -, ha⟩ := derives_operand he trivial
    exact ⟨a, _, rfl, opensStatement_of_opensExpression ha⟩
  | _ => exact ⟨_, _, rfl, rfl⟩

/-- A statement may end here: no branch of it follows. -/
def NoElse (tokens : List Token) : Prop := ∀ t ∈ tokens.head?, t.kind ≠ .elseWord

/-- Items are none, or empty lines and statements in turn. -/
theorem Derives.itemsInduction {motive : ∀ b u, Derives (.items b) u → Prop}
    (nil : motive [] [] .itemsNil)
    (line : ∀ ss u h, motive ss u h → motive ss (word .newline :: u) (.itemsLine h))
    (statement : ∀ ss u rest v (hs : Derives (.statement ss) u) hrest, motive rest v hrest →
      motive (ss ++ rest) (u ++ v) (.itemsStatement hs hrest)) {b : Block} {u : List Terminal}
    (h : Derives (.items b) u) : motive b u h := by
  suffices hall : ∀ p (h : Derives p u) (hp : p = .items b), motive b u (hp ▸ h) from hall _ h rfl
  clear h
  intro p h hp
  induction h generalizing b with
  | itemsNil =>
    cases hp
    exact nil
  | itemsLine h ih =>
    cases hp
    exact line _ _ h (ih rfl)
  | itemsStatement hs hrest _ ih =>
    cases hp
    exact statement _ _ _ _ hs hrest (ih rfl)
  | _ => cases hp

theorem Derives.membersInduction {motive : ∀ ms u, Derives (.members ms) u → Prop}
    (nil : motive [] [] .membersNil)
    (line : ∀ ms u h, motive ms u h → motive ms (word .newline :: u) (.membersLine h))
    (pass : ∀ ms u h, motive ms u h →
      motive (none :: ms) (word .passWord :: word .newline :: u) (.membersPass h))
    (method : ∀ f u ms v (hf : Derives (.functionDefinition f) u) h, motive ms v h →
      motive (some f :: ms) (u ++ v) (.membersMethod hf h)) {ms : List (Option FunctionDef)}
    {u : List Terminal} (h : Derives (.members ms) u) : motive ms u h := by
  suffices hall : ∀ p (h : Derives p u) (hp : p = .members ms), motive ms u (hp ▸ h) from
    hall _ h rfl
  clear h
  intro p h hp
  induction h generalizing ms with
  | membersNil =>
    cases hp
    exact nil
  | membersLine h ih =>
    cases hp
    exact line _ _ h (ih rfl)
  | membersPass h ih =>
    cases hp
    exact pass _ _ h (ih rfl)
  | membersMethod hf h _ ih =>
    cases hp
    exact method _ _ _ _ hf h (ih rfl)
  | _ => cases hp

/-- A block or the program ends here. -/
def EndsBlock (tokens : List Token) : Prop :=
  ∃ t rest, tokens = t :: rest ∧ (t.kind = .dedent ∨ t.kind = .endOfFile)

/-- Items leave no branch to the statement before them. -/
theorem noElse_of_items {b : Block} {u : List Terminal} (h : Derives (.items b) u)
    {used rest : List Token} (hused : used.map ofToken = u) (hends : EndsBlock rest) :
    NoElse (used ++ rest) := by
  have hhead : ∀ {a v t}, u = a :: v → a.kind ≠ .elseWord → t ∈ (used ++ rest).head? →
      t.kind ≠ .elseWord := by
    rintro a v t rfl ha ht
    obtain ⟨t', used, rfl, rfl, -⟩ := List.map_eq_cons_iff.mp hused
    obtain rfl : t' = t := by simpa using ht
    exact ha
  intro t ht
  cases h with
  | itemsNil =>
    obtain ⟨t', rest, rfl, hkind⟩ := hends
    obtain rfl := List.map_eq_nil_iff.mp hused
    obtain rfl : t' = t := by simpa using ht
    rcases hkind with hkind | hkind <;> simp [hkind]
  | itemsLine => exact hhead rfl nofun ht
  | itemsStatement hs _ =>
    obtain ⟨a, v, rfl, ha⟩ := derives_statement hs
    exact hhead rfl (ne_of_opensStatement ha rfl) ht

/-! ## Blocks -/

section Lines

variable {α : Type} {r : Reader α} {context : List Construct} {limit : Nat} {t : Token}
  {tokens rest : List Token}

/-- A reader that skips empty lines may be repeated from before one as well. -/
theorem many_newline (hr : r context (t :: tokens) = r context tokens) (ht : t.kind = .newline)
    {as : List α} {mid : List Token} (hread : many r limit context tokens = .read as mid)
    (hmid : (mid.dropWhile fun t => t.kind = .newline) = rest) :
    ∃ mid', many r limit context (t :: tokens) = .read as mid' ∧
      (mid'.dropWhile fun t => t.kind = .newline) = rest := by
  cases limit with
  | zero =>
    obtain ⟨rfl, rfl⟩ := pure_eq_read.mp hread
    exact ⟨t :: tokens, rfl, by simpa [ht] using hmid⟩
  | succ limit =>
    rw [many_succ, orElse_eq_read] at hread
    rcases hread with hread | ⟨habsent, hread⟩
    · refine ⟨mid, ?_, hmid⟩
      rw [many_succ, orElse_eq_read]
      refine Or.inl ?_
      rw [bind_eq_read] at hread ⊢
      rw [hr]
      exact hread
    · obtain ⟨rfl, rfl⟩ := pure_eq_read.mp hread
      refine ⟨t :: tokens, many_eq_nil ?_, by simpa [ht] using hmid⟩
      rw [hr]
      simpa using habsent

theorem skipNewlines_bind_newline {f : Unit → Reader α} (ht : t.kind = .newline) :
    (skipNewlines >>= f) context (t :: tokens) = (skipNewlines >>= f) context tokens := by
  show Reader.bind skipNewlines f context _ = Reader.bind skipNewlines f context _
  simp [Reader.bind, skipNewlines, ht]

theorem skipNewlines_bind_apply {f : Unit → Reader α} (ht : t.kind ≠ .newline) :
    (skipNewlines >>= f) context (t :: tokens) = f () context (t :: tokens) := by
  show Reader.bind skipNewlines f context _ = _
  simp [Reader.bind, skipNewlines, ht]

end Lines

section Statements

variable {depth : Nat}

theorem items_cover (hinner : Covers (statement depth) .statement NoElse depth) {b : Block}
    {u : List Terminal} (hd : Derives (.items b) u) :
    ∀ {used rest : List Token} {context : List Construct} {limit : Nat}, used.map ofToken = u →
      used.length < depth → used.length ≤ limit → EndsBlock rest →
      ∃ lines mid, b = lines.flatten ∧
        many (nextLine (statement depth)) limit context (used ++ rest) = .read lines mid ∧
        (mid.dropWhile fun t => t.kind = .newline) = rest := by
  induction hd using Derives.itemsInduction with
  | nil =>
    intro used rest context limit hused _ _ hends
    obtain rfl := List.map_eq_nil_iff.mp hused
    obtain ⟨t, rest, rfl, hkind⟩ := hends
    refine ⟨[], t :: rest, rfl, many_eq_nil ?_, ?_⟩
    · rcases hkind with hkind | hkind <;> simp [nextLine, atEnd, hkind]
    · rcases hkind with hkind | hkind <;> simp [hkind]
  | line ss u _ ih =>
    intro used rest context limit hused hbound hlimit hends
    obtain ⟨t, used, rfl, ht, hused⟩ := List.map_eq_cons_iff.mp hused
    rw [List.length_cons] at hbound hlimit
    obtain ⟨lines, mid, rfl, hread, hmid⟩ :=
      ih hused (by omega) (Nat.le_of_succ_le hlimit) hends
    obtain ⟨mid', hread, hmid⟩ :=
      many_newline (skipNewlines_bind_newline (kind_of_word ht)) (kind_of_word ht) hread hmid
    exact ⟨lines, mid', rfl, hread, hmid⟩
  | statement ss u b v hs hrest ih =>
    intro used rest context limit hused hbound hlimit hends
    obtain ⟨used₁, used₂, rfl, h₁, h₂⟩ := List.map_eq_append_iff.mp hused
    obtain ⟨a, u, rfl, ha⟩ := derives_statement hs
    obtain ⟨t, used₁, rfl, rfl, -⟩ := List.map_eq_cons_iff.mp h₁
    rw [List.length_append, List.length_cons] at hbound hlimit
    cases limit with
    | zero => omega
    | succ limit =>
      obtain ⟨lines, mid, rfl, hread, hmid⟩ :=
        ih h₂ (by omega) (show used₂.length ≤ limit by omega) hends
      refine ⟨ss :: lines, mid, rfl, ?_, hmid⟩
      rw [List.append_assoc]
      refine many_eq_cons ?_ hread
      simp only [nextLine, bind_eq_read, skipNewlines_eq_read]
      refine ⟨(), t :: used₁ ++ (used₂ ++ rest), ?_, false, t :: used₁ ++ (used₂ ++ rest), ?_, ?_⟩
      · have hline : t.kind ≠ .newline := ne_of_opensStatement ha rfl
        simp [hline]
      · have hdedent : t.kind ≠ .dedent := ne_of_opensStatement ha rfl
        have hend : t.kind ≠ .endOfFile := ne_of_opensStatement ha rfl
        simp only [atEnd, List.cons_append, hdedent, hend, decide_false, Bool.or_self]
      · exact hinner hs h₁ (by rw [List.length_cons]; omega) (noElse_of_items hrest h₂ hends)

variable (hinner : Covers (statement depth) .statement NoElse depth)
include hinner

theorem statements_cover {limit : Nat} (hlimit : depth ≤ limit) :
    Covers (statements (statement depth) limit) .items EndsBlock depth := by
  intro b u used rest context hd hused hbound hends
  obtain ⟨lines, mid, rfl, hread, hmid⟩ :=
    items_cover hinner hd hused hbound (Nat.le_of_lt (Nat.lt_of_lt_of_le hbound hlimit)) hends
  simp only [statements, bind_eq_read, skipNewlines_eq_read, pure_eq_read]
  exact ⟨lines, mid, hread, (), rest, hmid, rfl, rfl⟩

theorem block_covers :
    Covers (block (statement depth) (depth + 1)) .block (fun _ => True) (depth + 1) := by
  intro b u used rest context hd hused hbound _
  cases hd with
  | block hbody hne =>
    obtain ⟨t, mid, t', rfl, ht, hmid, ht'⟩ := map_eq_enclosed hused
    simp only [List.length_cons, List.length_append] at hbound
    simp only [block, within_apply, bind_eq_read, require_eq_read, here_eq_read]
    refine ⟨(), mid ++ t' :: rest, ⟨t, by simp, kind_of_word ht⟩, _, _, ⟨rfl, rfl⟩, b, t' :: rest,
      ?_, ?_⟩
    · exact statements_cover hinner (Nat.le_succ depth) hbody hmid (by omega)
        ⟨t', rest, rfl, Or.inl (kind_of_word ht')⟩
    · rw [if_neg (by simpa using hne)]
      simp only [bind_eq_read, require_eq_read, pure_eq_read]
      exact ⟨(), rest, ⟨t', rfl, kind_of_word ht'⟩, trivial, rfl⟩

theorem headedBlock_covers :
    Covers (headedBlock (statement depth) (depth + 1)) .headedBlock (fun _ => True) (depth + 1) := by
  intro b u used rest context hd hused hbound _
  cases hd with
  | headedBlock hbody =>
    obtain ⟨t, used, rfl, ht, hused⟩ := List.map_eq_cons_iff.mp hused
    obtain ⟨t', used, rfl, ht', hused⟩ := List.map_eq_cons_iff.mp hused
    simp only [List.length_cons] at hbound
    simp only [headedBlock, bind_eq_read, require_eq_read]
    exact ⟨(), _, ⟨t, rfl, kind_of_word ht⟩, (), _, ⟨t', rfl, kind_of_word ht'⟩,
      block_covers hinner hbody hused (by omega) trivial⟩

/-! ## Definitions -/

omit hinner in
theorem identifier_covers : Covers identifier .parameter (fun _ => True) depth := by
  intro n u used rest context hd hused _ _
  cases hd with
  | parameter =>
    obtain ⟨t, used, rfl, ht, hused⟩ := List.map_eq_cons_iff.mp hused
    obtain rfl := List.map_eq_nil_iff.mp hused
    exact identifier_eq_read.mpr ⟨t, rfl, congrArg Terminal.value ht⟩

omit hinner in
theorem parameters_cover :
    Covers (parameters (depth + 1)) (fun names => .separated (names.map .parameter)) Closes
      depth :=
  separated_covers identifier_covers (fun _ _ _ => trivial) (fun _ _ => trivial)
    (fun _ _ => Closes.identifier_absent) (Nat.le_succ depth) _

theorem functionDefinition_covers :
    Covers (functionDefinition (statement depth) (depth + 1)) .functionDefinition (fun _ => True)
      (depth + 1) := by
  intro f u used rest context hd hused hbound _
  cases hd with
  | functionDefinition hnames hbody =>
    simp only [List.cons_append] at hused
    obtain ⟨t, used, rfl, ht, hused⟩ := List.map_eq_cons_iff.mp hused
    obtain ⟨t', used, rfl, ht', hused⟩ := List.map_eq_cons_iff.mp hused
    obtain ⟨t₁, used, rfl, ht₁, hused⟩ := List.map_eq_cons_iff.mp hused
    obtain ⟨used₁, used, rfl, h₁, hused⟩ := List.map_eq_append_iff.mp hused
    obtain ⟨t₂, used, rfl, ht₂, hused⟩ := List.map_eq_cons_iff.mp hused
    simp only [List.length_cons, List.length_append] at hbound
    simp only [functionDefinition, bind_eq_read, expect_eq_read, within_apply,
      requireIdentifier_eq_read, require_eq_read, pure_eq_read]
    refine ⟨(), _, ⟨t, rfl, kind_of_word ht⟩, _, _, ⟨t', rfl, congrArg Terminal.value ht'⟩, (),
      used₁ ++ t₂ :: (used ++ rest), ⟨t₁, by simp, kind_of_word ht₁⟩, _, t₂ :: (used ++ rest), ?_, (),
      _, ⟨t₂, rfl, kind_of_word ht₂⟩, _, rest,
      headedBlock_covers hinner hbody hused (by omega) trivial, rfl, rfl⟩
    exact parameters_cover hnames h₁ (by omega) (closes_cons ht₂ (Or.inl rfl))

omit hinner in
theorem nextMember_eq {t : Token} {tokens : List Token} {context : List Construct}
    {limit : Nat} {inner : Reader Block} (hline : t.kind ≠ .newline) (hdedent : t.kind ≠ .dedent) :
    nextMember inner limit context (t :: tokens) =
      commit .invalidClassMember (classMember inner limit) context (t :: tokens) := by
  unfold nextMember
  rw [skipNewlines_bind_apply hline]
  show (if (t :: tokens).head?.any fun t => t.kind = .dedent then absent
    else commit .invalidClassMember (classMember inner limit)) context (t :: tokens) = _
  rw [if_neg (by simpa using hdedent)]

omit hinner in
theorem derives_functionDefinition {f : FunctionDef} {u : List Terminal}
    (h : Derives (.functionDefinition f) u) : ∃ v, u = word .funWord :: v := by
  cases h with
  | functionDefinition => exact ⟨_, rfl⟩

theorem members_cover {ms : List (Option FunctionDef)} {u : List Terminal}
    (hd : Derives (.members ms) u) : ∀ {used rest : List Token} {t : Token}
      {context : List Construct} {limit : Nat}, used.map ofToken = u → used.length < depth + 1 →
      used.length ≤ limit → t.kind = .dedent →
      ∃ mid, many (nextMember (statement depth) (depth + 1)) limit context (used ++ t :: rest) =
        .read ms mid ∧ (mid.dropWhile fun t => t.kind = .newline) = t :: rest := by
  induction hd using Derives.membersInduction with
  | nil =>
    intro used rest t context limit hused _ _ hkind
    obtain rfl := List.map_eq_nil_iff.mp hused
    refine ⟨t :: rest, many_eq_nil ?_, by simp [hkind]⟩
    simp [nextMember, hkind]
  | line ms u _ ih =>
    intro used rest t' context limit hused hbound hlimit hkind
    obtain ⟨t, used, rfl, ht, hused⟩ := List.map_eq_cons_iff.mp hused
    rw [List.length_cons] at hbound hlimit
    obtain ⟨mid, hread, hmid⟩ :=
      ih hused (by omega) (Nat.le_of_succ_le hlimit) hkind
    exact many_newline (skipNewlines_bind_newline (kind_of_word ht)) (kind_of_word ht) hread hmid
  | pass ms u _ ih =>
    intro used rest t₁ context limit hused hbound hlimit hkind₁
    obtain ⟨t, used, rfl, ht, hused⟩ := List.map_eq_cons_iff.mp hused
    obtain ⟨t', used, rfl, ht', hused⟩ := List.map_eq_cons_iff.mp hused
    simp only [List.length_cons] at hbound hlimit
    have hkind : t.kind = .passWord := kind_of_word ht
    cases limit with
    | zero => omega
    | succ limit =>
      obtain ⟨mid, hread, hmid⟩ :=
        ih hused (by omega) (show used.length ≤ limit by omega) hkind₁
      refine ⟨mid, many_eq_cons ?_ hread, hmid⟩
      rw [List.cons_append, nextMember_eq (by simp [hkind]) (by simp [hkind]), commit_eq_read]
      refine orElse_eq_read.mpr (Or.inl ?_)
      simp only [bind_eq_read, expect_eq_read, require_eq_read, pure_eq_read]
      exact ⟨(), _, ⟨t, rfl, hkind⟩, (), _, ⟨t', rfl, kind_of_word ht'⟩, trivial, rfl⟩
  | method f u ms v hf _ ih =>
    intro used rest t₁ context limit hused hbound hlimit hkind₁
    obtain ⟨used₁, used₂, rfl, h₁, h₂⟩ := List.map_eq_append_iff.mp hused
    obtain ⟨u, rfl⟩ := derives_functionDefinition hf
    obtain ⟨t, used₁, rfl, ht, -⟩ := List.map_eq_cons_iff.mp h₁
    rw [List.length_append, List.length_cons] at hbound hlimit
    have hkind : t.kind = .funWord := kind_of_word ht
    cases limit with
    | zero => omega
    | succ limit =>
      obtain ⟨mid, hread, hmid⟩ :=
        ih h₂ (by omega) (show used₂.length ≤ limit by omega) hkind₁
      refine ⟨mid, ?_, hmid⟩
      rw [List.append_assoc]
      refine many_eq_cons ?_ hread
      rw [List.cons_append, nextMember_eq (by simp [hkind]) (by simp [hkind]), commit_eq_read]
      refine orElse_eq_read.mpr (Or.inr ⟨by simp [hkind], map_eq_read.mpr ⟨f, ?_, rfl⟩⟩)
      exact functionDefinition_covers hinner hf h₁ (by rw [List.length_cons]; omega) trivial

theorem classMembers_cover {ms : List (Option FunctionDef)} {u : List Terminal}
    (hd : Derives (.members ms) u) {used rest : List Token} {t : Token} {context : List Construct}
    (hused : used.map ofToken = u) (hbound : used.length < depth + 1) (ht : t.kind = .dedent) :
    classMembers (statement depth) (depth + 1) context (used ++ t :: rest) =
      .read ms (t :: rest) := by
  obtain ⟨mid, hread, hmid⟩ :=
    members_cover hinner hd hused hbound (Nat.le_of_lt hbound) ht
  simp only [classMembers, bind_eq_read, skipNewlines_eq_read, pure_eq_read]
  exact ⟨ms, mid, hread, (), _, hmid, rfl, rfl⟩

theorem classDefinition_covers {n : String} {ms : List (Option FunctionDef)} {u : List Terminal}
    (hd : Derives (.members ms) u) (hne : ms ≠ []) {used rest : List Token}
    {context : List Construct}
    (hused : used.map ofToken = word .classWord :: name n :: word .colon :: word .newline ::
      word .indent :: u ++ [word .dedent]) (hbound : used.length < depth + 1) :
    classDefinition (statement depth) (depth + 1) context (used ++ rest) =
      .read (.classDef n (ms.filterMap id)) rest := by
  simp only [List.cons_append] at hused
  obtain ⟨t, used, rfl, ht, hused⟩ := List.map_eq_cons_iff.mp hused
  obtain ⟨t₁, used, rfl, ht₁, hused⟩ := List.map_eq_cons_iff.mp hused
  obtain ⟨t₂, used, rfl, ht₂, hused⟩ := List.map_eq_cons_iff.mp hused
  obtain ⟨t₃, used, rfl, ht₃, hused⟩ := List.map_eq_cons_iff.mp hused
  obtain ⟨t₄, used, rfl, ht₄, hused⟩ := List.map_eq_cons_iff.mp hused
  obtain ⟨mid, last, rfl, hmid, hused⟩ := List.map_eq_append_iff.mp hused
  obtain ⟨t₅, last, rfl, ht₅, hused⟩ := List.map_eq_cons_iff.mp hused
  obtain rfl := List.map_eq_nil_iff.mp hused
  simp only [List.length_cons, List.length_append] at hbound
  simp only [classDefinition, bind_eq_read, expect_eq_read, within_apply,
    requireIdentifier_eq_read, require_eq_read, here_eq_read]
  refine ⟨(), _, ⟨t, rfl, kind_of_word ht⟩, n, _, ⟨t₁, rfl, congrArg Terminal.value ht₁⟩, (), _,
    ⟨t₂, rfl, kind_of_word ht₂⟩, (), _, ⟨t₃, rfl, kind_of_word ht₃⟩, (), mid ++ t₅ :: rest,
    ⟨t₄, by simp, kind_of_word ht₄⟩, _, _, ⟨rfl, rfl⟩, ms, t₅ :: rest,
    classMembers_cover hinner hd hmid (by omega) (kind_of_word ht₅), ?_⟩
  rw [if_neg (by simpa using hne)]
  simp only [bind_eq_read, require_eq_read, pure_eq_read]
  exact ⟨(), rest, ⟨t₅, rfl, kind_of_word ht₅⟩, trivial, rfl⟩

/-! ## Branches and loops -/

/-- A header's test ends at the block after it. -/
theorem tested_covers {e : Expr} {body : Block} {u v : List Terminal}
    (he : Derives (.expression e) u) (hbody : Derives (.headedBlock body) v) {used rest : List Token}
    {context context' : List Construct} (hused : used.map ofToken = u ++ v)
    (hbound : used.length < depth + 1) :
    ∃ mid, expression (depth + 1) context (used ++ rest) = .read e mid ∧
      headedBlock (statement depth) (depth + 1) context' mid = .read body rest := by
  obtain ⟨used₁, used₂, rfl, h₁, h₂⟩ := List.map_eq_append_iff.mp hused
  rw [List.length_append] at hbound
  refine ⟨used₂ ++ rest, ?_, headedBlock_covers hinner hbody h₂ (by omega) trivial⟩
  rw [List.append_assoc]
  refine expression_covers (depth + 1) he h₁ (by omega) ?_
  cases hbody with
  | headedBlock =>
    obtain ⟨t, used₂, rfl, ht, -⟩ := List.map_eq_cons_iff.mp h₂
    simp [kind_of_word ht, strength]

theorem elseIf_covers :
    Covers (elseIf (statement depth) (depth + 1)) .elseIf (fun _ => True) (depth + 1) := by
  intro branch u used rest context hd hused hbound _
  cases hd with
  | elseIf htest hbody =>
    simp only [List.cons_append] at hused
    obtain ⟨t, used, rfl, ht, hused⟩ := List.map_eq_cons_iff.mp hused
    obtain ⟨t', used, rfl, ht', hused⟩ := List.map_eq_cons_iff.mp hused
    simp only [List.length_cons] at hbound
    simp only [elseIf, required, bind_eq_read, expect_eq_read, commit_eq_read, pure_eq_read]
    obtain ⟨mid, hexpression, hblock⟩ := tested_covers hinner htest hbody hused (by omega)
    exact ⟨(), _, ⟨t, rfl, kind_of_word ht⟩, (), _, ⟨t', rfl, kind_of_word ht'⟩, _, mid,
      hexpression, _, rest, hblock, rfl, rfl⟩

omit hinner in
theorem elseIf_absent {branch : Option Block} {u : List Terminal}
    (hd : Derives (.otherwise branch) u) {used rest : List Token} {context : List Construct}
    (hused : used.map ofToken = u) (hends : NoElse rest) :
    elseIf (statement depth) (depth + 1) context (used ++ rest) = .absent := by
  simp only [elseIf, bind_eq_absent, expect_eq_absent, expect_eq_read]
  cases hd with
  | otherwiseNone =>
    rw [List.map_eq_nil_iff.mp hused]
    exact Or.inl hends
  | otherwiseSome hbody =>
    cases hbody with
    | headedBlock =>
      obtain ⟨t, used, rfl, ht, hused⟩ := List.map_eq_cons_iff.mp hused
      obtain ⟨t', used, rfl, ht', -⟩ := List.map_eq_cons_iff.mp hused
      refine Or.inr ⟨(), _, ⟨t, rfl, kind_of_word ht⟩, Or.inl ?_⟩
      simp [kind_of_word ht']

theorem elseIfs_cover :
    Covers (many (elseIf (statement depth) (depth + 1)) (depth + 1))
      (fun branches => .star (branches.map .elseIf))
      (fun rest => ∀ context, elseIf (statement depth) (depth + 1) context rest = .absent)
      (depth + 1) := by
  refine many_covers (elseIf_covers hinner) ?_ (fun _ _ => trivial) (fun _ _ h => h _)
    (Nat.le_refl _)
  intro branch u hd
  cases hd
  exact ⟨_, _, rfl, fun _ _ _ => trivial⟩

theorem otherwise_covers :
    Covers (Reader.optional do expect .elseWord; headedBlock (statement depth) (depth + 1))
      .otherwise NoElse (depth + 1) := by
  intro branch u used rest context hd hused hbound hends
  simp only [Reader.optional, orElse_eq_read, map_eq_read, map_eq_absent, bind_eq_read,
    bind_eq_absent, expect_eq_read, expect_eq_absent, pure_eq_read]
  cases hd with
  | otherwiseNone =>
    obtain rfl := List.map_eq_nil_iff.mp hused
    exact Or.inr ⟨Or.inl hends, rfl, rfl⟩
  | otherwiseSome hbody =>
    obtain ⟨t, used, rfl, ht, hused⟩ := List.map_eq_cons_iff.mp hused
    rw [List.length_cons] at hbound
    exact Or.inl ⟨_, ⟨(), _, ⟨t, rfl, kind_of_word ht⟩,
      headedBlock_covers hinner hbody hused (by omega) trivial⟩, rfl⟩

theorem ifStatement_covers {test : Expr} {body : Block} {elseIfs : List ElseIf}
    {branch : Option Block} {u v w x : List Terminal} (htest : Derives (.expression test) u)
    (hbody : Derives (.headedBlock body) v) (helseIfs : Derives (.star (elseIfs.map .elseIf)) w)
    (hbranch : Derives (.otherwise branch) x) {used rest : List Token} {context : List Construct}
    (hused : used.map ofToken = word .ifWord :: u ++ v ++ w ++ x) (hbound : used.length < depth + 1)
    (hends : NoElse rest) :
    ifStatement (statement depth) (depth + 1) context (used ++ rest) =
      .read (.ifElse test body elseIfs branch) rest := by
  simp only [List.cons_append] at hused
  obtain ⟨t, used, rfl, ht, hused⟩ := List.map_eq_cons_iff.mp hused
  obtain ⟨used, used₃, rfl, hused, h₃⟩ := List.map_eq_append_iff.mp hused
  obtain ⟨used, used₂, rfl, hused, h₂⟩ := List.map_eq_append_iff.mp hused
  simp only [List.length_cons, List.length_append] at hbound
  simp only [ifStatement, required, bind_eq_read, expect_eq_read, within_apply, commit_eq_read,
    pure_eq_read, List.cons_append, List.append_assoc]
  obtain ⟨mid, hexpression, hblock⟩ := tested_covers hinner htest hbody hused (by omega)
  refine ⟨(), _, ⟨t, rfl, kind_of_word ht⟩, test, mid, hexpression, body,
    used₂ ++ (used₃ ++ rest), hblock, elseIfs, used₃ ++ rest, ?_, branch, rest,
    otherwise_covers hinner hbranch h₃ (by omega) hends, rfl, rfl⟩
  exact elseIfs_cover hinner helseIfs h₂ (by omega) fun _ => elseIf_absent hbranch h₃ hends

theorem whileStatement_covers {test : Expr} {body : Block} {u v : List Terminal}
    (htest : Derives (.expression test) u) (hbody : Derives (.headedBlock body) v)
    {used rest : List Token} {context : List Construct}
    (hused : used.map ofToken = word .whileWord :: u ++ v) (hbound : used.length < depth + 1) :
    whileStatement (statement depth) (depth + 1) context (used ++ rest) =
      .read (.whileLoop test body) rest := by
  obtain ⟨t, used, rfl, ht, hused⟩ := List.map_eq_cons_iff.mp hused
  rw [List.length_cons] at hbound
  simp only [whileStatement, required, bind_eq_read, expect_eq_read, within_apply, commit_eq_read,
    pure_eq_read]
  obtain ⟨mid, hexpression, hblock⟩ := tested_covers hinner htest hbody hused (by omega)
  exact ⟨(), _, ⟨t, rfl, kind_of_word ht⟩, test, mid, hexpression, body, rest, hblock, rfl, rfl⟩

omit hinner in
/-- Whether a declared variable is mutable is read, up to its name. -/
theorem mutability_reads {n : String} {isMutable : Bool} {used : List Token}
    (hused : used.map ofToken = bindingTerminals n isMutable) :
    ∃ t used' t', used = t :: used' ∧ t.kind = .varWord ∧ ofToken t' = name n ∧
      ∀ context rest, mutability context (used' ++ rest) = .read isMutable (t' :: rest) := by
  cases isMutable with
  | false =>
    obtain ⟨t, used, rfl, ht, hused⟩ := List.map_eq_cons_iff.mp hused
    obtain ⟨t', used, rfl, ht', hused⟩ := List.map_eq_cons_iff.mp hused
    obtain rfl := List.map_eq_nil_iff.mp hused
    have hkind : t'.kind = .name := congrArg Terminal.kind ht'
    exact ⟨t, [t'], t', rfl, kind_of_word ht, ht', fun _ _ => by
      simp [mutability, Reader.optional, hkind]⟩
  | true =>
    obtain ⟨t, used, rfl, ht, hused⟩ := List.map_eq_cons_iff.mp hused
    obtain ⟨t₁, used, rfl, ht₁, hused⟩ := List.map_eq_cons_iff.mp hused
    obtain ⟨t', used, rfl, ht', hused⟩ := List.map_eq_cons_iff.mp hused
    obtain rfl := List.map_eq_nil_iff.mp hused
    exact ⟨t, [t₁, t'], t', rfl, kind_of_word ht, ht', fun _ _ => by
      simp [mutability, Reader.optional, kind_of_word ht₁]⟩

omit hinner in
theorem loopVariable_reads {binder : LoopVariable} {used rest : List Token}
    {context : List Construct} (hused : used.map ofToken = loopTerminals binder) :
    loopVariable context (used ++ rest) = .read binder rest := by
  simp only [loopVariable, orElse_eq_read, bind_eq_read, bind_eq_absent, map_eq_read,
    expect_eq_read, expect_eq_absent, requireIdentifier_eq_read, pure_eq_read]
  cases binder with
  | name n =>
    obtain ⟨t, used, rfl, ht, hused⟩ := List.map_eq_cons_iff.mp hused
    obtain rfl := List.map_eq_nil_iff.mp hused
    have hkind : t.kind = .name := congrArg Terminal.kind ht
    exact Or.inr ⟨Or.inl (by simp [hkind]), n, ⟨t, rfl, congrArg Terminal.value ht⟩, rfl⟩
  | declared n isMutable =>
    obtain ⟨t, used, t', rfl, ht, ht', hmut⟩ := mutability_reads hused
    exact Or.inl ⟨(), _, ⟨t, rfl, ht⟩, isMutable, _, hmut _ _, n, rest,
      ⟨t', rfl, congrArg Terminal.value ht'⟩, rfl, rfl⟩

theorem forStatement_covers {binder : LoopVariable} {iterable : Expr} {body : Block}
    {u v : List Terminal} (hiterable : Derives (.expression iterable) u)
    (hbody : Derives (.headedBlock body) v) {used rest : List Token} {context : List Construct}
    (hused : used.map ofToken = word .forWord :: loopTerminals binder ++ word .inWord :: u ++ v)
    (hbound : used.length < depth + 1) :
    forStatement (statement depth) (depth + 1) context (used ++ rest) =
      .read (.forLoop binder iterable body) rest := by
  simp only [List.cons_append, List.append_assoc] at hused
  obtain ⟨t, used, rfl, ht, hused⟩ := List.map_eq_cons_iff.mp hused
  obtain ⟨used₁, used, rfl, h₁, hused⟩ := List.map_eq_append_iff.mp hused
  obtain ⟨t', used, rfl, ht', hused⟩ := List.map_eq_cons_iff.mp hused
  simp only [List.length_cons, List.length_append] at hbound
  simp only [forStatement, required, bind_eq_read, expect_eq_read, within_apply, commit_eq_read,
    require_eq_read, pure_eq_read, List.cons_append, List.append_assoc]
  obtain ⟨mid, hexpression, hblock⟩ := tested_covers hinner hiterable hbody hused (by omega)
  exact ⟨(), _, ⟨t, rfl, kind_of_word ht⟩, binder, _, loopVariable_reads h₁, (), used ++ rest,
    ⟨t', rfl, kind_of_word ht'⟩, iterable, mid, hexpression, body, rest, hblock, rfl, rfl⟩

/-! ## Simple statements -/

section Simple

omit hinner

variable {used rest : List Token} {context : List Construct} {e : Expr} {u : List Terminal}

/-- An expression ends at the end of its line. -/
theorem ended_covers (depth : Nat) (hd : Derives (.expression e) u)
    (hused : used.map ofToken = u ++ [word .newline]) (hbound : used.length < depth + 1) :
    ∃ t, t.kind = .newline ∧ expression (depth + 1) context (used ++ rest) = .read e (t :: rest) := by
  obtain ⟨used, last, rfl, h₁, hlast⟩ := List.map_eq_append_iff.mp hused
  obtain ⟨t, last, rfl, ht, hlast⟩ := List.map_eq_cons_iff.mp hlast
  obtain rfl := List.map_eq_nil_iff.mp hlast
  have hkind : t.kind = .newline := kind_of_word ht
  rw [List.length_append] at hbound
  refine ⟨t, hkind, ?_⟩
  rw [List.append_assoc]
  exact expression_covers (depth + 1) hd h₁ (by omega) (by simp [hkind, strength])

theorem returnNothing_reads (hused : used.map ofToken = [word .returnWord, word .newline]) :
    returnStatement (depth + 1) context (used ++ rest) = .read (.returnStmt none) rest := by
  obtain ⟨t, used, rfl, ht, hused⟩ := List.map_eq_cons_iff.mp hused
  obtain ⟨t', used, rfl, ht', hused⟩ := List.map_eq_cons_iff.mp hused
  obtain rfl := List.map_eq_nil_iff.mp hused
  simp only [returnStatement, bind_eq_read, expect_eq_read, within_apply]
  refine ⟨(), _, ⟨t, rfl, kind_of_word ht⟩, orElse_eq_read.mpr (Or.inl ?_)⟩
  simp only [bind_eq_read, expect_eq_read, pure_eq_read]
  exact ⟨(), _, ⟨t', rfl, kind_of_word ht'⟩, trivial, rfl⟩

theorem returnValue_covers (hd : Derives (.expression e) u)
    (hused : used.map ofToken = word .returnWord :: u ++ [word .newline])
    (hbound : used.length < depth + 1) :
    returnStatement (depth + 1) context (used ++ rest) = .read (.returnStmt (some e)) rest := by
  obtain ⟨t, used, rfl, ht, hused⟩ := List.map_eq_cons_iff.mp hused
  rw [List.length_cons] at hbound
  obtain ⟨t', ht', hread⟩ := ended_covers depth hd hused (by omega)
  simp only [returnStatement, bind_eq_read, expect_eq_read, within_apply]
  refine ⟨(), used ++ rest, ⟨t, rfl, kind_of_word ht⟩, orElse_eq_read.mpr (Or.inr ⟨?_, ?_⟩)⟩
  · obtain ⟨a, v, rfl, -, ha⟩ := derives_operand hd trivial
    obtain ⟨t₁, used, rfl, rfl, -⟩ := List.map_eq_cons_iff.mp hused
    have hline : t₁.kind ≠ .newline :=
      ne_of_opensStatement (opensStatement_of_opensExpression ha) rfl
    simp [hline]
  · simp only [required, bind_eq_read, commit_eq_read, require_eq_read, pure_eq_read]
    exact ⟨e, t' :: rest, hread, (), rest, ⟨t', rfl, ht'⟩, rfl, rfl⟩

theorem wordStatement_reads {kind : TokenKind} {b : Block}
    (hused : used.map ofToken = [word kind, word .newline]) :
    wordStatement kind b context (used ++ rest) = .read b rest := by
  obtain ⟨t, used, rfl, ht, hused⟩ := List.map_eq_cons_iff.mp hused
  obtain ⟨t', used, rfl, ht', hused⟩ := List.map_eq_cons_iff.mp hused
  obtain rfl := List.map_eq_nil_iff.mp hused
  simp only [wordStatement, bind_eq_read, expect_eq_read, require_eq_read, pure_eq_read]
  exact ⟨(), _, ⟨t, rfl, kind_of_word ht⟩, (), _, ⟨t', rfl, kind_of_word ht'⟩, trivial, rfl⟩

theorem assertStatement_covers (hd : Derives (.expression e) u)
    (hused : used.map ofToken = word .assertWord :: u ++ [word .newline])
    (hbound : used.length < depth + 1) :
    assertStatement (depth + 1) context (used ++ rest) = .read (.assertion e) rest := by
  obtain ⟨t, used, rfl, ht, hused⟩ := List.map_eq_cons_iff.mp hused
  rw [List.length_cons] at hbound
  obtain ⟨t', ht', hread⟩ := ended_covers depth hd hused (by omega)
  simp only [assertStatement, required, bind_eq_read, expect_eq_read, within_apply, commit_eq_read,
    require_eq_read, pure_eq_read]
  exact ⟨(), _, ⟨t, rfl, kind_of_word ht⟩, e, t' :: rest, hread, (), rest, ⟨t', rfl, ht'⟩, rfl, rfl⟩

theorem assignment_covers {target : Expr} {v : List Terminal}
    (htarget : Derives (.expression target) u)
    (hd : Derives (.expression e) v)
    (hused : used.map ofToken = u ++ word .assign :: v ++ [word .newline])
    (hbound : used.length < depth + 1) :
    assignment (depth + 1) context (used ++ rest) = .read (.assign target e) rest := by
  simp only [List.append_assoc, List.cons_append] at hused
  obtain ⟨used₁, used, rfl, h₁, hused⟩ := List.map_eq_append_iff.mp hused
  obtain ⟨t, used, rfl, ht, hused⟩ := List.map_eq_cons_iff.mp hused
  rw [List.length_append, List.length_cons] at hbound
  obtain ⟨t', ht', hread⟩ := ended_covers depth hd hused (by omega)
  have hkind : t.kind = .assign := kind_of_word ht
  simp only [assignment, required, bind_eq_read, expect_eq_read, within_apply, commit_eq_read,
    require_eq_read, pure_eq_read, List.append_assoc]
  exact ⟨target, t :: used ++ rest,
    expression_covers (depth + 1) htarget h₁ (by omega) (by simp [hkind, strength]), (), used ++ rest,
    ⟨t, rfl, hkind⟩, e, t' :: rest, hread, (), rest, ⟨t', rfl, ht'⟩, rfl, rfl⟩

theorem declaration_covers {n : String} {isMutable : Bool}
    (hused : used.map ofToken = bindingTerminals n isMutable ++ [word .newline]) :
    declaration (depth + 1) context (used ++ rest) = .read [.declare n isMutable] rest := by
  obtain ⟨used, last, rfl, h₁, hlast⟩ := List.map_eq_append_iff.mp hused
  obtain ⟨t₂, last, rfl, ht₂, hlast⟩ := List.map_eq_cons_iff.mp hlast
  obtain rfl := List.map_eq_nil_iff.mp hlast
  obtain ⟨t, used, t₁, rfl, ht, ht₁, hmut⟩ := mutability_reads h₁
  have hkind : t₂.kind = .newline := kind_of_word ht₂
  simp only [declaration, bind_eq_read, expect_eq_read, within_apply, here_eq_read,
    requireIdentifier_eq_read, List.cons_append, List.append_assoc, List.nil_append]
  refine ⟨(), _, ⟨t, rfl, ht⟩, isMutable, _, hmut _ _, _, _, ⟨rfl, rfl⟩, n, _,
    ⟨t₁, rfl, congrArg Terminal.value ht₁⟩, _, _, ⟨rfl, rfl⟩, ?_⟩
  rw [if_neg (by simp [hkind])]
  simp only [bind_eq_read, require_eq_read, pure_eq_read]
  exact ⟨(), rest, ⟨t₂, rfl, hkind⟩, trivial, rfl⟩

theorem initialization_covers {n : String} {isMutable : Bool} (hd : Derives (.expression e) u)
    (hused : used.map ofToken =
      bindingTerminals n isMutable ++ word .assign :: u ++ [word .newline])
    (hbound : used.length < depth + 1) :
    declaration (depth + 1) context (used ++ rest) =
      .read [.declare n isMutable, .assign (.name n) e] rest := by
  simp only [List.append_assoc, List.cons_append] at hused
  obtain ⟨used, used', rfl, hused, hused'⟩ := List.map_eq_append_iff.mp hused
  obtain ⟨t, used, t₁, rfl, ht, ht₁, hmut⟩ := mutability_reads hused
  obtain ⟨t₂, used', rfl, ht₂, hused'⟩ := List.map_eq_cons_iff.mp hused'
  rw [List.length_append, List.length_cons, List.length_cons] at hbound
  obtain ⟨t₃, ht₃, hread⟩ := ended_covers depth hd hused' (by omega)
  have hkind : t₂.kind = .assign := kind_of_word ht₂
  have hassignment : assignment (depth + 1) (.declaration :: context)
      (t₁ :: t₂ :: (used' ++ rest)) = .read (.assign (.name n) e) rest := by
    simp only [assignment, required, bind_eq_read, expect_eq_read, within_apply, commit_eq_read,
      require_eq_read, pure_eq_read]
    have hsign : sign? t₁ = none := by
      simp [sign?, show t₁.kind = .name from congrArg Terminal.kind ht₁]
    exact ⟨.name n, _, expression_name_assign (congrArg Terminal.value ht₁) hsign hkind, (),
      used' ++ rest, ⟨t₂, rfl, hkind⟩, e, t₃ :: rest, hread, (), rest, ⟨t₃, rfl, ht₃⟩, rfl, rfl⟩
  simp only [declaration, bind_eq_read, expect_eq_read, within_apply, here_eq_read,
    requireIdentifier_eq_read, List.cons_append, List.append_assoc]
  refine ⟨(), _, ⟨t, rfl, ht⟩, isMutable, _, hmut _ _, _, _, ⟨rfl, rfl⟩, n, _,
    ⟨t₁, rfl, congrArg Terminal.value ht₁⟩, _, _, ⟨rfl, rfl⟩, ?_⟩
  rw [if_pos (by simp [hkind])]
  simp only [bind_eq_read, startingAt_apply, commit_eq_read, pure_eq_read]
  exact ⟨_, rest, hassignment, rfl, rfl⟩

theorem expressionStatement_covers (hd : Derives (.expression e) u)
    (hused : used.map ofToken = u ++ [word .newline]) (hbound : used.length < depth + 1) :
    expressionStatement (depth + 1) context (used ++ rest) = .read (.expression e) rest ∧
      assignment (depth + 1) context (used ++ rest) = .absent := by
  obtain ⟨t, ht, hread⟩ : ∃ t, t.kind = .newline ∧
      expression (depth + 1) context (used ++ rest) = .read e (t :: rest) :=
    ended_covers depth hd hused hbound
  constructor
  · simp only [expressionStatement, bind_eq_read, within_apply, require_eq_read, pure_eq_read]
    exact ⟨e, t :: rest, hread, (), rest, ⟨t, rfl, ht⟩, rfl, rfl⟩
  · simp only [assignment, bind_eq_absent, expect_eq_absent]
    exact Or.inr ⟨e, t :: rest, hread, Or.inl (by simp [ht])⟩

end Simple

/-! ## Statements and programs -/

omit hinner

section Alternatives

variable {inner : Reader Block} {limit : Nat} {context : List Construct} {t : Token}
  {tokens rest : List Token}

@[simp] theorem functionDefinition_absent (h : t.kind ≠ .funWord) :
    functionDefinition inner limit context (t :: tokens) = .absent := by
  simp [functionDefinition, h]

@[simp] theorem classDefinition_absent (h : t.kind ≠ .classWord) :
    classDefinition inner limit context (t :: tokens) = .absent := by
  simp [classDefinition, h]

@[simp] theorem returnStatement_absent (h : t.kind ≠ .returnWord) :
    returnStatement limit context (t :: tokens) = .absent := by
  simp [returnStatement, h]

@[simp] theorem ifStatement_absent (h : t.kind ≠ .ifWord) :
    ifStatement inner limit context (t :: tokens) = .absent := by
  simp [ifStatement, h]

@[simp] theorem whileStatement_absent (h : t.kind ≠ .whileWord) :
    whileStatement inner limit context (t :: tokens) = .absent := by
  simp [whileStatement, h]

@[simp] theorem forStatement_absent (h : t.kind ≠ .forWord) :
    forStatement inner limit context (t :: tokens) = .absent := by
  simp [forStatement, h]

@[simp] theorem wordStatement_absent {kind : TokenKind} {b : Block} (h : t.kind ≠ kind) :
    wordStatement kind b context (t :: tokens) = .absent := by
  simp [wordStatement, h]

@[simp] theorem assertStatement_absent (h : t.kind ≠ .assertWord) :
    assertStatement limit context (t :: tokens) = .absent := by
  simp [assertStatement, h]

@[simp] theorem declaration_absent (h : t.kind ≠ .varWord) :
    declaration limit context (t :: tokens) = .absent := by
  simp [declaration, h]

@[simp] theorem single_eq_read {r : Reader Stmt} {b : Block} :
    single r context tokens = .read b rest ↔ ∃ s, r context tokens = .read s rest ∧ [s] = b := by
  simp only [single, bind_eq_read, pure_eq_read]
  constructor
  · rintro ⟨s, _, hs, rfl, rfl⟩
    exact ⟨s, hs, rfl⟩
  · rintro ⟨s, hs, rfl⟩
    exact ⟨s, rest, hs, rfl, rfl⟩

@[simp] theorem single_eq_absent {r : Reader Stmt} :
    single r context tokens = .absent ↔ r context tokens = .absent := by
  simp [single]

end Alternatives

include hinner in
theorem line_covers :
    Covers (line (statement depth) (depth + 1)) .statement NoElse (depth + 1) := by
  intro b u used rest context hd hused hbound hends
  obtain ⟨a, v, hu, hopens⟩ := derives_statement hd
  obtain ⟨t, used, rfl, rfl, -⟩ := List.map_eq_cons_iff.mp (hused.trans hu)
  unfold line
  rw [List.cons_append, within_apply, commit_eq_read]
  generalize Construct.statement :: context = context
  -- Before the alternative that is read, all others begin with other words.
  cases hd with
  | functionStatement hf =>
    have hread : functionDefinition (statement depth) (depth + 1) context (t :: (used ++ rest)) = _ :=
      functionDefinition_covers hinner hf hused hbound trivial
    simp [hread]
  | classStatement hms hne =>
    have hkind : t.kind = .classWord := kind_of_word (List.cons.inj hused).1
    have hread : classDefinition (statement depth) (depth + 1) context (t :: (used ++ rest)) = _ :=
      classDefinition_covers hinner hms hne hused hbound
    simp [hkind, hread]
  | returnNothing =>
    have hkind : t.kind = .returnWord := kind_of_word (List.cons.inj hused).1
    have hread : returnStatement (depth + 1) context (t :: (used ++ rest)) = _ :=
      returnNothing_reads hused
    simp [hkind, hread]
  | returnValue he =>
    have hkind : t.kind = .returnWord := kind_of_word (List.cons.inj hused).1
    have hread : returnStatement (depth + 1) context (t :: (used ++ rest)) = _ :=
      returnValue_covers he hused hbound
    simp [hkind, hread]
  | ifStatement htest hbody helseIfs hbranch =>
    have hkind : t.kind = .ifWord := kind_of_word (List.cons.inj hused).1
    have hread : ifStatement (statement depth) (depth + 1) context (t :: (used ++ rest)) = _ :=
      ifStatement_covers hinner htest hbody helseIfs hbranch hused hbound hends
    simp [hkind, hread]
  | whileStatement htest hbody =>
    have hkind : t.kind = .whileWord := kind_of_word (List.cons.inj hused).1
    have hread : whileStatement (statement depth) (depth + 1) context (t :: (used ++ rest)) = _ :=
      whileStatement_covers hinner htest hbody hused hbound
    simp [hkind, hread]
  | forStatement hiterable hbody =>
    have hkind : t.kind = .forWord := kind_of_word (List.cons.inj hused).1
    have hread : forStatement (statement depth) (depth + 1) context (t :: (used ++ rest)) = _ :=
      forStatement_covers hinner hiterable hbody hused hbound
    simp [hkind, hread]
  | continueStatement =>
    have hkind : t.kind = .continueWord := kind_of_word (List.cons.inj hused).1
    have hread : wordStatement .continueWord [.continueStmt] context (t :: (used ++ rest)) = _ :=
      wordStatement_reads hused
    simp [hkind, hread]
  | breakStatement =>
    have hkind : t.kind = .breakWord := kind_of_word (List.cons.inj hused).1
    have hread : wordStatement .breakWord [.breakStmt] context (t :: (used ++ rest)) = _ :=
      wordStatement_reads hused
    simp [hkind, hread]
  | assertStatement he =>
    have hkind : t.kind = .assertWord := kind_of_word (List.cons.inj hused).1
    have hread : assertStatement (depth + 1) context (t :: (used ++ rest)) = _ :=
      assertStatement_covers he hused hbound
    simp [hkind, hread]
  | declaration n isMutable =>
    obtain ⟨v, hv⟩ := bindingTerminals_eq_cons n isMutable
    have hkind : t.kind = .varWord := kind_of_word (List.cons.inj (hv ▸ hused)).1
    have hread : declaration (depth + 1) context (t :: (used ++ rest)) = _ :=
      declaration_covers hused
    simp [hkind, hread]
  | @initialization _ _ n isMutable he =>
    obtain ⟨v, hv⟩ := bindingTerminals_eq_cons n isMutable
    have hkind : t.kind = .varWord := kind_of_word (List.cons.inj (hv ▸ hused)).1
    have hread : declaration (depth + 1) context (t :: (used ++ rest)) = _ :=
      initialization_covers he hused hbound
    simp [hkind, hread]
  | assignment htarget he =>
    obtain ⟨a, v, rfl, -, ha⟩ := derives_operand htarget trivial
    obtain rfl : ofToken t = a := (List.cons.inj hused).1
    have hne := ne_of_opensExpression (t := t) ha
    have hread : assignment (depth + 1) context (t :: (used ++ rest)) = _ :=
      assignment_covers htarget he hused hbound
    simp [hne, hread]
  | passStatement =>
    have ht : ofToken t = word .passWord := (List.cons.inj hused).1
    have hkind : t.kind = .passWord := kind_of_word ht
    have habsent : assignment (depth + 1) context (t :: (used ++ rest)) = .absent := by
      simp only [assignment, bind_eq_absent]
      exact Or.inl (expression_absent ht rfl)
    have hread : wordStatement .passWord [] context (t :: (used ++ rest)) = _ :=
      wordStatement_reads hused
    simp [hkind, habsent, hread]
  | expressionStatement he =>
    obtain ⟨a, v, rfl, -, ha⟩ := derives_operand he trivial
    obtain rfl : ofToken t = a := (List.cons.inj hused).1
    have hne := ne_of_opensExpression (t := t) ha
    obtain ⟨hread, habsent⟩ :
        expressionStatement (depth + 1) context (t :: (used ++ rest)) = _ ∧
          assignment (depth + 1) context (t :: (used ++ rest)) = .absent :=
      expressionStatement_covers he hused hbound
    simp [hne, habsent, hread]

/-- Whatever tokens derive a statement are read as it, unless a branch of it follows. -/
theorem statement_covers (depth : Nat) :
    Covers (statement depth) .statement NoElse depth := by
  induction depth with
  | zero =>
    intro b u used rest context _ _ hbound _
    exact absurd hbound (Nat.not_lt_zero _)
  | succ depth ih => exact line_covers ih

/-- The tokens that derive a program are read as it. -/
theorem program_reads {p : Program} {u : List Terminal} (hd : Derives (.program p) u)
    {tokens : List Token} (htokens : tokens.map ofToken = u) (hbound : tokens.length ≤ depth)
    {context : List Construct} : ∃ rest, program depth context tokens = .read p rest := by
  cases hd with
  | program hitems =>
    obtain ⟨used, last, rfl, h₁, hlast⟩ := List.map_eq_append_iff.mp htokens
    obtain ⟨t, last, rfl, ht, hlast⟩ := List.map_eq_cons_iff.mp hlast
    obtain rfl := List.map_eq_nil_iff.mp hlast
    have hkind : t.kind = .endOfFile := kind_of_word ht
    rw [List.length_append, List.length_singleton] at hbound
    simp only [program, within_apply, bind_eq_read, pure_eq_read]
    refine ⟨[t], p, [t], ?_, (), [t], ?_, rfl, rfl⟩
    · exact statements_cover (statement_covers depth) (Nat.le_refl depth) hitems h₁ (by omega)
        ⟨t, [], rfl, Or.inr hkind⟩
    · simp [endOfProgram, hkind]

end Statements

end Offside.Grammar
