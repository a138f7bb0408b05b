import Mathlib.Data.List.TakeWhile
import Offside.Proofs.Grammar.ExpressionSoundness
import Offside.Proofs.Grammar.Lookahead

/-!
# Statements that are read are derived
-/

namespace Offside.Grammar

open Reader
open Terminal (ofToken word)

section Statements

variable {inner : Reader Block} {limit : Nat} {context : List Construct}
  {tokens rest : List Token}

/-! ## Blocks -/

/-- Empty lines in front of a phrase that allows them. -/
theorem derives_newlines {p : Phrase} (hline : ∀ u, Derives p u → Derives p (word .newline :: u))
    {u : List Terminal} (h : Derives p u) {lines : List Token} (hagree : AllAgree lines)
    (hlines : ∀ t ∈ lines, t.kind = .newline) : Derives p (lines.map ofToken ++ u) := by
  induction lines with
  | nil => exact h
  | cons t lines ih =>
    rw [allAgree_cons] at hagree
    rw [List.forall_mem_cons] at hlines
    rw [List.map_cons, ofToken_eq_word hagree.1 hlines.1 rfl]
    exact hline _ (ih hagree.2 hlines.2)

/-- The tokens before those that skipping the empty lines leaves. -/
theorem exists_newlines (h : (tokens.dropWhile fun t => t.kind = .newline) = rest) :
    ∃ lines, tokens = lines ++ rest ∧ ∀ t ∈ lines, t.kind = .newline := by
  subst h
  refine ⟨tokens.takeWhile fun t => t.kind = .newline, List.takeWhile_append_dropWhile.symm, ?_⟩
  intro t ht
  simpa using List.mem_takeWhile_imp ht

theorem nextLine_eq_read {b : Block} (hread : nextLine inner context tokens = .read b rest) :
    ∃ lines mid, tokens = lines ++ mid ∧ (∀ t ∈ lines, t.kind = .newline) ∧
      inner context mid = .read b rest := by
  simp only [nextLine, bind_eq_read, skipNewlines_eq_read] at hread
  obtain ⟨_, mid, hmid, stop, mid', hstop, hread⟩ := hread
  have hmid' : mid' = mid := by
    unfold atEnd at hstop
    split at hstop <;> simp_all
  obtain ⟨lines, hlines, hall⟩ := exists_newlines hmid
  cases stop with
  | true => simp at hread
  | false => exact ⟨lines, mid, hlines, hall, by simpa [hmid'] using hread⟩

theorem many_nextLine_eq_read (hinner : Follows inner .statement) {bs : List Block}
    (hagree : AllAgree tokens) (hread : many (nextLine inner) limit context tokens = .read bs rest) :
    ∃ used, tokens = used ++ rest ∧ ∀ {b u}, Derives (.items b) u →
      Derives (.items (bs.flatten ++ b)) (used.map ofToken ++ u) := by
  induction limit generalizing tokens bs with
  | zero =>
    obtain ⟨rfl, rfl⟩ := pure_eq_read.mp hread
    exact ⟨[], rfl, fun h => h⟩
  | succ limit ih =>
    rcases many_succ_eq_read hread with ⟨rfl, rfl⟩ | ⟨b, mid, bs', hb, hbs, rfl⟩
    · exact ⟨[], rfl, fun h => h⟩
    · obtain ⟨lines, mid', rfl, hlines, hb⟩ := nextLine_eq_read hb
      rw [allAgree_append] at hagree
      obtain ⟨used, rfl, hd⟩ := hinner hagree.2 hb
      obtain ⟨used', rfl, hitems⟩ := ih (allAgree_append.mp hagree.2).2 hbs
      refine ⟨lines ++ (used ++ used'), by simp, ?_⟩
      intro b' u h
      simpa using derives_newlines (fun _ => .itemsLine) (.itemsStatement hd (hitems h)) hagree.1 hlines

theorem statements_follows (hinner : Follows inner .statement) :
    Follows (statements inner limit) .items := by
  intro context tokens b rest hagree hread
  simp only [statements, bind_eq_read, skipNewlines_eq_read, pure_eq_read] at hread
  obtain ⟨bs, mid, hbs, _, _, hskip, rfl, rfl⟩ := hread
  obtain ⟨used, rfl, hitems⟩ := many_nextLine_eq_read hinner hagree hbs
  obtain ⟨lines, rfl, hall⟩ := exists_newlines hskip
  simp only [allAgree_append] at hagree
  refine ⟨used ++ lines, by simp, ?_⟩
  simpa using hitems (derives_newlines (fun _ => .itemsLine) .itemsNil hagree.2.1 hall)

theorem block_follows (hinner : Follows inner .statement) : Follows (block inner limit) .block := by
  intro context tokens b rest hagree hread
  simp only [block, within_apply, bind_eq_read, require_eq_read, here_eq_read] at hread
  obtain ⟨_, _, ⟨t, rfl, ht⟩, _, _, ⟨rfl, rfl⟩, body, _, hbody, hread⟩ := hread
  rw [allAgree_cons] at hagree
  obtain ⟨used, rfl, hd⟩ := statements_follows hinner hagree.2 hbody
  split at hread
  · exact absurd hread breakAt_ne_read
  · rename_i hempty
    simp only [bind_eq_read, require_eq_read, pure_eq_read] at hread
    obtain ⟨_, _, ⟨t', rfl, ht'⟩, rfl, rfl⟩ := hread
    simp only [allAgree_append, allAgree_cons] at hagree
    refine ⟨t :: used ++ [t'], by simp, ?_⟩
    simpa [ofToken_eq_word hagree.1 ht rfl, ofToken_eq_word hagree.2.2.1 ht' rfl] using
      Derives.block hd (by simpa using hempty)

theorem headedBlock_follows (hinner : Follows inner .statement) :
    Follows (headedBlock inner limit) .headedBlock := by
  intro context tokens b rest hagree hread
  simp only [headedBlock, bind_eq_read, require_eq_read] at hread
  obtain ⟨_, _, ⟨t, rfl, ht⟩, _, _, ⟨t', rfl, ht'⟩, hread⟩ := hread
  simp only [allAgree_cons] at hagree
  obtain ⟨used, rfl, hd⟩ := block_follows hinner hagree.2.2 hread
  refine ⟨t :: t' :: used, rfl, ?_⟩
  simpa [ofToken_eq_word hagree.1 ht rfl, ofToken_eq_word hagree.2.1 ht' rfl] using
    Derives.headedBlock hd

/-! ## Definitions -/

theorem identifier_follows : Follows identifier .parameter := by
  intro context tokens n rest hagree hread
  obtain ⟨t, rfl, ht⟩ := identifier_eq_read.mp hread
  refine ⟨[t], rfl, ?_⟩
  simpa [ofToken_eq_name (allAgree_cons.mp hagree).1 ht] using Derives.parameter n

theorem parameters_follows :
    Follows (parameters limit) fun names => .separated (names.map .parameter) :=
  identifier_follows.separated .expectedIdentifier limit

theorem functionDefinition_follows (hinner : Follows inner .statement) :
    Follows (functionDefinition inner limit) .functionDefinition := by
  intro context tokens f rest hagree hread
  simp only [functionDefinition, bind_eq_read, expect_eq_read, within_apply,
    requireIdentifier_eq_read, require_eq_read, pure_eq_read] at hread
  obtain ⟨_, _, ⟨t, rfl, ht⟩, n, _, ⟨t', rfl, ht'⟩, _, _, ⟨t'', rfl, ht''⟩, names, _, hnames,
    _, _, ⟨t₃, rfl, ht₃⟩, body, _, hbody, rfl, rfl⟩ := hread
  simp only [allAgree_cons] at hagree
  obtain ⟨used, rfl, hd⟩ := parameters_follows hagree.2.2.2 hnames
  simp only [allAgree_append, allAgree_cons] at hagree
  obtain ⟨used', rfl, hd'⟩ := headedBlock_follows hinner hagree.2.2.2.2.2 hbody
  refine ⟨t :: t' :: t'' :: used ++ t₃ :: used', by simp, ?_⟩
  simpa [ofToken_eq_word hagree.1 ht rfl, ofToken_eq_name hagree.2.1 ht',
    ofToken_eq_word hagree.2.2.1 ht'' rfl, ofToken_eq_word hagree.2.2.2.2.1 ht₃ rfl] using
    Derives.functionDefinition (n := n) hd hd'

/-- What a member adds to a class body. -/
theorem classMember_eq_read (hinner : Follows inner .statement) {m : Option FunctionDef}
    (hagree : AllAgree tokens) (hread : classMember inner limit context tokens = .read m rest) :
    ∃ used, tokens = used ++ rest ∧ ∀ {ms u}, Derives (.members ms) u →
      Derives (.members (m :: ms)) (used.map ofToken ++ u) := by
  rcases orElse_eq_read.mp hread with hread | ⟨-, hread⟩
  · simp only [bind_eq_read, expect_eq_read, require_eq_read, pure_eq_read] at hread
    obtain ⟨_, _, ⟨t, rfl, ht⟩, _, _, ⟨t', rfl, ht'⟩, rfl, rfl⟩ := hread
    simp only [allAgree_cons] at hagree
    refine ⟨[t, t'], rfl, ?_⟩
    intro ms u h
    simpa [ofToken_eq_word hagree.1 ht rfl, ofToken_eq_word hagree.2.1 ht' rfl] using
      Derives.membersPass h
  · obtain ⟨f, hf, rfl⟩ := map_eq_read.mp hread
    obtain ⟨used, rfl, hd⟩ := functionDefinition_follows hinner hagree hf
    exact ⟨used, rfl, fun h => .membersMethod hd h⟩

theorem many_nextMember_eq_read (hinner : Follows inner .statement) {count : Nat}
    {ms : List (Option FunctionDef)} (hagree : AllAgree tokens)
    (hread : many (nextMember inner limit) count context tokens = .read ms rest) :
    ∃ used, tokens = used ++ rest ∧ ∀ {ms' u}, Derives (.members ms') u →
      Derives (.members (ms ++ ms')) (used.map ofToken ++ u) := by
  induction count generalizing tokens ms with
  | zero =>
    obtain ⟨rfl, rfl⟩ := pure_eq_read.mp hread
    exact ⟨[], rfl, fun h => h⟩
  | succ count ih =>
    rcases many_succ_eq_read hread with ⟨rfl, rfl⟩ | ⟨m, mid, ms', hm, hms, rfl⟩
    · exact ⟨[], rfl, fun h => h⟩
    · simp only [nextMember, bind_eq_read, skipNewlines_eq_read, here_eq_read] at hm
      obtain ⟨_, mid', hskip, _, _, ⟨rfl, rfl⟩, hm⟩ := hm
      obtain ⟨lines, rfl, hall⟩ := exists_newlines hskip
      rw [allAgree_append] at hagree
      split at hm
      · simp at hm
      · obtain ⟨used, rfl, hmember⟩ := classMember_eq_read hinner hagree.2 (commit_eq_read.mp hm)
        obtain ⟨used', rfl, hmembers⟩ := ih (allAgree_append.mp hagree.2).2 hms
        refine ⟨lines ++ (used ++ used'), by simp, ?_⟩
        intro ms' u h
        simpa using derives_newlines (fun _ => .membersLine) (hmember (hmembers h)) hagree.1 hall

theorem classMembers_follows (hinner : Follows inner .statement) :
    Follows (classMembers inner limit) .members := by
  intro context tokens ms rest hagree hread
  simp only [classMembers, bind_eq_read, skipNewlines_eq_read, pure_eq_read] at hread
  obtain ⟨ms, mid, hms, _, _, hskip, rfl, rfl⟩ := hread
  obtain ⟨used, rfl, hmembers⟩ := many_nextMember_eq_read hinner hagree hms
  obtain ⟨lines, rfl, hall⟩ := exists_newlines hskip
  simp only [allAgree_append] at hagree
  refine ⟨used ++ lines, by simp, ?_⟩
  simpa using hmembers (derives_newlines (fun _ => .membersLine) .membersNil hagree.2.1 hall)

theorem classDefinition_follows (hinner : Follows inner .statement) :
    Follows (classDefinition inner limit) fun s => .statement [s] := by
  intro context tokens s rest hagree hread
  simp only [classDefinition, bind_eq_read, expect_eq_read, within_apply,
    requireIdentifier_eq_read, require_eq_read, here_eq_read] at hread
  obtain ⟨_, _, ⟨t, rfl, ht⟩, n, _, ⟨t', rfl, ht'⟩, _, _, ⟨t₁, rfl, ht₁⟩, _, _, ⟨t₂, rfl, ht₂⟩,
    _, _, ⟨t₃, rfl, ht₃⟩, _, _, ⟨rfl, rfl⟩, ms, _, hms, hread⟩ := hread
  simp only [allAgree_cons] at hagree
  obtain ⟨hagree, hagree', hagree₁, hagree₂, hagree₃, hrest⟩ := hagree
  obtain ⟨used, rfl, hd⟩ := classMembers_follows hinner hrest hms
  split at hread
  · exact absurd hread breakAt_ne_read
  · rename_i hempty
    simp only [bind_eq_read, require_eq_read, pure_eq_read] at hread
    obtain ⟨_, _, ⟨t₄, rfl, ht₄⟩, rfl, rfl⟩ := hread
    simp only [allAgree_append, allAgree_cons] at hrest
    refine ⟨t :: t' :: t₁ :: t₂ :: t₃ :: used ++ [t₄], by simp, ?_⟩
    simpa [ofToken_eq_word hagree ht rfl, ofToken_eq_name hagree' ht',
      ofToken_eq_word hagree₁ ht₁ rfl, ofToken_eq_word hagree₂ ht₂ rfl,
      ofToken_eq_word hagree₃ ht₃ rfl, ofToken_eq_word hrest.2.1 ht₄ rfl] using
      Derives.classStatement (n := n) hd (by simpa using hempty)

/-! ## Branches and loops -/

theorem elseIf_follows (hinner : Follows inner .statement) :
    Follows (elseIf inner limit) .elseIf := by
  intro context tokens branch rest hagree hread
  simp only [elseIf, required, bind_eq_read, expect_eq_read, commit_eq_read, pure_eq_read] at hread
  obtain ⟨_, _, ⟨t, rfl, ht⟩, _, _, ⟨t', rfl, ht'⟩, test, _, htest, body, _, hbody, rfl, rfl⟩ :=
    hread
  simp only [allAgree_cons] at hagree
  obtain ⟨used, rfl, hd⟩ := expression_follows limit hagree.2.2 htest
  obtain ⟨used', rfl, hd'⟩ :=
    headedBlock_follows hinner (allAgree_append.mp hagree.2.2).2 hbody
  refine ⟨t :: t' :: used ++ used', by simp, ?_⟩
  simpa [ofToken_eq_word hagree.1 ht rfl, ofToken_eq_word hagree.2.1 ht' rfl] using
    Derives.elseIf hd hd'

theorem otherwise_follows (hinner : Follows inner .statement) :
    Follows (optional do expect .elseWord; headedBlock inner limit) .otherwise := by
  intro context tokens body rest hagree hread
  rcases orElse_eq_read.mp hread with hread | ⟨-, hread⟩
  · simp only [map_eq_read, bind_eq_read, expect_eq_read] at hread
    obtain ⟨body, ⟨_, _, ⟨t, rfl, ht⟩, hbody⟩, rfl⟩ := hread
    rw [allAgree_cons] at hagree
    obtain ⟨used, rfl, hd⟩ := headedBlock_follows hinner hagree.2 hbody
    refine ⟨t :: used, rfl, ?_⟩
    simpa [ofToken_eq_word hagree.1 ht rfl] using Derives.otherwiseSome hd
  · obtain ⟨rfl, rfl⟩ := pure_eq_read.mp hread
    exact ⟨[], rfl, .otherwiseNone⟩

theorem ifStatement_follows (hinner : Follows inner .statement) :
    Follows (ifStatement inner limit) fun s => .statement [s] := by
  intro context tokens s rest hagree hread
  simp only [ifStatement, required, bind_eq_read, expect_eq_read, within_apply, commit_eq_read,
    pure_eq_read] at hread
  obtain ⟨_, _, ⟨t, rfl, ht⟩, test, _, htest, body, _, hbody, elseIfs, _, helseIfs, otherwise, _,
    hotherwise, rfl, rfl⟩ := hread
  rw [allAgree_cons] at hagree
  obtain ⟨u, rfl, hd⟩ := expression_follows limit hagree.2 htest
  have hagree' := (allAgree_append.mp hagree.2).2
  obtain ⟨v, rfl, hd'⟩ := headedBlock_follows hinner hagree' hbody
  have hagree' := (allAgree_append.mp hagree').2
  obtain ⟨w, rfl, hd₂⟩ := (elseIf_follows hinner).many limit hagree' helseIfs
  have hagree' := (allAgree_append.mp hagree').2
  obtain ⟨x, rfl, hd₃⟩ := otherwise_follows hinner hagree' hotherwise
  refine ⟨t :: u ++ v ++ w ++ x, by simp, ?_⟩
  simpa [ofToken_eq_word hagree.1 ht rfl] using Derives.ifStatement hd hd' hd₂ hd₃

theorem whileStatement_follows (hinner : Follows inner .statement) :
    Follows (whileStatement inner limit) fun s => .statement [s] := by
  intro context tokens s rest hagree hread
  simp only [whileStatement, required, bind_eq_read, expect_eq_read, within_apply, commit_eq_read,
    pure_eq_read] at hread
  obtain ⟨_, _, ⟨t, rfl, ht⟩, test, _, htest, body, _, hbody, rfl, rfl⟩ := hread
  rw [allAgree_cons] at hagree
  obtain ⟨used, rfl, hd⟩ := expression_follows limit hagree.2 htest
  obtain ⟨used', rfl, hd'⟩ := headedBlock_follows hinner (allAgree_append.mp hagree.2).2 hbody
  refine ⟨t :: used ++ used', by simp, ?_⟩
  simpa [ofToken_eq_word hagree.1 ht rfl] using Derives.whileStatement hd hd'

theorem mutability_eq_read {isMutable : Bool}
    (hread : mutability context tokens = .read isMutable rest) :
    isMutable = true ∧ (∃ t, tokens = t :: rest ∧ t.kind = .mutWord) ∨
      isMutable = false ∧ tokens = rest := by
  simp only [mutability, Reader.optional, bind_eq_read, orElse_eq_read, map_eq_read, expect_eq_read,
    pure_eq_read] at hread
  obtain ⟨_, _, ⟨_, ⟨t, rfl, ht⟩, rfl⟩ | ⟨-, rfl, rfl⟩, rfl, rfl⟩ := hread
  · exact Or.inl ⟨rfl, t, rfl, ht⟩
  · exact Or.inr ⟨rfl, rfl⟩

theorem mutability_binding {isMutable : Bool} {n : String} {t t' : Token}
    (hagree : AllAgree (t :: tokens)) (ht : t.kind = .varWord) (ht' : t'.value = .name n)
    (hread : mutability context tokens = .read isMutable (t' :: rest)) :
    ofToken t' = .name n ∧
      ∃ used, t :: tokens = used ++ rest ∧ used.map ofToken = bindingTerminals n isMutable := by
  rcases mutability_eq_read hread with ⟨rfl, t₁, rfl, ht₁⟩ | ⟨rfl, rfl⟩
  · simp only [allAgree_cons] at hagree
    have hname := ofToken_eq_name hagree.2.2.1 ht'
    refine ⟨hname, [t, t₁, t'], rfl, ?_⟩
    simp [bindingTerminals, hname, ofToken_eq_word hagree.1 ht rfl, ofToken_eq_word hagree.2.1 ht₁ rfl]
  · simp only [allAgree_cons] at hagree
    have hname := ofToken_eq_name hagree.2.1 ht'
    refine ⟨hname, [t, t'], rfl, ?_⟩
    simp [bindingTerminals, hname, ofToken_eq_word hagree.1 ht rfl]

theorem loopVariable_eq_read {v : LoopVariable} (hagree : AllAgree tokens)
    (hread : loopVariable context tokens = .read v rest) :
    ∃ used, tokens = used ++ rest ∧ used.map ofToken = loopTerminals v := by
  simp only [loopVariable, orElse_eq_read, bind_eq_read, map_eq_read, expect_eq_read,
    requireIdentifier_eq_read, pure_eq_read] at hread
  rcases hread with ⟨_, _, ⟨t, rfl, ht⟩, isMutable, _, hmut, n, _, ⟨t', rfl, ht'⟩, rfl, rfl⟩ |
    ⟨-, n, ⟨t, rfl, ht⟩, rfl⟩
  · exact (mutability_binding hagree ht ht' hmut).2
  · rw [allAgree_cons] at hagree
    exact ⟨[t], rfl, by simp [loopTerminals, ofToken_eq_name hagree.1 ht]⟩

theorem forStatement_follows (hinner : Follows inner .statement) :
    Follows (forStatement inner limit) fun s => .statement [s] := by
  intro context tokens s rest hagree hread
  simp only [forStatement, required, bind_eq_read, expect_eq_read, within_apply, commit_eq_read,
    require_eq_read, pure_eq_read] at hread
  obtain ⟨_, _, ⟨t, rfl, ht⟩, v, _, hv, _, _, ⟨t', rfl, ht'⟩, iterable, _, hiterable, body, _,
    hbody, rfl, rfl⟩ := hread
  rw [allAgree_cons] at hagree
  obtain ⟨binder, rfl, hbinder⟩ := loopVariable_eq_read hagree.2 hv
  have hagree' := (allAgree_append.mp hagree.2).2
  rw [allAgree_cons] at hagree'
  obtain ⟨used, rfl, hd⟩ := expression_follows limit hagree'.2 hiterable
  obtain ⟨used', rfl, hd'⟩ := headedBlock_follows hinner (allAgree_append.mp hagree'.2).2 hbody
  refine ⟨t :: binder ++ t' :: used ++ used', by simp, ?_⟩
  simpa [hbinder, ofToken_eq_word hagree.1 ht rfl, ofToken_eq_word hagree'.1 ht' rfl] using
    Derives.forStatement hd hd'

/-! ## Simple statements -/

theorem returnStatement_follows : Follows (returnStatement limit) fun s => .statement [s] := by
  intro context tokens s rest hagree hread
  simp only [returnStatement, required, bind_eq_read, expect_eq_read, within_apply, orElse_eq_read,
    commit_eq_read, require_eq_read, pure_eq_read] at hread
  obtain ⟨_, _, ⟨t, rfl, ht⟩, hread⟩ := hread
  rw [allAgree_cons] at hagree
  rcases hread with ⟨_, _, ⟨t', rfl, ht'⟩, rfl, rfl⟩ |
    ⟨-, e, _, he, _, _, ⟨t', rfl, ht'⟩, rfl, rfl⟩
  · rw [allAgree_cons] at hagree
    refine ⟨[t, t'], rfl, ?_⟩
    simpa [ofToken_eq_word hagree.1 ht rfl, ofToken_eq_word hagree.2.1 ht' rfl] using
      Derives.returnNothing
  · obtain ⟨used, rfl, hd⟩ := expression_follows limit hagree.2 he
    simp only [allAgree_append, allAgree_cons] at hagree
    refine ⟨t :: used ++ [t'], by simp, ?_⟩
    simpa [ofToken_eq_word hagree.1 ht rfl, ofToken_eq_word hagree.2.2.1 ht' rfl] using
      Derives.returnValue hd

theorem wordStatement_follows {kind : TokenKind} {b : Block} (hword : isWord kind = true)
    (hrule : Derives (.statement b) [word kind, word .newline]) :
    Follows (wordStatement kind b) .statement := by
  intro context tokens b' rest hagree hread
  simp only [wordStatement, bind_eq_read, expect_eq_read, require_eq_read, pure_eq_read] at hread
  obtain ⟨_, _, ⟨t, rfl, ht⟩, _, _, ⟨t', rfl, ht'⟩, rfl, rfl⟩ := hread
  simp only [allAgree_cons] at hagree
  refine ⟨[t, t'], rfl, ?_⟩
  simpa [ofToken_eq_word hagree.1 ht hword, ofToken_eq_word hagree.2.1 ht' rfl] using hrule

theorem assertStatement_follows : Follows (assertStatement limit) fun s => .statement [s] := by
  intro context tokens s rest hagree hread
  simp only [assertStatement, required, bind_eq_read, expect_eq_read, within_apply, commit_eq_read,
    require_eq_read, pure_eq_read] at hread
  obtain ⟨_, _, ⟨t, rfl, ht⟩, e, _, he, _, _, ⟨t', rfl, ht'⟩, rfl, rfl⟩ := hread
  rw [allAgree_cons] at hagree
  obtain ⟨used, rfl, hd⟩ := expression_follows limit hagree.2 he
  simp only [allAgree_append, allAgree_cons] at hagree
  refine ⟨t :: used ++ [t'], by simp, ?_⟩
  simpa [ofToken_eq_word hagree.1 ht rfl, ofToken_eq_word hagree.2.2.1 ht' rfl] using
    Derives.assertStatement hd

/-- An assignment is a target and a value with the sign between them. -/
theorem assignment_eq_read {s : Stmt} (hread : assignment limit context tokens = .read s rest) :
    ∃ target value t t' context' mid mid',
      s = .assign target value ∧ t.kind = .assign ∧ t'.kind = .newline ∧
      expression limit context tokens = .read target (t :: mid) ∧
      expression limit context' mid = .read value mid' ∧ mid' = t' :: rest := by
  simp only [assignment, required, bind_eq_read, expect_eq_read, within_apply, commit_eq_read,
    require_eq_read, pure_eq_read] at hread
  obtain ⟨target, _, htarget, _, mid, ⟨t, rfl, ht⟩, value, _, hvalue, _, _, ⟨t', rfl, ht'⟩, rfl,
    rfl⟩ := hread
  exact ⟨target, value, t, t', _, mid, _, rfl, ht, ht', htarget, hvalue, rfl⟩

theorem assignment_follows : Follows (assignment limit) fun s => .statement [s] := by
  intro context tokens s rest hagree hread
  obtain ⟨target, value, t, t', _, mid, _, rfl, ht, ht', htarget, hvalue, rfl⟩ :=
    assignment_eq_read hread
  obtain ⟨used, rfl, hd⟩ := expression_follows limit hagree htarget
  simp only [allAgree_append, allAgree_cons] at hagree
  obtain ⟨used', rfl, hd'⟩ := expression_follows limit hagree.2.2 hvalue
  simp only [allAgree_append, allAgree_cons] at hagree
  refine ⟨used ++ t :: used' ++ [t'], by simp, ?_⟩
  simpa [ofToken_eq_word hagree.2.1 ht rfl, ofToken_eq_word hagree.2.2.2.1 ht' rfl] using
    Derives.assignment hd hd'

/-- The target of a declaration with a value is the name that the sign of the assignment follows. -/
theorem assignment_name_eq_read {s : Stmt} {n : String} {t t' : Token} (ht : ofToken t = .name n)
    (ht' : t'.kind = .assign)
    (hread : assignment limit context (t :: t' :: tokens) = .read s rest) :
    ∃ value context' t'', s = .assign (.name n) value ∧ t''.kind = .newline ∧
      expression limit context' tokens = .read value (t'' :: rest) := by
  obtain ⟨target, value, _, t'', context', mid, _, rfl, -, ht'', htarget, hvalue, rfl⟩ :=
    assignment_eq_read hread
  obtain ⟨hkind, hname⟩ := Terminal.mk.inj ht
  cases limit with
  | zero => simp [expression] at htarget
  | succ limit =>
    rw [expression_name_assign hname (by simp [sign?, hkind]) ht'] at htarget
    cases htarget
    exact ⟨value, context', t'', rfl, ht'', hvalue⟩

theorem declaration_follows : Follows (declaration limit) .statement := by
  intro context tokens b rest hagree hread
  simp only [declaration, bind_eq_read, expect_eq_read, within_apply, here_eq_read,
    requireIdentifier_eq_read] at hread
  obtain ⟨_, _, ⟨t, rfl, ht⟩, isMutable, _, hmut, _, _, ⟨rfl, rfl⟩, n, _, ⟨t₁, rfl, ht₁⟩, _, mid,
    ⟨rfl, rfl⟩, hread⟩ := hread
  obtain ⟨hname, binding, htokens, hbinding⟩ := mutability_binding hagree ht ht₁ hmut
  rw [htokens] at hagree ⊢
  have hmid := (allAgree_append.mp hagree).2
  split at hread
  · rename_i hassign
    simp only [bind_eq_read, startingAt_apply, commit_eq_read, pure_eq_read] at hread
    obtain ⟨s, _, hs, rfl, rfl⟩ := hread
    cases mid with
    | nil => simp at hassign
    | cons t₂ mid =>
      have ht₂ : t₂.kind = .assign := by simpa using hassign
      obtain ⟨value, _, t₃, rfl, ht₃, hvalue⟩ := assignment_name_eq_read hname ht₂ hs
      rw [allAgree_cons] at hmid
      obtain ⟨used, rfl, hd⟩ := expression_follows limit hmid.2 hvalue
      simp only [allAgree_append, allAgree_cons] at hmid
      refine ⟨binding ++ t₂ :: used ++ [t₃], by simp, ?_⟩
      simpa [hbinding, ofToken_eq_word hmid.1 ht₂ rfl, ofToken_eq_word hmid.2.2.1 ht₃ rfl] using
        Derives.initialization (n := n) hd
  · simp only [bind_eq_read, require_eq_read, pure_eq_read] at hread
    obtain ⟨_, _, ⟨t₂, rfl, ht₂⟩, rfl, rfl⟩ := hread
    rw [allAgree_cons] at hmid
    refine ⟨binding ++ [t₂], by simp, ?_⟩
    simpa [hbinding, ofToken_eq_word hmid.1 ht₂ rfl] using Derives.declaration n isMutable

theorem expressionStatement_follows :
    Follows (expressionStatement limit) fun s => .statement [s] := by
  intro context tokens s rest hagree hread
  simp only [expressionStatement, bind_eq_read, within_apply, require_eq_read, pure_eq_read] at hread
  obtain ⟨e, _, he, _, _, ⟨t, rfl, ht⟩, rfl, rfl⟩ := hread
  obtain ⟨used, rfl, hd⟩ := expression_follows limit hagree he
  simp only [allAgree_append, allAgree_cons] at hagree
  refine ⟨used ++ [t], by simp, ?_⟩
  simpa [ofToken_eq_word hagree.2.1 ht rfl] using Derives.expressionStatement hd

/-! ## Statements and programs -/

theorem single_follows {r : Reader Stmt} (h : Follows r fun s => .statement [s]) :
    Follows (single r) .statement := by
  intro context tokens b rest hagree hread
  simp only [single, bind_eq_read, pure_eq_read] at hread
  obtain ⟨s, _, hs, rfl, rfl⟩ := hread
  exact h hagree hs

theorem line_follows (hinner : Follows inner .statement) :
    Follows (line inner limit) .statement := by
  have hfunction : Follows (.functionDef <$> functionDefinition inner limit)
      fun s => .statement [s] :=
    Follows.map ((functionDefinition_follows hinner).mono fun _ _ => .functionStatement)
  refine Follows.within (Follows.commit ?_)
  refine (single_follows hfunction).orElse ?_
  refine (single_follows (classDefinition_follows hinner)).orElse ?_
  refine (single_follows returnStatement_follows).orElse ?_
  refine (single_follows (ifStatement_follows hinner)).orElse ?_
  refine (single_follows (whileStatement_follows hinner)).orElse ?_
  refine (single_follows (forStatement_follows hinner)).orElse ?_
  refine (wordStatement_follows rfl .continueStatement).orElse ?_
  refine (wordStatement_follows rfl .breakStatement).orElse ?_
  refine (single_follows assertStatement_follows).orElse ?_
  refine declaration_follows.orElse ?_
  refine (single_follows assignment_follows).orElse ?_
  refine (wordStatement_follows rfl .passStatement).orElse ?_
  exact single_follows expressionStatement_follows

theorem statement_follows (depth : Nat) : Follows (statement depth) .statement := by
  induction depth with
  | zero =>
    intro context tokens b rest _ hread
    simp [statement] at hread
  | succ depth ih => exact line_follows ih

theorem endOfProgram_eq_read {u : Unit} (hread : endOfProgram context tokens = .read u rest) :
    ∃ t, tokens = [t] ∧ t.kind = .endOfFile := by
  simp only [endOfProgram, bind_eq_read, here_eq_read] at hread
  obtain ⟨_, _, ⟨rfl, rfl⟩, hread⟩ := hread
  split at hread
  · rename_i t
    split at hread
    · exact ⟨t, rfl, by assumption⟩
    · exact absurd hread breakAt_ne_read
  · exact absurd hread breakAt_ne_read

/-- The program that is read is derived by the tokens, all of them. -/
theorem program_derives {depth : Nat} {p : Program} (hagree : AllAgree tokens)
    (hread : program depth context tokens = .read p rest) :
    Derives (.program p) (tokens.map ofToken) := by
  simp only [program, within_apply, bind_eq_read, pure_eq_read] at hread
  obtain ⟨b, _, hb, _, _, hend, rfl, rfl⟩ := hread
  obtain ⟨used, rfl, hd⟩ := statements_follows (statement_follows depth) hagree hb
  obtain ⟨t, rfl, ht⟩ := endOfProgram_eq_read hend
  simp only [allAgree_append, allAgree_cons] at hagree
  simpa [ofToken_eq_word hagree.2.1 ht rfl] using Derives.program hd

end Statements

end Offside.Grammar
