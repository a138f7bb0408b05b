import Offside.Proofs.Grammar.StatementCompleteness

/-!
# The parser accepts its grammar

A list of tokens is read as the one program that its terminals derive, and refused when they derive
none.
-/

namespace Offside.Grammar

open Terminal (ofToken word name)

theorem allAgree_filter {tokens : List Token} {test : Token → Bool} (h : AllAgree tokens) :
    AllAgree (tokens.filter test) :=
  fun t ht => h t (List.mem_of_mem_filter ht)

/-- What the terminals derive is read, whether or not the tokens agree. -/
theorem ofTokens_of_derives {tokens : List Token} {p : Program}
    (h : Derives (.program p) (terminals tokens)) : Program.ofTokens tokens = .ok p := by
  let visible := tokens.filter fun t => !t.isWhitespace
  obtain ⟨rest, hread⟩ : ∃ rest, program (visible.length + 1) [] visible = .read p rest :=
    program_reads h rfl (Nat.le_succ _)
  simp only [Program.ofTokens, visible] at hread ⊢
  rw [hread]

theorem derives_of_ofTokens {tokens : List Token} {p : Program} (hagree : AllAgree tokens)
    (h : Program.ofTokens tokens = .ok p) : Derives (.program p) (terminals tokens) := by
  unfold Program.ofTokens at h
  dsimp only at h
  split at h
  · rename_i hread
    cases h
    exact program_derives (allAgree_filter hagree) hread
  · cases h
  · cases h

/-- Tokens that agree are read as a program exactly if they derive it, and they derive no other. -/
theorem ofTokens_exact (tokens : List Token) (hagree : AllAgree tokens) :
    (∀ p, Program.ofTokens tokens = .ok p ↔ Derives (.program p) (terminals tokens)) ∧
      ∀ p q, Derives (.program p) (terminals tokens) → Derives (.program q) (terminals tokens) →
        p = q := by
  refine ⟨fun p => ⟨derives_of_ofTokens hagree, ofTokens_of_derives⟩, ?_⟩
  intro p q hp hq
  have h := (ofTokens_of_derives hp).symm.trans (ofTokens_of_derives hq)
  exact Except.ok.inj h

/-- The tokens of `x = 1 < y`. -/
def comparisonTokens : List Token :=
  [⟨.name, .name "x", "x", ⟨1, 1⟩⟩, ⟨.whitespace, .none, " ", ⟨1, 2⟩⟩,
    ⟨.assign, .none, "=", ⟨1, 3⟩⟩, ⟨.int, .int 1, "1", ⟨1, 5⟩⟩, ⟨.less, .none, "<", ⟨1, 7⟩⟩,
    ⟨.name, .name "y", "y", ⟨1, 9⟩⟩, ⟨.newline, .none, "\n", ⟨1, 10⟩⟩,
    ⟨.endOfFile, .none, "", ⟨2, 1⟩⟩]

theorem ofTokens_exact_comparison :
    AllAgree comparisonTokens ∧
      Derives (.program [.assign (.name "x") (.compare (.integer 1) [.less] [.name "y"])])
        [name "x", word .assign, ⟨.int, .int 1⟩, word .less, name "y", word .newline,
          word .endOfFile] := by
  have hagree : AllAgree comparisonTokens := by
    simp [comparisonTokens, AllAgree, Terminal.Agrees, ofToken]
  exact ⟨hagree, ((ofTokens_exact comparisonTokens hagree).1 _).mp rfl⟩

end Offside.Grammar
