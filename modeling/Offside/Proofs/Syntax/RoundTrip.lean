import Offside.Proofs.Grammar.Exactness
import Offside.Proofs.Syntax.StatementReading

/-!
# Source forms are read back

The source form of a printable program has tokens, and they are read as the program it was written
from.
-/

namespace Offside

open Grammar
open Grammar.Terminal (word)
open Place (newLine)

/-- The line end that closes a text belongs to the innermost block that is open there. -/
theorem Program.Printable.tokens_text {p : Program} (h : p.Printable) :
    ∃ ts, tokens p.text = .ok ts ∧ Derives (.program p) (terminals ts) := by
  by_cases hempty : p = []
  · subst hempty
    have hreads : Place.Reads (newLine 0 []) [] ⟨[], 0, [], true⟩ := .refl _
    obtain ⟨ts, htokens, hterminals⟩ := Place.tokens_of_reads hreads
    refine ⟨ts, htokens, ?_⟩
    rw [hterminals]
    exact .program (.itemsLine .itemsNil)
  · obtain ⟨u, level, -, hcloses, hclosesAtEnd, hreads⟩ :=
      laid_items hempty fun s hs => (h s hs).laid 0
    have hend : Derives (.items p)
        (u ++ word .newline :: List.replicate level (word .dedent)) := by
      cases level with
      | zero => exact items_line (by simpa using hcloses)
      | succ level => exact hclosesAtEnd (Nat.succ_pos level)
    obtain ⟨ts, htokens, hterminals⟩ := Place.tokens_of_reads (hreads 0 [] (Nat.zero_le _))
    refine ⟨ts, ?_, ?_⟩
    · rwa [List.append_nil] at htokens
    · rw [hterminals]
      exact .program hend

/-- A printable program is read back from its source form, and as a tree that is the same. -/
theorem Program.read_text {p : Program} (h : p.Printable) :
    ∃ ts, tokens p.text = .ok ts ∧ Program.ofTokens ts = .ok p ∧ p.same p = true := by
  obtain ⟨ts, htokens, hderives⟩ := h.tokens_text
  exact ⟨ts, htokens, ofTokens_of_derives hderives, h.same_self⟩

/-- A function that tells whether its argument is odd. -/
def parity : Program :=
  [.functionDef ⟨"odd", ["n"],
    [.ifElse (.compare (.name "n") [.less] [.integer 2])
      [.returnStmt (some (.compare (.name "n") [.equal] [.integer 1]))] []
      (some [.returnStmt (some (.call (.name "odd")
        [.binary (.name "n") .subtract (.integer 2)] []))])]⟩]

theorem read_text_parity :
    Program.Printable parity ∧
      ∃ ts, tokens (Program.text parity) = .ok ts ∧ Program.ofTokens ts = .ok parity ∧
        Program.same parity parity = true := by
  have hodd : IsName "odd" := rfl
  have hn : IsName "n" := rfl
  have hone : Expr.Printable (.integer 1) := .integer (by decide)
  have htwo : Expr.Printable (.integer 2) := .integer (by decide)
  have htest : Expr.Printable (.compare (.name "n") [.less] [.integer 2]) :=
    .compare (.name hn) (List.cons_ne_nil _ _) (by decide) rfl (by simpa using htwo)
  have hbase : Expr.Printable (.compare (.name "n") [.equal] [.integer 1]) :=
    .compare (.name hn) (List.cons_ne_nil _ _) (by decide) rfl (by simpa using hone)
  have hrecursive : Expr.Printable
      (.call (.name "odd") [.binary (.name "n") .subtract (.integer 2)] []) :=
    .call (.name hodd) (by simpa using .binary (.name hn) rfl htwo) nofun nofun
  have hbranch : Stmt.Printable (.ifElse (.compare (.name "n") [.less] [.integer 2])
      [.returnStmt (some (.compare (.name "n") [.equal] [.integer 1]))] []
      (some [.returnStmt (some (.call (.name "odd")
        [.binary (.name "n") .subtract (.integer 2)] []))])) :=
    .ifElse htest (List.cons_ne_nil _ _) (by simpa using .returnStmt (by simpa using hbase))
      nofun nofun (by simp) (by simpa using .returnStmt (by simpa using hrecursive))
  have hprintable : Program.Printable parity := by
    intro s hs
    obtain rfl := List.mem_singleton.mp hs
    exact .functionDef ⟨hodd, by simpa using hn, List.cons_ne_nil _ _⟩ (by simpa using hbranch)
  exact ⟨hprintable, Program.read_text hprintable⟩

end Offside
