import Mathlib.Data.List.Basic
import Offside.Proofs.Logic.Rules

/-!
# Parts of trees

The expressions that an expression or a statement evaluates by itself, and the statements in its
blocks, are smaller than the whole.
-/

namespace Offside

/-- The expressions directly inside an expression. -/
def Expr.children : Expr → List Expr
  | .list items => items
  | .dictionary entries => entries.flatMap fun e => [e.1, e.2]
  | .not operand | .negative operand => [operand]
  | .binary left _ right => [left, right]
  | .compare first _ operands => first :: operands
  | .call callee args keywords => callee :: args ++ keywords.map Prod.snd
  | .index target key => [target, key]
  | .member target _ => [target]
  | _ => []

/-- The expressions that a statement evaluates by itself. The target of an assignment is not
evaluated as a whole. -/
def Stmt.expressions : Stmt → List Expr
  | .assign target value => target.children ++ [value]
  | .ifElse test _ elseIfs _ => test :: elseIfs.map ElseIf.test
  | .whileLoop test _ | .assertion test => [test]
  | .forLoop _ iterable _ => [iterable]
  | .returnStmt value => value.toList
  | .expression e => [e]
  | _ => []

theorem Expr.sizeOf_of_mem_children {e child : Expr} (h : child ∈ e.children) :
    sizeOf child < sizeOf e := by
  cases e with
  | list items =>
    have : sizeOf child < sizeOf items := List.sizeOf_lt_of_mem h
    rw [Expr.list.sizeOf_spec]
    omega
  | dictionary entries =>
    obtain ⟨⟨key, value⟩, hentry, hchild⟩ := List.mem_flatMap.mp h
    have := List.sizeOf_lt_of_mem hentry
    rw [Prod.mk.sizeOf_spec] at this
    rw [Expr.dictionary.sizeOf_spec]
    rcases List.mem_pair.mp hchild with rfl | rfl <;> omega
  | not operand | negative operand | member operand =>
    rw [List.mem_singleton.mp h]
    simp +arith
  | binary left op right =>
    rw [Expr.binary.sizeOf_spec]
    rcases List.mem_pair.mp h with rfl | rfl <;> omega
  | index target key =>
    rw [Expr.index.sizeOf_spec]
    rcases List.mem_pair.mp h with rfl | rfl <;> omega
  | compare first ops operands =>
    rw [Expr.compare.sizeOf_spec]
    rcases List.mem_cons.mp h with rfl | h
    · omega
    · have := List.sizeOf_lt_of_mem h
      omega
  | call callee args keywords =>
    rw [Expr.call.sizeOf_spec]
    rcases List.mem_cons.mp h with rfl | h
    · omega
    rcases List.mem_append.mp h with h | h
    · have := List.sizeOf_lt_of_mem h
      omega
    · obtain ⟨⟨keyword, value⟩, hkeyword, rfl⟩ := List.mem_map.mp h
      have := List.sizeOf_lt_of_mem hkeyword
      rw [Prod.mk.sizeOf_spec] at this
      show sizeOf value < _
      omega
  | _ => cases h

theorem Stmt.sizeOf_of_mem_expressions {s : Stmt} {e : Expr} (h : e ∈ s.expressions) :
    sizeOf e < sizeOf s := by
  cases s with
  | assign target value =>
    rw [Stmt.assign.sizeOf_spec]
    rcases List.mem_append.mp h with h | h
    · have := Expr.sizeOf_of_mem_children h
      omega
    · rw [List.mem_singleton.mp h]
      omega
  | ifElse test body elseIfs otherwise =>
    rw [Stmt.ifElse.sizeOf_spec]
    rcases List.mem_cons.mp h with rfl | h
    · omega
    · obtain ⟨⟨test', body'⟩, hbranch, rfl⟩ := List.mem_map.mp h
      have := List.sizeOf_lt_of_mem hbranch
      rw [ElseIf.mk.sizeOf_spec] at this
      show sizeOf test' < _
      omega
  | whileLoop test body | forLoop binder iterable body | assertion test | expression test =>
    rw [List.mem_singleton.mp h]
    simp +arith
  | returnStmt value =>
    rw [Option.mem_toList.mp h]
    simp +arith
  | _ => cases h

theorem Stmt.sizeOf_of_mem_blocks {s inner : Stmt} {body : Block} (h : body ∈ s.blocks)
    (hinner : inner ∈ body) : sizeOf inner < sizeOf s := by
  have hbody := List.sizeOf_lt_of_mem hinner
  cases s with
  | ifElse test first elseIfs otherwise =>
    rw [Stmt.ifElse.sizeOf_spec]
    rcases List.mem_cons.mp h with rfl | h
    · omega
    rcases List.mem_append.mp h with h | h
    · obtain ⟨⟨test', body'⟩, hbranch, rfl⟩ := List.mem_map.mp h
      have := List.sizeOf_lt_of_mem hbranch
      rw [ElseIf.mk.sizeOf_spec] at this
      replace hbody : sizeOf inner < sizeOf body' := hbody
      omega
    · obtain rfl := Option.mem_toList.mp h
      rw [Option.some.sizeOf_spec]
      omega
  | whileLoop test first =>
    obtain rfl := List.mem_singleton.mp h
    rw [Stmt.whileLoop.sizeOf_spec]
    omega
  | forLoop binder iterable first =>
    obtain rfl := List.mem_singleton.mp h
    rw [Stmt.forLoop.sizeOf_spec]
    omega
  | _ => cases h

end Offside
