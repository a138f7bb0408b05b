import Offside.Machine
import Offside.Proofs.Store.Meets

/-!
# Chains of comparisons are conjunctions

A single comparison is a chain with one link. A chain of names and scalars is the conjunction of the
comparisons of its adjacent operands: these are carried out in order, up to the first that does not
hold or that fails, and nothing after it is evaluated. That an operand in the middle then is
evaluated twice does not matter, because that only reads the store.
-/

namespace Offside

open Run

/-! ## Conjunctions -/

namespace Expr

/-- The expression is a name or stands for a scalar. -/
def isOperand : Expr → Bool
  | .name _ | .integer _ | .float _ | .string _ | .boolean _ | .null => true
  | _ => false

/-- The comparisons of adjacent operands in a chain. -/
def adjacent (first : Expr) : List (Operator × Expr) → List Expr
  | [] => []
  | (op, operand) :: rest => .binary first op operand :: adjacent operand rest

/-- Evaluates expressions in order. The first that is not true is the result. -/
def conjunction (eval : Expr → Run Value) : List Expr → Run Value
  | [] => return .boolean true
  | e :: rest => do
    match ← eval e with
    | .boolean true => conjunction eval rest
    | v => return v

variable {e first left right : Expr} {op : Operator} {fuel : Nat} {scope : Scope}
  {links : List (Operator × Expr)}

/-- An operand only reads the store. -/
theorem eval_operand (h : e.isOperand = true) (fuel : Nat) (scope : Scope) :
    ∃ f, e.eval (fuel + 1) scope = readExcept f := by
  cases e with
  | name n => exact ⟨scope.get n, rfl⟩
  | integer n => exact ⟨fun _ => .ok (.integer n), rfl⟩
  | float x => exact ⟨fun _ => .ok (.float x), rfl⟩
  | string text => exact ⟨fun _ => .ok (.string text), rfl⟩
  | boolean b => exact ⟨fun _ => .ok (.boolean b), rfl⟩
  | null => exact ⟨fun _ => .ok .null, rfl⟩
  | _ => cases h

/-! ## One comparison -/

theorem eval_comparison (hop : op.isComparison = true) :
    (Expr.binary left op right).eval (fuel + 1) scope =
      left.eval fuel scope >>= fun v => right.eval fuel scope >>= fun w =>
        readExcept (Value.compares · op v w) >>= fun b => pure (.boolean b) := by
  cases op with
  | add | subtract | multiply | divide => cases hop
  | _ => rfl

theorem eval_compare_eq (ops : List Operator) (operands : List Expr) :
    (Expr.compare first ops operands).eval (fuel + 1) scope =
      first.eval fuel scope >>= fun v =>
        evalChain (Expr.eval fuel scope) v (ops.zip operands) >>= fun b => pure (.boolean b) := rfl

theorem evalChain_cons (eval : Expr → Run Value) (v : Value) :
    evalChain eval v ((op, e) :: links) = eval e >>= fun w =>
      readExcept (Value.compares · op v w) >>= fun b =>
        if b then evalChain eval w links else pure false := rfl

/-- A comparison is a chain with one link. -/
theorem eval_comparison_eq_compare (hop : op.isComparison = true) :
    (Expr.binary left op right).eval fuel scope =
      (Expr.compare left [op] [right]).eval fuel scope := by
  cases fuel with
  | zero => rfl
  | succ fuel =>
    rw [eval_comparison hop, eval_compare_eq, List.zip_cons_cons, List.zip_nil_left]
    simp only [evalChain_cons, bind_assoc]
    congr 1
    funext v
    congr 1
    funext w
    congr 1
    funext b
    cases b <;> rfl

/-! ## Chains -/

theorem conjunction_cons (eval : Expr → Run Value) (es : List Expr) :
    conjunction eval (e :: es) = eval e >>= fun v =>
      match v with
      | .boolean true => conjunction eval es
      | v => pure v := rfl

/-- A first link, and then a chain that begins with the operand of the link once more. -/
theorem conjunction_adjacent (hlinks : links ≠ []) (hops : ∀ l ∈ links, l.1.isComparison = true)
    (hoperands : ∀ l ∈ links, l.2.isOperand = true) :
    conjunction (Expr.eval (fuel + 2) scope) (adjacent first links) =
      first.eval (fuel + 1) scope >>= fun v =>
        evalChain (Expr.eval (fuel + 1) scope) v links >>= fun b => pure (.boolean b) := by
  induction links generalizing first with
  | nil => exact absurd rfl hlinks
  | cons link rest ih =>
    obtain ⟨op, e⟩ := link
    rw [List.forall_mem_cons] at hops hoperands
    obtain ⟨read, hread⟩ := eval_operand hoperands.1 fuel scope
    rw [adjacent, conjunction_cons, eval_comparison hops.1]
    simp only [evalChain_cons, bind_assoc, hread]
    congr 1
    funext v s
    simp only [bind_apply, readExcept]
    cases hw : read s with
    | error fault => rfl
    | ok w =>
      dsimp only
      cases hb : Value.compares s op v w with
      | error fault => rfl
      | ok b =>
        cases b with
        | false => rfl
        | true =>
          cases rest with
          | nil => rfl
          | cons link rest =>
            -- The operand is read for the second time, in the same store.
            have hrest := congrFun (@ih e (List.cons_ne_nil _ _) hops.2 hoperands.2) s
            rw [hread, bind_apply, readExcept, hw] at hrest
            exact hrest

/-- A comparison is a chain with one link, and a chain of names and scalars is the conjunction of
the comparisons of its adjacent operands. -/
theorem eval_compare (fuel : Nat) (scope : Scope) :
    (∀ left op right, op.isComparison = true →
      (Expr.binary left op right).eval fuel scope =
        (Expr.compare left [op] [right]).eval fuel scope) ∧
    ∀ first ops operands, ops ≠ [] → ops.length = operands.length →
      (∀ op ∈ ops, op.isComparison = true) →
      (∀ e ∈ first :: operands, e.isOperand = true) →
      (Expr.compare first ops operands).eval fuel scope =
        conjunction (Expr.eval fuel scope) (adjacent first (ops.zip operands)) := by
  refine ⟨fun _ _ _ => eval_comparison_eq_compare, ?_⟩
  intro first ops operands hne hlength hops hoperands
  have hlinks : ops.zip operands ≠ [] := by
    cases ops with
    | nil => exact absurd rfl hne
    | cons op ops =>
      cases operands with
      | nil => cases hlength
      | cons e operands => exact List.cons_ne_nil _ _
  cases fuel with
  | zero =>
    obtain ⟨link, rest, hzip⟩ := List.exists_cons_of_ne_nil hlinks
    rw [hzip]
    rfl
  | succ fuel =>
    cases fuel with
    | zero =>
      obtain ⟨link, rest, hzip⟩ := List.exists_cons_of_ne_nil hlinks
      rw [eval_compare_eq, hzip]
      rfl
    | succ fuel =>
      rw [eval_compare_eq, conjunction_adjacent hlinks]
      · exact fun link hlink => hops _ (List.of_mem_zip hlink).1
      · exact fun link hlink => hoperands _ (List.mem_cons_of_mem _ (List.of_mem_zip hlink).2)

/-- What follows the link that does not hold has no value. -/
def unfinishedChain : Expr :=
  .compare (.integer 2) [.less, .equal] [.integer 1, .name "missing"]

theorem eval_compare_unfinishedChain :
    unfinishedChain.eval 2 (Machine.new [] none).globals (Machine.new [] none).store =
      .done (.boolean false) (Machine.new [] none).store := by
  have hchain := (eval_compare 2 (Machine.new [] none).globals).2 (.integer 2) [.less, .equal]
    [.integer 1, .name "missing"] (List.cons_ne_nil _ _) rfl (by decide) (by decide)
  rw [unfinishedChain, hchain]
  rfl

end Expr

end Offside
