import Offside.Proofs.Grammar.Rules
import Offside.Token.Scan

/-!
# Derived brackets pair up

What is derived has as many closing brackets as opening ones.
-/

namespace Offside.Grammar

open Terminal (word name)
open Cursor (opener? closes?)

/-- How many brackets more are open after a terminal of this kind. -/
def bracketChange (kind : TokenKind) : Int :=
  if (opener? kind).isSome then 1 else if (closes? kind).isSome then -1 else 0

/-- How many more brackets the terminals open than they close. -/
def balance : List Terminal → Int
  | [] => 0
  | a :: u => bracketChange a.kind + balance u

@[simp] theorem balance_nil : balance [] = 0 := rfl

@[simp] theorem balance_cons (a : Terminal) (u : List Terminal) :
    balance (a :: u) = bracketChange a.kind + balance u := rfl

@[simp] theorem balance_append (u v : List Terminal) :
    balance (u ++ v) = balance u + balance v := by
  induction u with
  | nil => simp
  | cons a u ih =>
    rw [List.cons_append, balance_cons, balance_cons, ih]
    omega

@[simp] theorem balance_dedents (n : Nat) : balance (List.replicate n (word .dedent)) = 0 := by
  induction n with
  | zero => rfl
  | succ n ih =>
    rw [List.replicate_succ, balance_cons, ih]
    rfl

theorem bracketChange_operatorKind (op : Operator) : bracketChange (operatorKind op) = 0 := by
  cases op <;> rfl

theorem balance_binding (n : String) (isMutable : Bool) :
    balance (bindingTerminals n isMutable) = 0 := by
  cases isMutable <;> rfl

theorem balance_loop (binder : LoopVariable) : balance (loopTerminals binder) = 0 := by
  cases binder with
  | name n => rfl
  | declared n isMutable => exact balance_binding n isMutable

theorem derives_balance {p : Phrase} {u : List Terminal} (h : Derives p u) : balance u = 0 := by
  induction h with
  | productLink _ _ ih | sumLink _ _ ih | comparisonLink _ _ ih =>
    rw [balance_cons, Terminal.word_kind, bracketChange_operatorKind, ih]
    rfl
  | _ => simp_all [balance_binding, balance_loop, name, bracketChange, opener?, closes?]

end Offside.Grammar
