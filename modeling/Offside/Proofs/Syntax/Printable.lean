import Offside.Proofs.Decimal.Bits
import Offside.Proofs.Token.Lexemes
import Offside.Syntax.Same

/-!
# Trees that have a source form

The trees that some text could be read as: names are names, numbers have no sign, no string needs
both quotes, operators stand where they belong, and no block is empty.
-/

namespace Offside

open Decimal (IsPlain)

set_option autoImplicit true in
inductive Expr.Printable : Expr → Prop where
  | name : IsName n → Printable (.name n)
  | integer : 0 ≤ Int64.toInt n → Printable (.integer n)
  | float : IsPlain x → Printable (.float x)
  | string {content : String} :
    '"' ∉ content.toList ∨ '\'' ∉ content.toList → Printable (.string content)
  | boolean : Printable (.boolean b)
  | null : Printable .null
  | list {items : List Expr} : (∀ e ∈ items, Printable e) → Printable (.list items)
  | dictionary {entries : List (Expr × Expr)} :
    (∀ e ∈ entries, Printable e.1) → (∀ e ∈ entries, Printable e.2) →
    Printable (.dictionary entries)
  | not : Printable e → Printable (.not e)
  | negative : Printable e → Printable (.negative e)
  | binary :
    Printable left → Operator.isComparison op = false → Printable right →
    Printable (.binary left op right)
  | compare {ops : List Operator} {operands : List Expr} :
    Printable first → ops ≠ [] → (∀ op ∈ ops, op.isComparison = true) →
    ops.length = operands.length → (∀ e ∈ operands, Printable e) →
    Printable (.compare first ops operands)
  | call {args : List Expr} {keywords : List (String × Expr)} :
    Printable callee → (∀ e ∈ args, Printable e) → (∀ k ∈ keywords, IsName k.1) →
    (∀ k ∈ keywords, Printable k.2) → Printable (.call callee args keywords)
  | index : Printable target → Printable key → Printable (.index target key)
  | member : Printable target → IsName n → Printable (.member target n)

def LoopVariable.Printable : LoopVariable → Prop
  | .name n | .declared n _ => IsName n

/-- All of a definition is printable but the statements of its body. -/
structure FunctionDef.PrintableHead (f : FunctionDef) : Prop where
  name : IsName f.name
  parameters : ∀ n ∈ f.parameters, IsName n
  body : f.body ≠ []

set_option autoImplicit true in
inductive Stmt.Printable : Stmt → Prop where
  | functionDef {f : FunctionDef} :
    f.PrintableHead → (∀ s ∈ f.body, Printable s) → Printable (.functionDef f)
  | classDef {methods : List FunctionDef} :
    IsName n → (∀ f ∈ methods, f.PrintableHead) → (∀ f ∈ methods, ∀ s ∈ f.body, Printable s) →
    Printable (.classDef n methods)
  | declare : IsName n → Printable (.declare n isMutable)
  | assign : Expr.Printable target → Expr.Printable value → Printable (.assign target value)
  | ifElse {body : Block} {elseIfs : List ElseIf} {otherwise : Option Block} :
    Expr.Printable test → body ≠ [] → (∀ s ∈ body, Printable s) →
    (∀ b ∈ elseIfs, b.test.Printable ∧ b.body ≠ []) →
    (∀ b ∈ elseIfs, ∀ s ∈ b.body, Printable s) →
    (∀ b ∈ otherwise, b ≠ []) → (∀ b ∈ otherwise, ∀ s ∈ b, Printable s) →
    Printable (.ifElse test body elseIfs otherwise)
  | whileLoop {body : Block} :
    Expr.Printable test → body ≠ [] → (∀ s ∈ body, Printable s) → Printable (.whileLoop test body)
  | forLoop {body : Block} :
    LoopVariable.Printable binder → Expr.Printable iterable → body ≠ [] →
    (∀ s ∈ body, Printable s) → Printable (.forLoop binder iterable body)
  | returnStmt {value : Option Expr} :
    (∀ e ∈ value, e.Printable) → Printable (.returnStmt value)
  | breakStmt : Printable .breakStmt
  | continueStmt : Printable .continueStmt
  | assertion : Expr.Printable test → Printable (.assertion test)
  | expression : Expr.Printable e → Printable (.expression e)

def Program.Printable (p : Program) : Prop := ∀ s ∈ p, s.Printable

/-! ## Printable trees are the same as themselves -/

theorem Expr.sameAll_self {es : List Expr} (h : ∀ e ∈ es, e.same e = true) :
    Expr.sameAll es es = true := by
  induction es with
  | nil => rfl
  | cons e rest ih =>
    rw [List.forall_mem_cons] at h
    simp [Expr.sameAll, h.1, ih h.2]

theorem Expr.sameEntries_self {es : List (Expr × Expr)} (hkeys : ∀ e ∈ es, e.1.same e.1 = true)
    (hvalues : ∀ e ∈ es, e.2.same e.2 = true) : Expr.sameEntries es es = true := by
  induction es with
  | nil => rfl
  | cons e rest ih =>
    rw [List.forall_mem_cons] at hkeys hvalues
    simp [Expr.sameEntries, hkeys.1, hvalues.1, ih hkeys.2 hvalues.2]

theorem Expr.sameKeywords_self {ks : List (String × Expr)} (h : ∀ k ∈ ks, k.2.same k.2 = true) :
    Expr.sameKeywords ks ks = true := by
  induction ks with
  | nil => rfl
  | cons k rest ih =>
    rw [List.forall_mem_cons] at h
    simp [Expr.sameKeywords, h.1, ih h.2]

theorem Expr.Printable.same_self {e : Expr} (h : e.Printable) : e.same e = true := by
  induction h with
  | float hx => exact hx.beq_self
  | list _ ih => exact Expr.sameAll_self ih
  | dictionary _ _ ihkeys ihvalues => exact Expr.sameEntries_self ihkeys ihvalues
  | compare _ _ _ _ _ ihfirst ihoperands =>
    simp [Expr.same, ihfirst, Expr.sameAll_self ihoperands]
  | call _ _ _ _ ihcallee ihargs ihkeywords =>
    simp [Expr.same, ihcallee, Expr.sameAll_self ihargs, Expr.sameKeywords_self ihkeywords]
  | _ => simp_all [Expr.same]

theorem Stmt.sameAll_self {ss : List Stmt} (h : ∀ s ∈ ss, s.same s = true) :
    Stmt.sameAll ss ss = true := by
  induction ss with
  | nil => rfl
  | cons s rest ih =>
    rw [List.forall_mem_cons] at h
    simp [Stmt.sameAll, h.1, ih h.2]

theorem FunctionDef.same_self {f : FunctionDef} (h : ∀ s ∈ f.body, s.same s = true) :
    f.same f = true := by
  obtain ⟨name, parameters, body⟩ := f
  simp [FunctionDef.same, Stmt.sameAll_self h]

theorem FunctionDef.sameAll_self {fs : List FunctionDef}
    (h : ∀ f ∈ fs, ∀ s ∈ f.body, s.same s = true) : FunctionDef.sameAll fs fs = true := by
  induction fs with
  | nil => rfl
  | cons f rest ih =>
    rw [List.forall_mem_cons] at h
    simp [FunctionDef.sameAll, FunctionDef.same_self h.1, ih h.2]

theorem ElseIf.sameAll_self {bs : List ElseIf} (htests : ∀ b ∈ bs, b.test.same b.test = true)
    (hbodies : ∀ b ∈ bs, ∀ s ∈ b.body, s.same s = true) : ElseIf.sameAll bs bs = true := by
  induction bs with
  | nil => rfl
  | cons b rest ih =>
    obtain ⟨test, body⟩ := b
    rw [List.forall_mem_cons] at htests hbodies
    simp [ElseIf.sameAll, htests.1, Stmt.sameAll_self hbodies.1, ih htests.2 hbodies.2]

theorem Stmt.Printable.same_self {s : Stmt} (h : s.Printable) : s.same s = true := by
  induction h with
  | functionDef _ _ ih => exact FunctionDef.same_self ih
  | classDef _ _ _ ih => simp [Stmt.same, FunctionDef.sameAll_self ih]
  | declare => simp [Stmt.same]
  | assign htarget hvalue => simp [Stmt.same, htarget.same_self, hvalue.same_self]
  | @ifElse _ _ _ otherwise htest _ _ helseIfs _ _ _ ihbody ihelseIfs ihotherwise =>
    have helse : Stmt.sameOption otherwise otherwise = true := by
      cases otherwise with
      | none => rfl
      | some body => exact Stmt.sameAll_self (ihotherwise body rfl)
    simp [Stmt.same, htest.same_self, Stmt.sameAll_self ihbody,
      ElseIf.sameAll_self (fun b hb => (helseIfs b hb).1.same_self) ihelseIfs, helse]
  | whileLoop htest _ _ ih => simp [Stmt.same, htest.same_self, Stmt.sameAll_self ih]
  | forLoop _ hiterable _ _ ih => simp [Stmt.same, hiterable.same_self, Stmt.sameAll_self ih]
  | @returnStmt value hvalue =>
    cases value with
    | none => rfl
    | some e => exact (hvalue e rfl).same_self
  | breakStmt | continueStmt => rfl
  | assertion htest => exact htest.same_self
  | expression he => exact he.same_self

theorem Program.Printable.same_self {p : Program} (h : p.Printable) : p.same p = true :=
  Stmt.sameAll_self fun s hs => (h s hs).same_self

end Offside
