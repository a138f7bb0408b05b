import Offside.Syntax.Tree

/-!
# Equality of trees

Float literals are compared as numbers, so a literal that is not a number makes a tree differ from
itself, and a zero is the same with either sign. All else is compared part by part.
-/

namespace Offside

mutual

def Expr.same : Expr → Expr → Bool
  | .name a, .name b => a == b
  | .integer a, .integer b => a == b
  | .float a, .float b => a == b
  | .string a, .string b => a == b
  | .boolean a, .boolean b => a == b
  | .null, .null => true
  | .list a, .list b => Expr.sameAll a b
  | .dictionary a, .dictionary b => Expr.sameEntries a b
  | .not a, .not b => a.same b
  | .negative a, .negative b => a.same b
  | .binary a op c, .binary b op' d => a.same b && op == op' && c.same d
  | .compare a ops c, .compare b ops' d => a.same b && ops == ops' && Expr.sameAll c d
  | .call a args keywords, .call b args' keywords' =>
    a.same b && Expr.sameAll args args' && Expr.sameKeywords keywords keywords'
  | .index a c, .index b d => a.same b && c.same d
  | .member a n, .member b m => a.same b && n == m
  | _, _ => false
termination_by structural e => e

def Expr.sameAll : List Expr → List Expr → Bool
  | [], [] => true
  | a :: as, b :: bs => a.same b && Expr.sameAll as bs
  | _, _ => false
termination_by structural es => es

def Expr.sameEntries : List (Expr × Expr) → List (Expr × Expr) → Bool
  | [], [] => true
  | (a, c) :: as, (b, d) :: bs => a.same b && c.same d && Expr.sameEntries as bs
  | _, _ => false
termination_by structural es => es

def Expr.sameKeywords : List (String × Expr) → List (String × Expr) → Bool
  | [], [] => true
  | (keyword, a) :: as, (keyword', b) :: bs =>
    keyword == keyword' && a.same b && Expr.sameKeywords as bs
  | _, _ => false
termination_by structural es => es

end

def Expr.sameOption : Option Expr → Option Expr → Bool
  | none, none => true
  | some a, some b => a.same b
  | _, _ => false

mutual

def Stmt.same : Stmt → Stmt → Bool
  | .functionDef a, .functionDef b => a.same b
  | .classDef name as, .classDef name' bs => name == name' && FunctionDef.sameAll as bs
  | .declare name m, .declare name' m' => name == name' && m == m'
  | .assign a c, .assign b d => a.same b && c.same d
  | .ifElse a body elseIfs otherwise, .ifElse b body' elseIfs' otherwise' =>
    a.same b && Stmt.sameAll body body' && ElseIf.sameAll elseIfs elseIfs' &&
      Stmt.sameOption otherwise otherwise'
  | .whileLoop a body, .whileLoop b body' => a.same b && Stmt.sameAll body body'
  | .forLoop v a body, .forLoop v' b body' => v == v' && a.same b && Stmt.sameAll body body'
  | .returnStmt a, .returnStmt b => Expr.sameOption a b
  | .breakStmt, .breakStmt => true
  | .continueStmt, .continueStmt => true
  | .assertion a, .assertion b => a.same b
  | .expression a, .expression b => a.same b
  | _, _ => false
termination_by structural s => s

def FunctionDef.same : FunctionDef → FunctionDef → Bool
  | ⟨name, parameters, body⟩, ⟨name', parameters', body'⟩ =>
    name == name' && parameters == parameters' && Stmt.sameAll body body'
termination_by structural f => f

def Stmt.sameAll : List Stmt → List Stmt → Bool
  | [], [] => true
  | a :: as, b :: bs => a.same b && Stmt.sameAll as bs
  | _, _ => false
termination_by structural ss => ss

def FunctionDef.sameAll : List FunctionDef → List FunctionDef → Bool
  | [], [] => true
  | a :: as, b :: bs => a.same b && FunctionDef.sameAll as bs
  | _, _ => false
termination_by structural fs => fs

def ElseIf.sameAll : List ElseIf → List ElseIf → Bool
  | [], [] => true
  | ⟨a, body⟩ :: as, ⟨b, body'⟩ :: bs =>
    a.same b && Stmt.sameAll body body' && ElseIf.sameAll as bs
  | _, _ => false
termination_by structural bs => bs

def Stmt.sameOption : Option (List Stmt) → Option (List Stmt) → Bool
  | none, none => true
  | some a, some b => Stmt.sameAll a b
  | _, _ => false
termination_by structural b => b

end

def Program.same (p q : Program) : Bool := Stmt.sameAll p q

end Offside
