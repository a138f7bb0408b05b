import Offside.Decimal.Notation
import Offside.Syntax.Tree

/-!
# The source form of a tree

Every operator stands in brackets with its operands, every statement on lines of its own, and
blocks are indented by four spaces a level. A tree that was read from a text is read again from its
source form, as long as its float literals are finite.
-/

namespace Offside

def commaSeparated (items : List (List Char)) : List Char := [',', ' '].intercalate items

def integerSource (n : Int64) : List Char := (toString n.toInt).toList

/-- A string in double quotes, or in single ones if it holds a double quote. -/
def stringSource (text : String) : List Char :=
  let quote := if text.toList.contains '"' then '\'' else '"'
  quote :: text.toList ++ [quote]

def Operator.source (op : Operator) : List Char := op.symbol.toList

/-! ## Expressions -/

mutual

def Expr.source : Expr → List Char
  | .name n => n.toList
  | .integer n => integerSource n
  | .float x => (Decimal.floatText x).toList
  | .string text => stringSource text
  | .boolean b => if b then "true".toList else "false".toList
  | .null => "null".toList
  | .list items => '[' :: commaSeparated (Expr.sources items) ++ [']']
  | .dictionary entries => '\x7b' :: commaSeparated (Expr.entrySources entries) ++ ['\x7d']
  | .not operand => "(not ".toList ++ operand.source ++ [')']
  | .negative operand => "(-".toList ++ operand.source ++ [')']
  | .binary left op right =>
    '(' :: left.source ++ ' ' :: op.source ++ ' ' :: right.source ++ [')']
  | .compare first ops operands => '(' :: first.source ++ Expr.chainSource operands ops ++ [')']
  | .call callee args keywords =>
    callee.source ++ '(' ::
      commaSeparated (Expr.sources args ++ Expr.keywordSources keywords) ++ [')']
  | .index target key => target.source ++ '[' :: key.source ++ [']']
  | .member target n => target.source ++ '.' :: n.toList
termination_by structural e => e

def Expr.sources : List Expr → List (List Char)
  | [] => []
  | e :: rest => e.source :: Expr.sources rest
termination_by structural es => es

def Expr.entrySources : List (Expr × Expr) → List (List Char)
  | [] => []
  | (key, value) :: rest =>
    (key.source ++ ':' :: ' ' :: value.source) :: Expr.entrySources rest
termination_by structural es => es

def Expr.keywordSources : List (String × Expr) → List (List Char)
  | [] => []
  | (keyword, value) :: rest =>
    (keyword.toList ++ '=' :: value.source) :: Expr.keywordSources rest
termination_by structural es => es

/-- Each operator with its operand, as far as there are both. -/
def Expr.chainSource : List Expr → List Operator → List Char
  | operand :: operands, op :: ops =>
    ' ' :: op.source ++ ' ' :: operand.source ++ Expr.chainSource operands ops
  | _, _ => []
termination_by structural es => es

end

/-! ## Statements -/

/-- One line of a block at this depth. -/
def lineSource (depth : Nat) (content : List Char) : List Char :=
  List.replicate (4 * depth) ' ' ++ content ++ ['\n']

def declarationSource (name : String) (isMutable : Bool) : List Char :=
  (if isMutable then "var mut ".toList else "var ".toList) ++ name.toList

def LoopVariable.source : LoopVariable → List Char
  | .name n => n.toList
  | .declared n isMutable => declarationSource n isMutable

mutual

def Stmt.source (depth : Nat) : Stmt → List Char
  | .functionDef definition => definition.source depth
  | .classDef name methods =>
    lineSource depth ("class ".toList ++ name.toList ++ [':']) ++
      match methods with
      | [] => lineSource (depth + 1) "pass".toList
      | methods => FunctionDef.sources (depth + 1) methods
  | .declare name isMutable => lineSource depth (declarationSource name isMutable)
  | .assign target value => lineSource depth (target.source ++ " = ".toList ++ value.source)
  | .ifElse test body elseIfs otherwise =>
    lineSource depth ("if ".toList ++ test.source ++ [':']) ++ Stmt.sources (depth + 1) body ++
      ElseIf.sources depth elseIfs ++ Stmt.elseSource depth otherwise
  | .whileLoop test body =>
    lineSource depth ("while ".toList ++ test.source ++ [':']) ++ Stmt.sources (depth + 1) body
  | .forLoop binder iterable body =>
    lineSource depth
        ("for ".toList ++ binder.source ++ " in ".toList ++ iterable.source ++ [':']) ++
      Stmt.sources (depth + 1) body
  | .returnStmt none => lineSource depth "return".toList
  | .returnStmt (some value) => lineSource depth ("return ".toList ++ value.source)
  | .breakStmt => lineSource depth "break".toList
  | .continueStmt => lineSource depth "continue".toList
  | .assertion test => lineSource depth ("assert ".toList ++ test.source)
  | .expression e => lineSource depth e.source
termination_by structural s => s

def FunctionDef.source (depth : Nat) : FunctionDef → List Char
  | ⟨name, parameters, body⟩ =>
    lineSource depth ("fun ".toList ++ name.toList ++ '(' ::
        commaSeparated (parameters.map String.toList) ++ "):".toList) ++
      Stmt.sources (depth + 1) body
termination_by structural f => f

def Stmt.sources (depth : Nat) : List Stmt → List Char
  | [] => []
  | s :: rest => s.source depth ++ Stmt.sources depth rest
termination_by structural ss => ss

def FunctionDef.sources (depth : Nat) : List FunctionDef → List Char
  | [] => []
  | f :: rest => f.source depth ++ FunctionDef.sources depth rest
termination_by structural fs => fs

def ElseIf.sources (depth : Nat) : List ElseIf → List Char
  | [] => []
  | ⟨test, body⟩ :: rest =>
    lineSource depth ("else if ".toList ++ test.source ++ [':']) ++
      Stmt.sources (depth + 1) body ++ ElseIf.sources depth rest
termination_by structural bs => bs

def Stmt.elseSource (depth : Nat) : Option (List Stmt) → List Char
  | none => []
  | some body => lineSource depth "else:".toList ++ Stmt.sources (depth + 1) body
termination_by structural b => b

end

def Expr.text (e : Expr) : String := String.ofList e.source

def Stmt.text (s : Stmt) : String := String.ofList (s.source 0)

def Program.text (p : Program) : String := String.ofList (Stmt.sources 0 p)

end Offside
