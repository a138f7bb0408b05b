import Offside.Grammar.Expression

/-!
# Reading statements and programs

Every statement begins with a word of its own, but for assignments and expressions. A line may give
no statement, as `pass` does, or two, as a declaration with a value does. A reader that needs
statements inside a block gets that reader as `inner`, and `limit` is at least the number of tokens
still to read.
-/

namespace Offside.Grammar

open Reader

/-! ## Blocks -/

/-- Whether a block or the program ends here. -/
def atEnd : Reader Bool := fun _ tokens =>
  match tokens with
  | [] => .read true tokens
  | t :: _ => .read (t.kind = .endOfFile || t.kind = .dedent) tokens

/-- The next statements of a block that does not end here, after empty lines. -/
def nextLine (inner : Reader Block) : Reader Block := do
  skipNewlines
  if ← atEnd then absent else inner

/-- Statements up to the end of the block, with empty lines among them. -/
def statements (inner : Reader Block) (limit : Nat) : Reader Block := do
  let lines ← many (nextLine inner) limit
  skipNewlines
  return lines.flatten

def block (inner : Reader Block) (limit : Nat) : Reader Block :=
  within .block do
    require .indent
    let start ← here
    let body ← statements inner limit
    if body.isEmpty then breakAt .emptyBlock start
    else
      require .dedent
      return body

/-- The block after the colon of a header. -/
def headedBlock (inner : Reader Block) (limit : Nat) : Reader Block := do
  require .colon
  require .newline
  block inner limit

/-! ## Definitions -/

def parameters (limit : Nat) : Reader (List String) :=
  separated .expectedIdentifier limit identifier

def functionDefinition (inner : Reader Block) (limit : Nat) : Reader FunctionDef := do
  expect .funWord
  within .functionDefinition do
    let name ← requireIdentifier
    require .openParen
    let parameters ← parameters limit
    require .closeParen
    let body ← headedBlock inner limit
    return ⟨name, parameters, body⟩

/-- A method, or nothing for `pass`. -/
def classMember (inner : Reader Block) (limit : Nat) : Reader (Option FunctionDef) :=
  (do
    expect .passWord
    require .newline
    return none) <|> some <$> functionDefinition inner limit

/-- The next member of a class body that does not end here, after empty lines. -/
def nextMember (inner : Reader Block) (limit : Nat) : Reader (Option FunctionDef) := do
  skipNewlines
  if (← here).head?.any fun t => t.kind = .dedent then absent
  else commit .invalidClassMember (classMember inner limit)

/-- Members up to the end of the class body, with empty lines among them. -/
def classMembers (inner : Reader Block) (limit : Nat) : Reader (List (Option FunctionDef)) := do
  let members ← many (nextMember inner limit) limit
  skipNewlines
  return members

def classDefinition (inner : Reader Block) (limit : Nat) : Reader Stmt := do
  expect .classWord
  within .classDefinition do
    let name ← requireIdentifier
    require .colon
    require .newline
    require .indent
    let start ← here
    let members ← classMembers inner limit
    if members.isEmpty then breakAt .emptyBlock start
    else
      require .dedent
      return .classDef name (members.filterMap id)

/-! ## Branches and loops -/

def elseIf (inner : Reader Block) (limit : Nat) : Reader ElseIf := do
  expect .elseWord
  expect .ifWord
  let test ← required (expression limit)
  return ⟨test, ← headedBlock inner limit⟩

def ifStatement (inner : Reader Block) (limit : Nat) : Reader Stmt := do
  expect .ifWord
  within .ifStatement do
    let test ← required (expression limit)
    let body ← headedBlock inner limit
    let elseIfs ← many (elseIf inner limit) limit
    let otherwise ← optional do
      expect .elseWord
      headedBlock inner limit
    return .ifElse test body elseIfs otherwise

def whileStatement (inner : Reader Block) (limit : Nat) : Reader Stmt := do
  expect .whileWord
  within .whileStatement do
    let test ← required (expression limit)
    return .whileLoop test (← headedBlock inner limit)

/-- Whether the word for a mutable variable stands here. -/
def mutability : Reader Bool := return (← optional (expect .mutWord)).isSome

def loopVariable : Reader LoopVariable :=
  (do
    expect .varWord
    let isMutable ← mutability
    return .declared (← requireIdentifier) isMutable) <|> .name <$> requireIdentifier

def forStatement (inner : Reader Block) (limit : Nat) : Reader Stmt := do
  expect .forWord
  within .forStatement do
    let binder ← loopVariable
    require .inWord
    let iterable ← required (expression limit)
    return .forLoop binder iterable (← headedBlock inner limit)

/-! ## Simple statements -/

def returnStatement (limit : Nat) : Reader Stmt := do
  expect .returnWord
  within .returnStatement do
    (do expect .newline; return .returnStmt none) <|> do
      let value ← required (expression limit)
      require .newline
      return .returnStmt (some value)

/-- A statement that is a word alone. -/
def wordStatement (word : TokenKind) (s : Block) : Reader Block := do
  expect word
  require .newline
  return s

def assertStatement (limit : Nat) : Reader Stmt := do
  expect .assertWord
  within .assertStatement do
    let test ← required (expression limit)
    require .newline
    return .assertion test

def assignment (limit : Nat) : Reader Stmt := do
  let target ← expression limit
  expect .assign
  within .assignment do
    let value ← required (expression limit)
    require .newline
    return .assign target value

/-- A variable without a value, or one that is declared and then assigned to. -/
def declaration (limit : Nat) : Reader Block := do
  expect .varWord
  within .declaration do
    let isMutable ← mutability
    let start ← here
    let name ← requireIdentifier
    if (← here).head?.any fun t => t.kind = .assign then
      let value ← startingAt start (commit .expectedStatement (assignment limit))
      return [.declare name isMutable, value]
    else
      require .newline
      return [.declare name isMutable]

def expressionStatement (limit : Nat) : Reader Stmt := do
  let e ← expression limit
  within .expressionStatement do
    require .newline
    return .expression e

/-! ## Statements and programs -/

def single (r : Reader Stmt) : Reader Block := do return [← r]

/-- The statements of one line, or of one construct with blocks. -/
def line (inner : Reader Block) (limit : Nat) : Reader Block :=
  within .statement <| commit .expectedStatement <|
    single (.functionDef <$> functionDefinition inner limit)
    <|> single (classDefinition inner limit)
    <|> single (returnStatement limit)
    <|> single (ifStatement inner limit)
    <|> single (whileStatement inner limit)
    <|> single (forStatement inner limit)
    <|> wordStatement .continueWord [.continueStmt]
    <|> wordStatement .breakWord [.breakStmt]
    <|> single (assertStatement limit)
    <|> declaration limit
    <|> single (assignment limit)
    <|> wordStatement .passWord []
    <|> single (expressionStatement limit)

/-- Reads a statement with less than `depth` blocks around any part of it. -/
def statement : Nat → Reader Block
  | 0 => within .statement (commit .expectedStatement absent)
  | depth + 1 => line (statement depth) (depth + 1)

/-- The end of the file and nothing after it. -/
def endOfProgram : Reader Unit := do
  let rest ← here
  match rest with
  | [t] => if t.kind = .endOfFile then pure () else breakAt .trailingTokens rest
  | _ => breakAt .trailingTokens rest

def program (depth : Nat) : Reader Program :=
  within .program do
    let body ← statements (statement depth) depth
    endOfProgram
    return body

end Offside.Grammar

namespace Offside

/-- The program that the tokens of a text are read as. -/
def Program.ofTokens (tokens : List Token) : Except SyntaxError Program :=
  let tokens := tokens.filter fun t => !t.isWhitespace
  match Grammar.program (tokens.length + 1) [] tokens with
  | .read p _ => .ok p
  | .broken e => .error e
  | .absent => .error ⟨.expectedStatement, tokens.head?, [.program]⟩

end Offside
