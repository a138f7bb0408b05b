import Offside.Text.Escaped
import Offside.Token

/-!
# Readers of token lists

A reader looks at the front of a token list. It reads a value and leaves the rest, or finds that
its construct does not begin here, or finds it begun and broken. Only a construct that does not
begin here leaves room for another one.
-/

namespace Offside

/-! ## Errors -/

/-- The constructs that the context of an error names. -/
inductive Construct where
  | program | statement | functionDefinition | classDefinition | returnStatement | ifStatement
  | whileStatement | forStatement | assertStatement | declaration | assignment
  | expressionStatement | block
  | compare | list | dictionary | parenthesized | call | index
deriving DecidableEq, Repr

def Construct.label : Construct → String
  | program => "program"
  | statement => "statement"
  | functionDefinition => "function_definition"
  | classDefinition => "class_definition"
  | returnStatement => "return_statement"
  | ifStatement => "if_statement"
  | whileStatement => "while_statement"
  | forStatement => "for_statement"
  | assertStatement => "assert_statement"
  | declaration => "declaration"
  | assignment => "assignment"
  | expressionStatement => "expression_statement"
  | block => "block"
  | compare => "compare"
  | list => "list"
  | dictionary => "dictionary"
  | parenthesized => "parenthesized"
  | call => "call"
  | index => "index"

inductive SyntaxErrorKind where
  | expected (kind : TokenKind)
  | expectedExpression
  | expectedStatement
  | expectedIdentifier
  | emptyBlock
  | invalidClassMember
  | positionalAfterKeyword
  | trailingTokens
deriving DecidableEq, Repr

def SyntaxErrorKind.text : SyntaxErrorKind → String
  | expected kind => "Expected \"" ++ kind.label ++ "\""
  | expectedExpression => "Expected an expression"
  | expectedStatement => "Expected a statement"
  | expectedIdentifier => "Expected an identifier"
  | emptyBlock => "Blocks must contain at least one statement"
  | invalidClassMember => "Class bodies may only contain function definitions and pass"
  | positionalAfterKeyword => "Positional argument follows keyword argument"
  | trailingTokens => "Unexpected tokens after end of program"

structure SyntaxError where
  kind : SyntaxErrorKind
  /-- The first token that does not fit, unless the list ends before one. -/
  token : Option Token
  /-- The constructs that were being read, the outermost first. -/
  context : List Construct
deriving DecidableEq

namespace SyntaxError

def line? (e : SyntaxError) : Option Nat := e.token.map fun t => t.position.line

def message (e : SyntaxError) : String :=
  "While parsing " ++ " > ".intercalate (e.context.map Construct.label) ++ "\n" ++ e.kind.text ++
    match e.token with
    | none => ""
    | some t =>
      " at " ++ t.position.text ++ " but found \"" ++ Text.escape t.lexeme ++ "\""

end SyntaxError

/-! ## Readers -/

inductive Reading (α : Type) where
  | read (value : α) (rest : List Token)
  | absent
  | broken (error : SyntaxError)

/-- The first argument is the context, the innermost construct first. -/
def Reader (α : Type) : Type := List Construct → List Token → Reading α

namespace Reader

variable {α β : Type}

protected def pure (a : α) : Reader α := fun _ tokens => .read a tokens

protected def bind (r : Reader α) (f : α → Reader β) : Reader β := fun context tokens =>
  match r context tokens with
  | .read a rest => f a context rest
  | .absent => .absent
  | .broken e => .broken e

instance : Monad Reader where
  pure := Reader.pure
  bind := Reader.bind

def absent : Reader α := fun _ _ => .absent

/-- The tokens still to read. -/
def here : Reader (List Token) := fun _ tokens => .read tokens tokens

/-- Reads from other tokens than those still to read. -/
def startingAt (start : List Token) (r : Reader α) : Reader α := fun context _ => r context start

def breakAt (kind : SyntaxErrorKind) (start : List Token) : Reader α := fun context _ =>
  .broken ⟨kind, start.head?, context.reverse⟩

/-- Reads a part of the given construct. -/
def within (construct : Construct) (r : Reader α) : Reader α := fun context tokens =>
  r (construct :: context) tokens

/-- Where the construct has to begin, its absence is an error. -/
def commit (kind : SyntaxErrorKind) (r : Reader α) : Reader α := fun context tokens =>
  match r context tokens with
  | .absent => breakAt kind tokens context tokens
  | reading => reading

/-- The second reader, where the first finds nothing. -/
protected def orElse (r : Reader α) (s : Unit → Reader α) : Reader α := fun context tokens =>
  match r context tokens with
  | .absent => s () context tokens
  | reading => reading

instance : OrElse (Reader α) := ⟨Reader.orElse⟩

def optional (r : Reader α) : Reader (Option α) := (some <$> r) <|> pure none

/-- Reads one after another while there is one, as many as the limit at most. -/
def many (r : Reader α) : Nat → Reader (List α)
  | 0 => pure []
  | limit + 1 => (do return (← r) :: (← many r limit)) <|> pure []

/-! ## Single tokens -/

/-- Reads a token that passes a test, giving what the test finds in it. -/
def token (test : Token → Option α) : Reader α := fun _ tokens =>
  match tokens with
  | [] => .absent
  | t :: rest =>
    match test t with
    | some a => .read a rest
    | none => .absent

def expect (kind : TokenKind) : Reader Unit := token fun t => if t.kind = kind then some () else none

def require (kind : TokenKind) : Reader Unit := commit (.expected kind) (expect kind)

def nameOf? (t : Token) : Option String :=
  match t.value with
  | .name name => some name
  | _ => none

/-- A name is told by its value, whatever the kind of the token is. -/
def identifier : Reader String := token nameOf?

def requireIdentifier : Reader String := commit .expectedIdentifier identifier

def skipNewlines : Reader Unit := fun _ tokens =>
  .read () (tokens.dropWhile fun t => t.kind = .newline)

/-! ## Lists -/

/-- Any number of items with commas between them. A comma is followed by an item, or else the error
is of the given kind. -/
def separated (missing : SyntaxErrorKind) (limit : Nat) (item : Reader α) : Reader (List α) :=
  (do
    let first ← item
    let others ← many (do expect .comma; commit missing item) limit
    return first :: others) <|> pure []

end Reader

end Offside
