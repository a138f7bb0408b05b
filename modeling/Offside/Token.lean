import Offside.Text.Position

/-!
# Tokens

A token is a kind, the value of a literal or name, the lexeme and the position where it starts.
Layout tokens stand for line ends and for changes of the indentation; those that no text stands
for have an empty lexeme.
-/

namespace Offside

open Text

inductive TokenKind where
  | openParen | closeParen | openBracket | closeBracket | openBrace | closeBrace
  | comma | colon | period
  | plus | minus | star | slash
  | equal | notEqual | greater | greaterEqual | less | lessEqual
  | assign | not
  | int | float | string | trueWord | falseWord | nullWord
  | name
  | ifWord | elseWord | whileWord | forWord | inWord | continueWord | breakWord | returnWord
  | funWord | classWord | varWord | mutWord | assertWord | passWord | thisWord
  | newline | indent | dedent | whitespace | endOfFile
deriving DecidableEq, Repr

namespace TokenKind

/-- The name of a kind in listings and messages. -/
def label : TokenKind → String
  | openParen => "OpenParen"
  | closeParen => "CloseParen"
  | openBracket => "OpenBracket"
  | closeBracket => "CloseBracket"
  | openBrace => "OpenBrace"
  | closeBrace => "CloseBrace"
  | comma => "Comma"
  | colon => "Colon"
  | period => "Period"
  | plus => "Plus"
  | minus => "Minus"
  | star => "Star"
  | slash => "Slash"
  | equal => "Eq"
  | notEqual => "NotEq"
  | greater => "Gt"
  | greaterEqual => "GtE"
  | less => "Lt"
  | lessEqual => "LtE"
  | assign => "Assign"
  | not => "Not"
  | int => "Int"
  | float => "Float"
  | string => "String"
  | trueWord => "True"
  | falseWord => "False"
  | nullWord => "Null"
  | name => "Name"
  | ifWord => "If"
  | elseWord => "Else"
  | whileWord => "While"
  | forWord => "For"
  | inWord => "In"
  | continueWord => "Continue"
  | breakWord => "Break"
  | returnWord => "Return"
  | funWord => "FunctionDef"
  | classWord => "ClassDef"
  | varWord => "VariableDeclaration"
  | mutWord => "Mutable"
  | assertWord => "Assert"
  | passWord => "Pass"
  | thisWord => "This"
  | newline => "NL"
  | indent => "Indent"
  | dedent => "Dedent"
  | whitespace => "Whitespace"
  | endOfFile => "Eof"

end TokenKind

inductive TokenValue where
  | none
  | int (n : Int64)
  | float (x : Float)
  | string (text : String)
  | name (name : String)
deriving DecidableEq

structure Token where
  kind : TokenKind
  value : TokenValue
  lexeme : String
  position : Position
deriving DecidableEq

namespace Token

def text (t : Token) : String :=
  match t.kind with
  | .newline | .indent | .dedent | .endOfFile => t.kind.label
  | _ => t.kind.label ++ "('" ++ t.lexeme ++ "')"

def isWhitespace (t : Token) : Bool := t.kind = .whitespace

end Token

/-! ## Texts that have no tokens -/

/-- Why a text cannot be cut into tokens, with the line where that shows. -/
inductive LexicalError where
  | unexpectedCharacter (c : Char) (line : Nat)
  /-- The line is the one that the string starts on. -/
  | unterminatedString (line : Nat)
  | misalignedIndentation (spaces line : Nat)
  | indentTooDeep (line : Nat)
  | tabIndentation (line : Nat)
  | integerOutOfRange (lexeme : String) (line : Nat)
  | unmatchedBracket (c : Char) (line : Nat)
deriving DecidableEq, Repr

/-- Spaces to a level of indentation. -/
def indentWidth : Nat := 4

namespace LexicalError

def line : LexicalError → Nat
  | unexpectedCharacter _ line | unterminatedString line | misalignedIndentation _ line
  | indentTooDeep line | tabIndentation line | integerOutOfRange _ line
  | unmatchedBracket _ line => line

def reason : LexicalError → String
  | unexpectedCharacter c _ => "unexpected character '" ++ c.toString ++ "'"
  | unterminatedString _ => "unterminated string literal"
  | misalignedIndentation spaces _ =>
    "indentation of " ++ toString spaces ++ " spaces is not a multiple of "
      ++ toString indentWidth
  | indentTooDeep _ => "indentation may only increase by one level at a time"
  | tabIndentation _ => "tabs are not allowed in indentation"
  | integerOutOfRange lexeme _ => "integer literal " ++ lexeme ++ " is out of range"
  | unmatchedBracket c _ => "unmatched '" ++ c.toString ++ "'"

def message (e : LexicalError) : String := "line " ++ toString e.line ++ ": " ++ e.reason

end LexicalError

end Offside
