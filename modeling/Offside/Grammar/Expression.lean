import Offside.Grammar.Reader
import Offside.Syntax.Tree

/-!
# Reading expressions

Comparisons bind loosest, then sums, then products, then the signs before an operand, then calls,
members and indices after it. A reader that needs whole expressions inside brackets gets that
reader as `inner`, and `limit` is at least the number of tokens still to read.
-/

namespace Offside.Grammar

open Reader

/-- An expression where one has to stand. -/
def required (inner : Reader Expr) : Reader Expr := commit .expectedExpression inner

/-! ## Operands -/

/-- Names and literals are told by the value of the token, and the three words by its kind. -/
def atom? (t : Token) : Option Expr :=
  match t.value with
  | .name name => some (.name name)
  | value =>
    match t.kind, value with
    | .trueWord, _ => some (.boolean true)
    | .falseWord, _ => some (.boolean false)
    | _, .string text => some (.string text)
    | _, .int n => some (.integer n)
    | .nullWord, _ => some .null
    | _, .float x => some (.float x)
    | _, _ => none

def list (inner : Reader Expr) (limit : Nat) : Reader Expr := do
  expect .openBracket
  within .list do
    let items ← separated .expectedExpression limit inner
    require .closeBracket
    return .list items

def dictionaryEntry (inner : Reader Expr) : Reader (Expr × Expr) := do
  let key ← inner
  require .colon
  let value ← required inner
  return (key, value)

def dictionary (inner : Reader Expr) (limit : Nat) : Reader Expr := do
  expect .openBrace
  within .dictionary do
    let entries ← separated .expectedExpression limit (dictionaryEntry inner)
    require .closeBrace
    return .dictionary entries

def parenthesized (inner : Reader Expr) : Reader Expr := do
  expect .openParen
  within .parenthesized do
    let e ← required inner
    require .closeParen
    return e

def primary (inner : Reader Expr) (limit : Nat) : Reader Expr :=
  token atom? <|> list inner limit <|> dictionary inner limit <|> parenthesized inner

/-! ## What follows an operand -/

inductive Argument where
  | positional (value : Expr)
  | keyword (name : String) (value : Expr)

def Argument.isKeyword : Argument → Bool
  | positional _ => false
  | keyword _ _ => true

def Argument.positional? : Argument → Option Expr
  | positional value => some value
  | keyword _ _ => none

def Argument.keyword? : Argument → Option (String × Expr)
  | positional _ => none
  | keyword name value => some (name, value)

/-- Whether no positional argument stands after a keyword argument. -/
def Argument.inOrder (arguments : List Argument) : Bool :=
  (arguments.dropWhile fun a => !a.isKeyword).all Argument.isKeyword

def argument (inner : Reader Expr) : Reader Argument :=
  (do
    let name ← identifier
    expect .assign
    return .keyword name (← required inner)) <|> .positional <$> inner

/-- What stands after an operand and makes a larger operand of it. -/
inductive Suffix where
  | call (args : List Expr) (keywords : List (String × Expr))
  | member (name : String)
  | index (key : Expr)

def Suffix.apply (target : Expr) : Suffix → Expr
  | call args keywords => .call target args keywords
  | member name => .member target name
  | index key => .index target key

def callSuffix (inner : Reader Expr) (limit : Nat) : Reader Suffix := do
  expect .openParen
  within .call do
    let start ← here
    let arguments ← separated .expectedExpression limit (argument inner)
    if Argument.inOrder arguments then
      require .closeParen
      return .call (arguments.filterMap Argument.positional?)
        (arguments.filterMap Argument.keyword?)
    else breakAt .positionalAfterKeyword start

def memberSuffix : Reader Suffix := do
  expect .period
  return .member (← requireIdentifier)

def indexSuffix (inner : Reader Expr) : Reader Suffix := do
  expect .openBracket
  within .index do
    let key ← required inner
    require .closeBracket
    return .index key

def suffix (inner : Reader Expr) (limit : Nat) : Reader Suffix :=
  callSuffix inner limit <|> memberSuffix <|> indexSuffix inner

def postfixed (inner : Reader Expr) (limit : Nat) : Reader Expr := do
  let target ← primary inner limit
  let suffixes ← many (suffix inner limit) limit
  return suffixes.foldl Suffix.apply target

/-! ## Operators -/

inductive Sign where
  | not
  | minus

def Sign.apply : Sign → Expr → Expr
  | not, e => .not e
  | minus, e => .negative e

def sign? (t : Token) : Option Sign :=
  match t.kind with
  | .not => some .not
  | .minus => some .minus
  | _ => none

def unary (inner : Reader Expr) (limit : Nat) : Reader Expr := do
  match ← many (token sign?) limit with
  | [] => postfixed inner limit
  | signs => return signs.foldr Sign.apply (← required (postfixed inner limit))

def product? (t : Token) : Option Operator :=
  match t.kind with
  | .star => some .multiply
  | .slash => some .divide
  | _ => none

def sum? (t : Token) : Option Operator :=
  match t.kind with
  | .plus => some .add
  | .minus => some .subtract
  | _ => none

def comparison? (t : Token) : Option Operator :=
  match t.kind with
  | .equal => some .equal
  | .notEqual => some .notEqual
  | .greater => some .greater
  | .greaterEqual => some .greaterEqual
  | .less => some .less
  | .lessEqual => some .lessEqual
  | _ => none

/-- An operator and the operand that has to follow it. -/
def link (operator? : Token → Option Operator) (operand : Reader Expr) :
    Reader (Operator × Expr) := do
  let op ← token operator?
  return (op, ← required operand)

/-- Puts operands together from the left. -/
def leftGroup (first : Expr) (others : List (Operator × Expr)) : Expr :=
  others.foldl (fun left (op, right) => .binary left op right) first

/-- Operands with operators between them, grouped from the left. -/
def leftGrouped (operator? : Token → Option Operator) (operand : Reader Expr) (limit : Nat) :
    Reader Expr := do
  let first ← operand
  let others ← many (link operator? operand) limit
  return leftGroup first others

def multiplicative (inner : Reader Expr) (limit : Nat) : Reader Expr :=
  leftGrouped product? (unary inner limit) limit

def additive (inner : Reader Expr) (limit : Nat) : Reader Expr :=
  leftGrouped sum? (multiplicative inner limit) limit

def comparisonLink (operand : Reader Expr) : Reader (Operator × Expr) := do
  let op ← token comparison?
  within .compare do return (op, ← required operand)

/-- One operand, or a chain of comparisons. -/
def compared (first : Expr) (links : List (Operator × Expr)) : Expr :=
  if links.isEmpty then first else .compare first (links.map Prod.fst) (links.map Prod.snd)

def comparison (inner : Reader Expr) (limit : Nat) : Reader Expr := do
  let first ← additive inner limit
  let links ← many (comparisonLink (additive inner limit)) limit
  return compared first links

/-- Reads an expression with less than `depth` brackets around any part of it. -/
def expression : Nat → Reader Expr
  | 0 => absent
  | depth + 1 => comparison (expression depth) (depth + 1)

end Offside.Grammar
