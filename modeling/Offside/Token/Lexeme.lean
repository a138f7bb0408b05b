import Offside.Decimal.Notation
import Offside.Text.Bytes
import Offside.Text.Letter
import Offside.Token

/-!
# Lexemes of operators, names and numbers

A lexeme at the start of a text is found by scanners, one for each operator, one for words and one
for numbers. All of them are tried, and the longest lexeme wins. A point belongs to a number only
between digits.
-/

namespace Offside.Lexeme

open Text

/-! ## Scanners -/

/-- Finds a lexeme at the start of a text: its kind, and the text after it. -/
abbrev Scanner := List Char → Option (TokenKind × List Char)

def literal (word : String) (kind : TokenKind) : Scanner := fun text =>
  if word.toList.isPrefixOf text then some (kind, text.drop word.toList.length) else none

def symbols : List (String × TokenKind) :=
  [("(", .openParen), (")", .closeParen), ("[", .openBracket), ("]", .closeBracket),
    ("\x7b", .openBrace), ("\x7d", .closeBrace), (",", .comma), (":", .colon), (".", .period),
    ("+", .plus), ("-", .minus), ("*", .star), ("/", .slash), ("==", .equal), ("!=", .notEqual),
    (">", .greater), (">=", .greaterEqual), ("<", .less), ("<=", .lessEqual), ("=", .assign),
    ("!", .not)]

def keyword? : String → Option TokenKind
  | "if" => some .ifWord
  | "else" => some .elseWord
  | "while" => some .whileWord
  | "for" => some .forWord
  | "in" => some .inWord
  | "continue" => some .continueWord
  | "break" => some .breakWord
  | "return" => some .returnWord
  | "fun" => some .funWord
  | "class" => some .classWord
  | "var" => some .varWord
  | "mut" => some .mutWord
  | "assert" => some .assertWord
  | "pass" => some .passWord
  | "this" => some .thisWord
  | "true" => some .trueWord
  | "false" => some .falseWord
  | "null" => some .nullWord
  | "not" => some .not
  | _ => none

/-- A keyword or a name. -/
def identifier : Scanner
  | [] => none
  | first :: tail =>
    if isNameStart first then do
      -- whole characters are cut off, here and below, so no cut is refused
      let (word, rest) ← cut? (first :: tail) (byteSize ((first :: tail).takeWhile isNamePart))
      return ((keyword? (String.ofList word)).getD .name, rest)
    else none

/-- The digits that a text starts with take one byte each. -/
def digits (text : List Char) : Nat := (text.takeWhile isAsciiDigit).length

def number : Scanner := fun text => do
  let whole := digits text
  if whole = 0 then none
  else
    let (_, rest) ← cut? text whole
    match rest with
    | '.' :: afterPoint =>
      let fraction := digits afterPoint
      if 0 < fraction then
        let (_, rest) ← cut? afterPoint fraction
        return (.float, rest)
      else return (.int, rest)
    | _ => return (.int, rest)

def scanners : List Scanner := symbols.map (fun s => literal s.1 s.2) ++ [identifier, number]

/-- The best find so far and the bytes that it leaves. A find that leaves fewer is better. -/
def better (best : Nat × Option (TokenKind × List Char)) (found : TokenKind × List Char) :
    Nat × Option (TokenKind × List Char) :=
  let left := byteSize found.2
  if left < best.1 then (left, some found) else best

/-- The first of the longest lexemes that the scanners find. -/
def race (scanners : List Scanner) : Scanner :=
  fun text => ((scanners.filterMap (· text)).foldl better (byteSize text + 1, none)).2

/-! ## Values -/

/-- The largest integer that a literal can denote. -/
def maxInteger : Nat := 2 ^ 63 - 1

def integer? (lexeme : List Char) : Option Int64 :=
  let n := Decimal.digitsValue lexeme
  if n ≤ maxInteger then some (Int64.ofNat n) else none

/-- The float nearest to a lexeme of digits, a point and digits. -/
def float (lexeme : List Char) : Float :=
  let whole := lexeme.takeWhile isAsciiDigit
  let fraction := lexeme.drop (whole.length + 1)
  Decimal.toFloat (Decimal.digitsValue (whole ++ fraction)) (-(fraction.length : Int))

/-- The value that a token of this kind carries, unless it is an integer out of range. -/
def value? (kind : TokenKind) (lexeme : List Char) : Option TokenValue :=
  match kind with
  | .name => some (.name (String.ofList lexeme))
  | .int => (integer? lexeme).map .int
  | .float => some (.float (float lexeme))
  | _ => some .none

end Offside.Lexeme
