import Offside.Grammar.Statement

/-!
# The grammar

The constructs of the language, with the terminals that each of them stands for. A terminal is the
kind and the value of a token, so that neither lexemes nor positions matter. White space has no
terminals.
-/

namespace Offside.Grammar

/-! ## Terminals -/

structure Terminal where
  kind : TokenKind
  value : TokenValue
deriving DecidableEq

namespace Terminal

def ofToken (t : Token) : Terminal := ⟨t.kind, t.value⟩

/-- A terminal that is told by its kind alone. -/
def word (kind : TokenKind) : Terminal := ⟨kind, .none⟩

@[simp] theorem word_kind {kind : TokenKind} : (word kind).kind = kind := rfl

def name (n : String) : Terminal := ⟨.name, .name n⟩

/-- Names and literals carry a value of their kind, and nothing else carries one. -/
def Agrees (a : Terminal) : Prop :=
  match a.kind with
  | .name => ∃ n, a.value = .name n
  | .int => ∃ n, a.value = .int n
  | .float => ∃ x, a.value = .float x
  | .string => ∃ text, a.value = .string text
  | _ => a.value = .none

end Terminal

/-- The terminals of a list of tokens. White space has none. -/
def terminals (tokens : List Token) : List Terminal :=
  (tokens.filter fun t => !t.isWhitespace).map Terminal.ofToken

@[simp] theorem terminals_append (tokens rest : List Token) :
    terminals (tokens ++ rest) = terminals tokens ++ terminals rest := by
  simp [terminals, List.filter_append]

/-- The kind of the tokens that an operator is written as. -/
def operatorKind : Operator → TokenKind
  | .add => .plus
  | .subtract => .minus
  | .multiply => .star
  | .divide => .slash
  | .greater => .greater
  | .greaterEqual => .greaterEqual
  | .less => .less
  | .lessEqual => .lessEqual
  | .equal => .equal
  | .notEqual => .notEqual

/-! ## Phrases -/

/-- A construct together with what it is read as. -/
inductive Phrase where
  | expression (e : Expr)
  | comparisonLink (link : Operator × Expr)
  | additive (e : Expr)
  | sumLink (link : Operator × Expr)
  | multiplicative (e : Expr)
  | productLink (link : Operator × Expr)
  | unary (e : Expr)
  | postfixed (e : Expr)
  | suffix (s : Suffix)
  | primary (e : Expr)
  | entry (entry : Expr × Expr)
  | argument (a : Argument)
  | parameter (name : String)
  | functionDefinition (f : FunctionDef)
  | members (members : List (Option FunctionDef))
  | elseIf (branch : ElseIf)
  | otherwise (body : Option Block)
  | headedBlock (body : Block)
  | block (body : Block)
  | statement (statements : Block)
  | items (statements : Block)
  | program (p : Program)
  /-- Phrases one after another. -/
  | star (phrases : List Phrase)
  /-- Phrases with commas between them. -/
  | separated (phrases : List Phrase)

open Terminal (word name)

/-- The words that declare a variable, and its name. -/
def bindingTerminals (n : String) : Bool → List Terminal
  | false => [word .varWord, name n]
  | true => [word .varWord, word .mutWord, name n]

def loopTerminals : LoopVariable → List Terminal
  | .name n => [name n]
  | .declared n isMutable => bindingTerminals n isMutable

set_option autoImplicit true in
/-- The terminals of each phrase. -/
inductive Derives : Phrase → List Terminal → Prop where
  -- Repetition
  | starNil : Derives (.star []) []
  | starCons : Derives p u → Derives (.star ps) v → Derives (.star (p :: ps)) (u ++ v)
  | separatedNil : Derives (.separated []) []
  | separatedOne : Derives p u → Derives (.separated [p]) u
  | separatedCons :
    Derives p u → Derives (.separated (q :: ps)) v →
    Derives (.separated (p :: q :: ps)) (u ++ word .comma :: v)
  -- Operands
  | nameExpression (n : String) : Derives (.primary (.name n)) [name n]
  | integer (n : Int64) : Derives (.primary (.integer n)) [⟨.int, .int n⟩]
  | float (x : Float) : Derives (.primary (.float x)) [⟨.float, .float x⟩]
  | string (text : String) : Derives (.primary (.string text)) [⟨.string, .string text⟩]
  | true : Derives (.primary (.boolean true)) [word .trueWord]
  | false : Derives (.primary (.boolean false)) [word .falseWord]
  | null : Derives (.primary .null) [word .nullWord]
  | list {items : List Expr} :
    Derives (.separated (items.map .expression)) u →
    Derives (.primary (.list items)) (word .openBracket :: u ++ [word .closeBracket])
  | dictionary {entries : List (Expr × Expr)} :
    Derives (.separated (entries.map .entry)) u →
    Derives (.primary (.dictionary entries)) (word .openBrace :: u ++ [word .closeBrace])
  | entry :
    Derives (.expression key) u → Derives (.expression value) v →
    Derives (.entry (key, value)) (u ++ word .colon :: v)
  | parenthesized :
    Derives (.expression e) u → Derives (.primary e) (word .openParen :: u ++ [word .closeParen])
  -- What follows an operand
  | positional : Derives (.expression e) u → Derives (.argument (.positional e)) u
  | keyword :
    Derives (.expression e) u →
    Derives (.argument (.keyword n e)) (name n :: word .assign :: u)
  | call {args : List Expr} {keywords : List (String × Expr)} :
    Derives (.separated (args.map (fun e => .argument (.positional e)) ++
      keywords.map fun k => .argument (.keyword k.1 k.2))) u →
    Derives (.suffix (.call args keywords)) (word .openParen :: u ++ [word .closeParen])
  | member (n : String) : Derives (.suffix (.member n)) [word .period, name n]
  | index :
    Derives (.expression key) u →
    Derives (.suffix (.index key)) (word .openBracket :: u ++ [word .closeBracket])
  | postfixed {ss : List Suffix} :
    Derives (.primary target) u → Derives (.star (ss.map .suffix)) v →
    Derives (.postfixed (ss.foldl Suffix.apply target)) (u ++ v)
  -- Operators
  | not : Derives (.unary e) u → Derives (.unary (.not e)) (word .not :: u)
  | negative : Derives (.unary e) u → Derives (.unary (.negative e)) (word .minus :: u)
  | unsigned : Derives (.postfixed e) u → Derives (.unary e) u
  | productLink :
    op = .multiply ∨ op = .divide → Derives (.unary e) u →
    Derives (.productLink (op, e)) (word (operatorKind op) :: u)
  | multiplicative {others : List (Operator × Expr)} :
    Derives (.unary first) u → Derives (.star (others.map .productLink)) v →
    Derives (.multiplicative (leftGroup first others)) (u ++ v)
  | sumLink :
    op = .add ∨ op = .subtract → Derives (.multiplicative e) u →
    Derives (.sumLink (op, e)) (word (operatorKind op) :: u)
  | additive {others : List (Operator × Expr)} :
    Derives (.multiplicative first) u → Derives (.star (others.map .sumLink)) v →
    Derives (.additive (leftGroup first others)) (u ++ v)
  | comparisonLink {op : Operator} :
    op.isComparison = .true → Derives (.additive e) u →
    Derives (.comparisonLink (op, e)) (word (operatorKind op) :: u)
  /-- Without links the first operand is the whole expression. -/
  | expression {links : List (Operator × Expr)} :
    Derives (.additive first) u → Derives (.star (links.map .comparisonLink)) v →
    Derives (.expression (compared first links)) (u ++ v)
  -- Blocks and definitions
  | itemsNil : Derives (.items []) []
  | itemsLine : Derives (.items ss) u → Derives (.items ss) (word .newline :: u)
  | itemsStatement :
    Derives (.statement ss) u → Derives (.items rest) v → Derives (.items (ss ++ rest)) (u ++ v)
  | block :
    Derives (.items body) u → body ≠ [] →
    Derives (.block body) (word .indent :: u ++ [word .dedent])
  | headedBlock :
    Derives (.block body) u → Derives (.headedBlock body) (word .colon :: word .newline :: u)
  | parameter (n : String) : Derives (.parameter n) [name n]
  | functionDefinition {parameters : List String} :
    Derives (.separated (parameters.map .parameter)) u → Derives (.headedBlock body) v →
    Derives (.functionDefinition ⟨n, parameters, body⟩)
      (word .funWord :: name n :: word .openParen :: u ++ word .closeParen :: v)
  | membersNil : Derives (.members []) []
  | membersLine : Derives (.members ms) u → Derives (.members ms) (word .newline :: u)
  | membersPass :
    Derives (.members ms) u →
    Derives (.members (none :: ms)) (word .passWord :: word .newline :: u)
  | membersMethod :
    Derives (.functionDefinition f) u → Derives (.members ms) v →
    Derives (.members (some f :: ms)) (u ++ v)
  | elseIf :
    Derives (.expression test) u → Derives (.headedBlock body) v →
    Derives (.elseIf ⟨test, body⟩) (word .elseWord :: word .ifWord :: u ++ v)
  | otherwiseNone : Derives (.otherwise none) []
  | otherwiseSome :
    Derives (.headedBlock body) u → Derives (.otherwise (some body)) (word .elseWord :: u)
  -- Statements
  | functionStatement : Derives (.functionDefinition f) u → Derives (.statement [.functionDef f]) u
  /-- A class body holds a method or a `pass` at least. -/
  | classStatement {ms : List (Option FunctionDef)} :
    Derives (.members ms) u → ms ≠ [] →
    Derives (.statement [.classDef n (ms.filterMap id)])
      (word .classWord :: name n :: word .colon :: word .newline :: word .indent :: u ++
        [word .dedent])
  | returnNothing : Derives (.statement [.returnStmt none]) [word .returnWord, word .newline]
  | returnValue :
    Derives (.expression e) u →
    Derives (.statement [.returnStmt (some e)]) (word .returnWord :: u ++ [word .newline])
  | ifStatement {elseIfs : List ElseIf} :
    Derives (.expression test) u → Derives (.headedBlock body) v →
    Derives (.star (elseIfs.map .elseIf)) w → Derives (.otherwise rest) x →
    Derives (.statement [.ifElse test body elseIfs rest]) (word .ifWord :: u ++ v ++ w ++ x)
  | whileStatement :
    Derives (.expression test) u → Derives (.headedBlock body) v →
    Derives (.statement [.whileLoop test body]) (word .whileWord :: u ++ v)
  | forStatement {binder : LoopVariable} :
    Derives (.expression iterable) u → Derives (.headedBlock body) v →
    Derives (.statement [.forLoop binder iterable body])
      (word .forWord :: loopTerminals binder ++ word .inWord :: u ++ v)
  | continueStatement : Derives (.statement [.continueStmt]) [word .continueWord, word .newline]
  | breakStatement : Derives (.statement [.breakStmt]) [word .breakWord, word .newline]
  | assertStatement :
    Derives (.expression e) u →
    Derives (.statement [.assertion e]) (word .assertWord :: u ++ [word .newline])
  | declaration (n : String) (isMutable : Bool) :
    Derives (.statement [.declare n isMutable]) (bindingTerminals n isMutable ++ [word .newline])
  | initialization :
    Derives (.expression e) u →
    Derives (.statement [.declare n isMutable, .assign (.name n) e])
      (bindingTerminals n isMutable ++ word .assign :: u ++ [word .newline])
  | assignment :
    Derives (.expression target) u → Derives (.expression e) v →
    Derives (.statement [.assign target e]) (u ++ word .assign :: v ++ [word .newline])
  | passStatement : Derives (.statement []) [word .passWord, word .newline]
  | expressionStatement :
    Derives (.expression e) u → Derives (.statement [.expression e]) (u ++ [word .newline])
  -- Programs
  | program : Derives (.items p) u → Derives (.program p) (u ++ [word .endOfFile])

end Offside.Grammar
