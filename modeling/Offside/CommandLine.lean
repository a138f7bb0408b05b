import Offside.Grammar.Statement
import Offside.Machine
import Offside.Text.Escaped
import Offside.Token.Scan

/-!
# The command line

A command takes the content of one file. It answers with an exit code, with what it prints, and
with a message if it fails.
-/

namespace Offside

inductive Command where
  /-- Runs the program. -/
  | run
  /-- Lists the tokens. -/
  | tokens
  /-- Prints the program as it was read. -/
  | ast
deriving DecidableEq, Repr

/-- What reading the file gives. -/
inductive Content where
  | text (source : String)
  | unreadable (reason : String)

namespace Content

def missing : Content := unreadable "No such file or directory (os error 2)"

/-- Only UTF-8 is text. -/
def ofBytes (bytes : ByteArray) : Content :=
  match String.fromUTF8? bytes with
  | some source => text source
  | none => unreadable "stream did not contain valid UTF-8"

end Content

/-- What is to be seen of a command when it is over. -/
structure Report where
  exitCode : UInt32
  output : String
  errors : String
deriving DecidableEq, Repr

namespace Report

def success (output : String) : Report := ⟨0, output, ""⟩

def failure (exitCode : UInt32) (output message : String) : Report :=
  ⟨exitCode, output, message ++ "\n"⟩

end Report

/-! ## Exit codes -/

/-- A failed assertion is told apart from other faults. -/
def ProgramError.exitCode : ProgramError → UInt32
  | assertionFailed _ => 3
  | fault _ _ => 1

/-- The program is not well formed. -/
def malformed (message : String) : Report := .failure 2 "" message

/-! ## Listing tokens -/

/-- Fills up with blanks on the left. -/
def padLeft (width : Nat) (text : String) : String :=
  "".pushn ' ' (width - text.length) ++ text

/-- Fills up with blanks on the right. -/
def padRight (width : Nat) (text : String) : String :=
  text.pushn ' ' (width - text.length)

/-- A token on a line of its own. The line number stands only at the first token of a line. -/
def Token.listed (t : Token) (line : Nat) : String :=
  let margin := if t.position.line = line then "   | " else padLeft 4 (toString t.position.line) ++ " "
  margin ++ padRight 10 t.kind.label ++ " " ++ Text.escape t.lexeme ++ "\n"

/-- The tokens that follow one on the given line. -/
def listing : Nat → List Token → List String
  | _, [] => []
  | line, t :: rest => t.listed line :: listing t.position.line rest

def listTokens (source : String) : Report :=
  match Offside.tokens source with
  | .error e => malformed e.message
  | .ok ts => .success (String.join (listing 0 (ts.filter fun t => t.kind ≠ .whitespace)))

/-! ## Programs -/

/-- Reads a program, or reports why there is none. -/
def readProgram (source : String) : Except Report Program :=
  match Offside.tokens source with
  | .error e => .error (malformed e.message)
  | .ok ts =>
    match Program.ofTokens ts with
    | .error e => .error (malformed e.message)
    | .ok p => .ok p

def printProgram (source : String) : Report :=
  match readProgram source with
  | .error report => report
  | .ok p => .success p.text

/-- Runs a program. What it prints before it fails stays printed. There is no report on a program
that does not end. -/
def runProgram (fuel : Nat) (source : String) : Option Report :=
  match readProgram source with
  | .error report => some report
  | .ok p =>
    let m := Machine.new Machine.standard none
    match p.run fuel m.globals m.store with
    | .finished store => some (.success store.output.text)
    | .stopped why store => some (.failure why.exitCode store.output.text why.message)
    | .outOfFuel => none

/-! ## Commands -/

/-- What a command does with the file at a path. -/
def Command.report (fuel : Nat) (command : Command) (path : String) : Content → Option Report
  | .unreadable reason => some (.failure 4 "" ("Could not read " ++ path ++ ": " ++ reason))
  | .text source =>
    match command with
    | run => runProgram fuel source
    | tokens => some (listTokens source)
    | ast => some (printProgram source)

end Offside
