import Offside.CommandLine

/-!
# The program

`run`, `tokens` or `ast`, and then the path of a file.
-/

namespace Offside

def Command.ofWord? : String → Option Command
  | "run" => some .run
  | "tokens" => some .tokens
  | "ast" => some .ast
  | _ => none

def Content.ofFile (path : String) : IO Content := do
  try
    return .ofBytes (← IO.FS.readBinFile path)
  catch
    | .noFileOrDirectory .. => return .missing
    | e => return .unreadable (toString e)

def usage : String := "usage: offside [--verbose] (run | tokens | ast) FILE"

end Offside

open Offside in
def main (args : List String) : IO UInt32 := do
  match args.filter fun a => a ≠ "--verbose" ∧ a ≠ "-v" with
  | [word, path] =>
    match Command.ofWord? word with
    | none =>
      IO.eprintln usage
      return 2
    | some command =>
      match command.report ampleFuel path (← Content.ofFile path) with
      | none => return 1
      | some report =>
        IO.print report.output
        IO.eprint report.errors
        return report.exitCode
  | _ =>
    IO.eprintln usage
    return 2
