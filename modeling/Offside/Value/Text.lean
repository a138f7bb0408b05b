import Offside.Decimal.Notation
import Offside.Value.Container

/-!
# The text of a value

Strings are in quotes where they are elements or where the form is asked for in which they would
stand in a program. A container that stands inside itself is cut short.
-/

namespace Offside.Value

/-- A string in single quotes, or in double ones if it holds a single quote. -/
def quoted (text : String) : String :=
  if text.toList.contains '\'' then "\"" ++ text ++ "\"" else "'" ++ text ++ "'"

/-- The text of a value that holds no others. -/
def scalarText (quote : Bool) : Value → String
  | integer n => toString n.toInt
  | float x => Decimal.floatText x
  | string text => if quote then quoted text else text
  | boolean b => if b then "true" else "false"
  | null => "null"
  | void => "void"
  | list _ => "[...]"
  | dictionary _ => "\x7b...\x7d"
  | function f => "<function " ++ f.definition.name ++ ">"
  | builtin b => "<native function " ++ b.action.name ++ ">"
  | classObject c => "<class " ++ c.name ++ ">"
  | classInstance i => "<instance of " ++ i.ofClass.name ++ ">"

/-- The text of a value inside the containers `active`. Going `depth` containers deeper than these
is enough when `depth` is the number of all others. -/
def textWithin (s : Store) : Nat → List Container → Bool → Value → String
  | 0, _, quote, v => v.scalarText quote
  | depth + 1, active, quote, v =>
    match v with
    | list id =>
      if active.contains (.list id) then v.scalarText quote
      else
        let items := (s.list id).toList.map (textWithin s depth (.list id :: active) true)
        "[" ++ ", ".intercalate items ++ "]"
    | dictionary id =>
      if active.contains (.dictionary id) then v.scalarText quote
      else
        let entries := (s.dictionary id).entries.toList.map fun (k, v) =>
          k.toValue.scalarText true ++ ": " ++ textWithin s depth (.dictionary id :: active) true v
        "\x7b" ++ ", ".intercalate entries ++ "\x7d"
    | v => v.scalarText quote

/-- The text that is printed for a value. -/
def display (s : Store) (v : Value) : String := v.textWithin s (s.containers + 1) [] false

/-- The text with strings in quotes. -/
def repr (s : Store) (v : Value) : String := v.textWithin s (s.containers + 1) [] true

end Offside.Value
